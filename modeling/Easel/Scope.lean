import Easel.Value

/-!
Names and their values. Scopes are a stack of frames; a name means its binding in the
innermost frame that has one. The outermost frame holds the globals and is never
dropped. Beside the frames stand the names of the units whose import has begun and not
ended.
-/

namespace Easel

/-- Bindings of one frame, at most one for a name. -/
abbrev Frame := List (String × Value)

namespace Frame

def find? : Frame → String → Option Value
  | [], _ => none
  | (bound, value) :: rest, name => if name = bound then some value else find? rest name

def binds (frame : Frame) (name : String) : Bool :=
  (frame.find? name).isSome

def insert : Frame → String → Value → Frame
  | [], name, value => [(name, value)]
  | (bound, old) :: rest, name, value =>
      if name = bound then (bound, value) :: rest else (bound, old) :: insert rest name value

theorem find?_insert (frame : Frame) (name other : String) (value : Value) :
    (frame.insert name value).find? other =
      if other = name then some value else frame.find? other := by
  induction frame with
  | nil => simp [insert, find?]
  | cons binding rest induction =>
      obtain ⟨bound, old⟩ := binding
      by_cases here : name = bound
      · subst here
        by_cases same : other = name <;> simp [insert, find?, same]
      · by_cases same : other = bound
        · simp [insert, find?, here, same, Ne.symm here]
        · simp [insert, find?, here, same, induction]

end Frame

/-- The innermost frame stands apart, so there always is one. Imports are listed newest
first. -/
structure Scopes where
  current : Frame := []
  outer : List Frame := []
  importing : List String := []

instance : Inhabited Scopes := ⟨{}⟩

namespace Scopes

def frames (scopes : Scopes) : List Frame :=
  scopes.current :: scopes.outer

def depth (scopes : Scopes) : Nat :=
  scopes.frames.length

def imports (scopes : Scopes) : List String :=
  scopes.importing.reverse

def push (scopes : Scopes) : Scopes :=
  { scopes with current := [], outer := scopes.current :: scopes.outer }

def pop (scopes : Scopes) : Scopes :=
  match scopes.outer with
  -- The last frame stays.
  | [] => scopes
  | frame :: outer => { scopes with current := frame, outer := outer }

def get? (scopes : Scopes) (name : String) : Option Value :=
  scopes.frames.findSome? (·.find? name)

def isLocal (scopes : Scopes) (name : String) : Bool :=
  scopes.current.binds name

def declare (scopes : Scopes) (name : String) (value : Value) : Scopes :=
  { scopes with current := scopes.current.insert name value }

def assignIn? (name : String) (value : Value) : List Frame → Option (List Frame)
  | [] => none
  | frame :: rest =>
      if frame.binds name then some (frame.insert name value :: rest)
      else (assignIn? name value rest).map (frame :: ·)

/-- Changes the nearest binding of a name, and binds it in the innermost frame if it has
none. -/
def assign (scopes : Scopes) (name : String) (value : Value) : Scopes :=
  if scopes.current.binds name then scopes.declare name value
  else
    match assignIn? name value scopes.outer with
    | some outer => { scopes with outer := outer }
    | none => scopes.declare name value

/-- Declares names with values, one after another; of equal names the last counts. -/
def declareEach (scopes : Scopes) : List (String × Value) → Scopes
  | [] => scopes
  | (name, value) :: rest => (scopes.declare name value).declareEach rest

def isImporting (scopes : Scopes) (name : String) : Bool :=
  scopes.importing.contains name

def beginImport (scopes : Scopes) (name : String) : Scopes :=
  { scopes with importing := name :: scopes.importing }

def endImport (scopes : Scopes) : Scopes :=
  { scopes with importing := scopes.importing.drop 1 }

@[simp]
theorem depth_push (scopes : Scopes) : scopes.push.depth = scopes.depth + 1 := by
  simp [depth, frames, push]

@[simp]
theorem pop_push (scopes : Scopes) : scopes.push.pop = scopes := by
  cases scopes
  rfl

theorem get?_declare (scopes : Scopes) (name other : String) (value : Value) :
    (scopes.declare name value).get? other =
      if other = name then some value else scopes.get? other := by
  simp only [get?, frames, declare, List.findSome?_cons, Frame.find?_insert]
  by_cases same : other = name <;> simp [same]

end Scopes

end Easel
