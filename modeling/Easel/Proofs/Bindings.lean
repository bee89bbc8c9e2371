import Easel.Proofs.Values
import Easel.Scope
import Mathlib.Data.List.Forall2

/-!
What frames bind names to. Two questions are asked of the bindings of a set of names: whether
they are the same in two stacks of frames, and whether the values are good ones, such as those
whose functions, however deep in lists, satisfy a condition on trees. A change of one name leaves
the answers for all others alone, and the same change on two sides leaves the sides the same.
-/

namespace Easel

/-- A name may stand alone as an expression. -/
def Trait.Allows (trait : Trait) (name : String) : Prop :=
  trait.onExpression (.identifier name)

/-- Where a tree may stand, the names that it assigns to, calls or binds may stand too. -/
structure Trait.Coherent (trait : Trait) : Prop where
  assign : ∀ {operator name value}, trait.onExpression (.assign operator name value) →
    trait.Allows name
  call : ∀ {name arguments}, trait.onExpression (.call name arguments) → trait.Allows name
  definition : ∀ {definition}, trait.onStatement (.definition definition) →
    trait.onExpression (.function definition)
  name : ∀ {definition name}, trait.onExpression (.function definition) →
    definition.name = some name → trait.Allows name
  parameter : ∀ {definition name}, trait.onExpression (.function definition) →
    name ∈ definition.parameters → trait.Allows name

theorem Trait.coherent_any : Trait.any.Coherent :=
  ⟨fun _ => trivial, fun _ => trivial, fun _ => trivial, fun _ _ => trivial, fun _ _ => trivial⟩

namespace Frame

/-- The names of a set mean the same in both frames. -/
def SameOn (names : String → Prop) (frame other : Frame) : Prop :=
  ∀ name, names name → other.find? name = frame.find? name

/-- The values of the names of a set are good. -/
def Stores (names : String → Prop) (good : Value → Prop) (frame : Frame) : Prop :=
  ∀ name value, names name → frame.find? name = some value → good value

/-- The values of allowed names satisfy the condition. -/
def Holds (trait : Trait) (frame : Frame) : Prop :=
  ∀ name value, trait.Allows name → frame.find? name = some value → value.Every trait

variable {names : String → Prop} {good : Value → Prop}

theorem SameOn.refl (frame : Frame) : SameOn names frame frame := fun _ _ => rfl

theorem SameOn.trans {before middle after : Frame} (first : SameOn names before middle)
    (second : SameOn names middle after) : SameOn names before after := fun name within =>
  (second name within).trans (first name within)

theorem SameOn.binds {frame other : Frame} (same : SameOn names frame other) {name : String}
    (within : names name) : other.binds name = frame.binds name := by
  rw [Frame.binds, Frame.binds, same name within]

theorem SameOn.insert {frame other : Frame} (same : SameOn names frame other) (name : String)
    (value : Value) : SameOn names (frame.insert name value) (other.insert name value) := by
  intro asked within
  rw [find?_insert, find?_insert, same asked within]

theorem sameOn_insert (frame : Frame) {name : String} (outside : ¬names name) (value : Value) :
    SameOn names frame (frame.insert name value) := by
  intro asked within
  have different : asked ≠ name := by
    rintro rfl
    exact outside within
  rw [find?_insert, if_neg different]

theorem Stores.insert {frame : Frame} (stores : frame.Stores names good) (name : String)
    {value : Value} (goodValue : good value) : (frame.insert name value).Stores names good := by
  intro asked found within bound
  rw [find?_insert] at bound
  split at bound
  · cases bound
    exact goodValue
  · exact stores asked found within bound

end Frame

namespace Scopes

/-- The names of a set mean the same in each frame, and the same units are being imported. -/
structure Same (names : String → Prop) (scopes other : Scopes) : Prop where
  importing : other.importing = scopes.importing
  frames : List.Forall₂ (Frame.SameOn names) scopes.frames other.frames

/-- The values of the names of a set are good in each frame. -/
def Stores (names : String → Prop) (good : Value → Prop) (scopes : Scopes) : Prop :=
  ∀ frame ∈ scopes.frames, frame.Stores names good

/-- The values of allowed names satisfy the condition in each frame. -/
def Holds (trait : Trait) (scopes : Scopes) : Prop :=
  ∀ frame ∈ scopes.frames, frame.Holds trait

theorem frames_assign (scopes : Scopes) (name : String) (value : Value) :
    (scopes.assign name value).frames =
      (assignIn? name value scopes.frames).getD (scopes.declare name value).frames := by
  rw [assign, show scopes.frames = scopes.current :: scopes.outer from rfl, assignIn?]
  by_cases bound : scopes.current.binds name = true
  · rw [if_pos bound, if_pos bound]
    rfl
  · rw [if_neg bound, if_neg bound]
    cases assignIn? name value scopes.outer <;> rfl

theorem importing_assign (scopes : Scopes) (name : String) (value : Value) :
    (scopes.assign name value).importing = scopes.importing := by
  rw [assign]
  split
  · rfl
  · split <;> rfl

section Same

variable {names : String → Prop}

theorem sameOn_each_refl (frames : List Frame) :
    List.Forall₂ (Frame.SameOn names) frames frames :=
  List.forall₂_same.mpr fun frame _ => Frame.SameOn.refl frame

theorem Same.refl (scopes : Scopes) : Same names scopes scopes :=
  ⟨rfl, sameOn_each_refl scopes.frames⟩

theorem Same.trans {before middle after : Scopes} (first : Same names before middle)
    (second : Same names middle after) : Same names before after := by
  refine ⟨second.importing.trans first.importing, ?_⟩
  have chained : ∀ {before middle after : List Frame},
      List.Forall₂ (Frame.SameOn names) before middle →
      List.Forall₂ (Frame.SameOn names) middle after →
      List.Forall₂ (Frame.SameOn names) before after := by
    intro before middle after first second
    induction first generalizing after with
    | nil => exact second
    | cons head tail induction =>
        cases second with
        | cons next others => exact .cons (head.trans next) (induction others)
  exact chained first.frames second.frames

theorem Same.get? {scopes other : Scopes} (same : Same names scopes other) {name : String}
    (within : names name) : other.get? name = scopes.get? name := by
  have found : ∀ {frames others : List Frame}, List.Forall₂ (Frame.SameOn names) frames others →
      others.findSome? (·.find? name) = frames.findSome? (·.find? name) := by
    intro frames others each
    induction each with
    | nil => rfl
    | cons head tail induction =>
        rw [List.findSome?_cons, List.findSome?_cons, head name within, induction]
  exact found same.frames

theorem Same.isLocal {scopes other : Scopes} (same : Same names scopes other) {name : String}
    (within : names name) : other.isLocal name = scopes.isLocal name := by
  have current := (List.forall₂_cons.mp same.frames).1
  exact current.binds within

theorem Same.push {scopes other : Scopes} (same : Same names scopes other) :
    Same names scopes.push other.push :=
  ⟨same.importing, .cons (Frame.SameOn.refl []) same.frames⟩

/-- A frame that both sides have on top of another may be dropped from both. -/
theorem Same.pop {scopes other : Scopes} (same : Same names scopes other) :
    Same names scopes.pop other.pop := by
  obtain ⟨importing, frames⟩ := same
  have outer := (List.forall₂_cons.mp frames).2
  rw [Scopes.pop, Scopes.pop]
  cases inner : scopes.outer with
  | nil =>
      rw [inner, List.forall₂_nil_left_iff] at outer
      rw [outer]
      exact ⟨importing, frames⟩
  | cons frame rest =>
      rw [inner] at outer
      obtain ⟨frame', rest', _, _, outer'⟩ := List.forall₂_cons_left_iff.mp outer
      rw [outer'] at outer ⊢
      exact ⟨importing, outer⟩

theorem Same.beginImport {scopes other : Scopes} (same : Same names scopes other) (name : String) :
    Same names (scopes.beginImport name) (other.beginImport name) :=
  ⟨congrArg (name :: ·) same.importing, same.frames⟩

theorem Same.endImport {scopes other : Scopes} (same : Same names scopes other) :
    Same names scopes.endImport other.endImport :=
  ⟨congrArg (List.drop 1) same.importing, same.frames⟩

theorem Same.declare {scopes other : Scopes} (same : Same names scopes other) (name : String)
    (value : Value) : Same names (scopes.declare name value) (other.declare name value) := by
  have split := List.forall₂_cons.mp same.frames
  exact ⟨same.importing, .cons (split.1.insert name value) split.2⟩

theorem same_declare (scopes : Scopes) {name : String} (outside : ¬names name) (value : Value) :
    Same names scopes (scopes.declare name value) :=
  ⟨rfl, .cons (Frame.sameOn_insert scopes.current outside value) (sameOn_each_refl scopes.outer)⟩

theorem Same.declareEach {scopes other : Scopes} (same : Same names scopes other)
    (bindings : List (String × Value)) :
    Same names (scopes.declareEach bindings) (other.declareEach bindings) := by
  induction bindings generalizing scopes other with
  | nil => exact same
  | cons binding rest induction => exact induction (same.declare binding.1 binding.2)

theorem same_declareEach (scopes : Scopes) {bindings : List (String × Value)}
    (outside : ∀ binding ∈ bindings, ¬names binding.1) :
    Same names scopes (scopes.declareEach bindings) := by
  induction bindings generalizing scopes with
  | nil => exact .refl scopes
  | cons binding rest induction =>
      obtain ⟨here, others⟩ := List.forall_mem_cons.mp outside
      exact (same_declare scopes here binding.2).trans (induction _ others)

/-- Both sides change the same frame, if they change one. -/
theorem sameOn_each_assignIn? {frames others : List Frame}
    (each : List.Forall₂ (Frame.SameOn names) frames others) {name : String} (within : names name)
    (value : Value) :
    Option.Rel (List.Forall₂ (Frame.SameOn names)) (assignIn? name value frames)
      (assignIn? name value others) := by
  induction each with
  | nil => exact .none
  | @cons frame other rest otherRest head tail induction =>
      rw [assignIn?, assignIn?, head.binds within]
      split
      · exact .some (.cons (head.insert name value) tail)
      · generalize assignIn? name value rest = changed at induction ⊢
        generalize assignIn? name value otherRest = otherChanged at induction ⊢
        cases induction with
        | none => exact .none
        | some changed => exact .some (.cons head changed)

theorem Same.assign {scopes other : Scopes} (same : Same names scopes other) {name : String}
    (within : names name) (value : Value) :
    Same names (scopes.assign name value) (other.assign name value) := by
  refine ⟨by rw [importing_assign, importing_assign, same.importing], ?_⟩
  rw [frames_assign, frames_assign]
  have changes := sameOn_each_assignIn? same.frames within value
  generalize assignIn? name value scopes.frames = changed at changes ⊢
  generalize assignIn? name value other.frames = otherChanged at changes ⊢
  cases changes with
  | none => exact (same.declare name value).frames
  | some changed => exact changed

theorem sameOn_each_assignIn?_outside {name : String} (outside : ¬names name) {value : Value}
    {frames changed : List Frame} (found : assignIn? name value frames = some changed) :
    List.Forall₂ (Frame.SameOn names) frames changed := by
  induction frames generalizing changed with
  | nil => cases found
  | cons frame rest induction =>
      rw [assignIn?] at found
      split at found
      · cases found
        exact .cons (Frame.sameOn_insert frame outside value) (sameOn_each_refl rest)
      · obtain ⟨others, foundLater, rfl⟩ := Option.map_eq_some_iff.mp found
        exact .cons (Frame.SameOn.refl frame) (induction foundLater)

theorem same_assign (scopes : Scopes) {name : String} (outside : ¬names name) (value : Value) :
    Same names scopes (scopes.assign name value) := by
  refine ⟨importing_assign scopes name value, ?_⟩
  rw [frames_assign]
  cases found : assignIn? name value scopes.frames with
  | none => exact (same_declare scopes outside value).frames
  | some changed => exact sameOn_each_assignIn?_outside outside found

end Same

section Stores

variable {names : String → Prop} {good : Value → Prop} {scopes : Scopes}

theorem Stores.of_get? (stores : scopes.Stores names good) {name : String} (within : names name)
    {value : Value} (found : scopes.get? name = some value) : good value := by
  obtain ⟨frame, member, bound⟩ := List.exists_of_findSome?_eq_some found
  exact stores frame member name value within bound

theorem Stores.push (stores : scopes.Stores names good) : scopes.push.Stores names good := by
  have empty : Frame.Stores names good [] := fun _ _ _ bound => nomatch bound
  exact List.forall_mem_cons.mpr ⟨empty, stores⟩

theorem Stores.pop (stores : scopes.Stores names good) : scopes.pop.Stores names good := by
  rw [Scopes.pop]
  split
  · exact stores
  · next frame rest outer =>
      have others := (List.forall_mem_cons.mp stores).2
      rw [outer] at others
      exact others

theorem Stores.declare (stores : scopes.Stores names good) (name : String) {value : Value}
    (goodValue : good value) : (scopes.declare name value).Stores names good := by
  obtain ⟨current, outer⟩ := List.forall_mem_cons.mp stores
  exact List.forall_mem_cons.mpr ⟨current.insert name goodValue, outer⟩

theorem Stores.declareEach (stores : scopes.Stores names good) {bindings : List (String × Value)}
    (each : ∀ binding ∈ bindings, good binding.2) :
    (scopes.declareEach bindings).Stores names good := by
  induction bindings generalizing scopes with
  | nil => exact stores
  | cons binding rest induction =>
      obtain ⟨here, others⟩ := List.forall_mem_cons.mp each
      exact induction (stores.declare binding.1 here) others

theorem stores_each_assignIn? {name : String} {value : Value} (goodValue : good value)
    {frames changed : List Frame} (stores : ∀ frame ∈ frames, frame.Stores names good)
    (found : assignIn? name value frames = some changed) :
    ∀ frame ∈ changed, frame.Stores names good := by
  induction frames generalizing changed with
  | nil => cases found
  | cons frame rest induction =>
      obtain ⟨here, others⟩ := List.forall_mem_cons.mp stores
      rw [assignIn?] at found
      split at found
      · cases found
        exact List.forall_mem_cons.mpr ⟨here.insert name goodValue, others⟩
      · obtain ⟨changedLater, foundLater, rfl⟩ := Option.map_eq_some_iff.mp found
        exact List.forall_mem_cons.mpr ⟨here, induction others foundLater⟩

theorem Stores.assign (stores : scopes.Stores names good) (name : String) {value : Value}
    (goodValue : good value) : (scopes.assign name value).Stores names good := by
  rw [Stores, frames_assign]
  cases found : assignIn? name value scopes.frames with
  | none => exact stores.declare name goodValue
  | some changed => exact stores_each_assignIn? goodValue stores found

theorem Stores.define (stores : scopes.Stores names good) (name : String) {value : Value}
    (goodValue : good value) :
    (if scopes.isLocal name then scopes else scopes.declare name value).Stores names good := by
  split
  · exact stores
  · exact stores.declare name goodValue

end Stores

-- What holds of good values in general, for the values that satisfy a condition on trees.
section Holds

variable {trait : Trait} {scopes : Scopes}

theorem holds_iff_stores :
    scopes.Holds trait ↔ scopes.Stores trait.Allows (Value.Every trait) := Iff.rfl

theorem Holds.of_get? (holds : scopes.Holds trait) {name : String} (allowed : trait.Allows name)
    {value : Value} (found : scopes.get? name = some value) : value.Every trait :=
  (holds_iff_stores.mp holds).of_get? allowed found

theorem Holds.push (holds : scopes.Holds trait) : scopes.push.Holds trait :=
  (holds_iff_stores.mp holds).push

theorem Holds.pop (holds : scopes.Holds trait) : scopes.pop.Holds trait :=
  (holds_iff_stores.mp holds).pop

theorem Holds.declare (holds : scopes.Holds trait) (name : String) {value : Value}
    (every : value.Every trait) : (scopes.declare name value).Holds trait :=
  (holds_iff_stores.mp holds).declare name every

theorem Holds.declareEach (holds : scopes.Holds trait) {bindings : List (String × Value)}
    (every : ∀ binding ∈ bindings, binding.2.Every trait) :
    (scopes.declareEach bindings).Holds trait :=
  (holds_iff_stores.mp holds).declareEach every

theorem Holds.assign (holds : scopes.Holds trait) (name : String) {value : Value}
    (every : value.Every trait) : (scopes.assign name value).Holds trait :=
  (holds_iff_stores.mp holds).assign name every

end Holds

end Scopes

end Easel
