import Easel.Proofs.Bindings
import Easel.Proofs.Frames
import Easel.Session

/-!
What a host may do to scopes, one operation after another. A name means its nearest binding, and
assignment changes that binding and no other, or makes one in the innermost frame if there is none.
So what happens between a push and the pop that belongs to it is seen afterwards only in the names
that were bound before: they have the value that was assigned to them last, as long as no binding
inside has hidden them.
-/

namespace Easel.Scopes

inductive Operation where
  | push
  | pop
  | declare (name : String) (value : Value)
  | assign (name : String) (value : Value)
  | beginImport (name : String)
  | endImport

namespace Operation

def step : Operation → Step
  | .push => .push
  | .pop => .pop
  | .declare name value => .declare name value
  | .assign name value => .assign name value
  | .beginImport name => .beginImport name
  | .endImport => .endImport

def apply : Operation → Scopes → Scopes
  | .push, scopes => scopes.push
  | .pop, scopes => scopes.pop
  | .declare name value, scopes => scopes.declare name value
  | .assign name value, scopes => scopes.assign name value
  | .beginImport name, scopes => if scopes.isImporting name then scopes else scopes.beginImport name
  | .endImport, scopes => scopes.endImport

/-- How many frames stand above that of a bracket, if the operation does not drop that one. -/
def above? : Operation → Nat → Option Nat
  | .push, count => some (count + 1)
  | .pop, 0 => none
  | .pop, count + 1 => some count
  | _, count => some count

def Declares (asked : String) : Operation → Prop
  | .declare name _ => name = asked
  | _ => False

def assigned? (asked : String) : Operation → Option Value
  | .assign name value => if name = asked then some value else none
  | _ => none

end Operation

def after (operations : List Operation) (scopes : Scopes) : Scopes :=
  operations.foldl (fun scopes operation => operation.apply scopes) scopes

/-- Between a push and the pop that belongs to it: no pop goes below the frame that was pushed, and
in the end that frame is the innermost one again. -/
def Balanced (operations : List Operation) : Prop :=
  operations.foldlM (fun count operation => operation.above? count) 0 = some 0

def lastAssigned? (name : String) (operations : List Operation) : Option Value :=
  operations.reverse.findSome? (·.assigned? name)

def global (scopes : Scopes) : Frame :=
  scopes.frames.getLast (List.cons_ne_nil _ _)

variable {name : String} {value : Value} {frames changed : List Frame} {scopes : Scopes}

theorem perform_step (interpreter : Interpreter) (machine : Machine) (operation : Operation) :
    (Session.perform interpreter machine operation.step).2 =
      { machine with scopes := operation.apply machine.scopes } := by
  cases operation with
  | beginImport name =>
      change (Session.beginImport name machine).2 = _
      rw [Session.beginImport, Operation.apply]
      split <;> rfl
  | _ => rfl

theorem findSome?_eq_none_iff_binds :
    frames.findSome? (·.find? name) = none ↔ ∀ frame ∈ frames, frame.binds name = false := by
  simp [Frame.binds]

theorem exists_split_of_assignIn? (found : assignIn? name value frames = some changed) :
    ∃ nearer frame farther, frames = nearer ++ frame :: farther ∧ frame.binds name = true ∧
      (∀ other ∈ nearer, other.binds name = false) ∧
      changed = nearer ++ frame.insert name value :: farther := by
  induction frames generalizing changed with
  | nil => cases found
  | cons frame rest induction =>
      rw [assignIn?] at found
      by_cases bound : frame.binds name = true
      · rw [if_pos bound] at found
        cases found
        exact ⟨[], frame, rest, rfl, bound, List.forall_mem_nil _, rfl⟩
      · rw [if_neg bound] at found
        obtain ⟨others, foundLater, rfl⟩ := Option.map_eq_some_iff.mp found
        obtain ⟨nearer, frame', farther, rfl, bound', unbound, rfl⟩ := induction foundLater
        have unboundHere : frame.binds name = false := eq_false_of_ne_true bound
        exact ⟨frame :: nearer, frame', farther, rfl, bound',
          List.forall_mem_cons.mpr ⟨unboundHere, unbound⟩, rfl⟩

theorem assignIn?_eq_none_iff :
    assignIn? name value frames = none ↔ frames.findSome? (·.find? name) = none := by
  rw [findSome?_eq_none_iff_binds]
  induction frames with
  | nil => simp [assignIn?]
  | cons frame rest induction =>
      rw [assignIn?, List.forall_mem_cons]
      by_cases bound : frame.binds name = true
      · simp [bound]
      · simp [bound, induction]

theorem findSome?_assignIn? (found : assignIn? name value frames = some changed) (other : String) :
    changed.findSome? (·.find? other) =
      if other = name then some value else frames.findSome? (·.find? other) := by
  induction frames generalizing changed with
  | nil => cases found
  | cons frame rest induction =>
      rw [assignIn?] at found
      by_cases bound : frame.binds name = true
      · rw [if_pos bound] at found
        cases found
        rw [List.findSome?_cons, List.findSome?_cons, Frame.find?_insert]
        by_cases same : other = name <;> simp [same]
      · rw [if_neg bound] at found
        obtain ⟨others, foundLater, rfl⟩ := Option.map_eq_some_iff.mp found
        rw [List.findSome?_cons, List.findSome?_cons, induction foundLater]
        by_cases same : other = name
        · subst same
          have unbound : frame.find? other = none := by simpa [Frame.binds] using bound
          simp [unbound]
        · simp [same]

theorem get?_assign (scopes : Scopes) (name other : String) (value : Value) :
    (scopes.assign name value).get? other =
      if other = name then some value else scopes.get? other := by
  rw [get?, frames_assign]
  cases found : assignIn? name value scopes.frames with
  | none => exact get?_declare scopes name other value
  | some changed => exact findSome?_assignIn? found other

/-- What an assignment does. It changes one frame, at one name. -/
structure AssignsNearest (name : String) (value : Value) (before after : Scopes) : Prop where
  bound : after.get? name = some value
  others : ∀ other, other ≠ name → after.get? other = before.get? other
  depth : after.depth = before.depth
  imports : after.imports = before.imports
  /-- The frame is the innermost one that bound the name, or the innermost of all. -/
  frames : ∃ nearer frame changed farther, before.frames = nearer ++ frame :: farther ∧
    after.frames = nearer ++ changed :: farther ∧
    (∀ other, changed.find? other = if other = name then some value else frame.find? other) ∧
    (before.get? name ≠ some value → changed ≠ frame) ∧
    (frame.binds name = true ∧ (∀ other ∈ nearer, other.binds name = false) ∨
      nearer = [] ∧ ∀ other ∈ before.frames, other.binds name = false)

theorem find?_eq_get? {nearer farther : List Frame} {frame : Frame}
    (split : scopes.frames = nearer ++ frame :: farther) (bound : frame.binds name = true)
    (unbound : ∀ other ∈ nearer, other.binds name = false) :
    frame.find? name = scopes.get? name := by
  have passed := findSome?_eq_none_iff_binds.mpr unbound
  obtain ⟨found, here⟩ := Option.isSome_iff_exists.mp bound
  rw [get?, split, List.findSome?_append, passed, Option.none_or, List.findSome?_cons, here]

theorem exists_split_of_assign (scopes : Scopes) (name : String) (value : Value) :
    ∃ nearer frame farther, scopes.frames = nearer ++ frame :: farther ∧
      (scopes.assign name value).frames = nearer ++ frame.insert name value :: farther ∧
      frame.find? name = scopes.get? name ∧
      (frame.binds name = true ∧ (∀ other ∈ nearer, other.binds name = false) ∨
        nearer = [] ∧ ∀ other ∈ scopes.frames, other.binds name = false) := by
  rw [frames_assign]
  cases found : assignIn? name value scopes.frames with
  | none =>
      have nothing : scopes.get? name = none := assignIn?_eq_none_iff.mp found
      have unbound := findSome?_eq_none_iff_binds.mp nothing
      have here : scopes.current.find? name = none := by
        simpa [Frame.binds] using unbound scopes.current List.mem_cons_self
      exact ⟨[], scopes.current, scopes.outer, rfl, rfl, here.trans nothing.symm,
        .inr ⟨rfl, unbound⟩⟩
  | some changed =>
      obtain ⟨nearer, frame, farther, split, bound, unbound, rfl⟩ := exists_split_of_assignIn? found
      exact ⟨nearer, frame, farther, split, rfl, find?_eq_get? split bound unbound,
        .inl ⟨bound, unbound⟩⟩

theorem assignsNearest (scopes : Scopes) (name : String) (value : Value) :
    AssignsNearest name value scopes (scopes.assign name value) := by
  obtain ⟨nearer, frame, farther, split, splitAfter, found, nearest⟩ :=
    exists_split_of_assign scopes name value
  refine ⟨?_, ?_, ?_, ?_, ?_⟩
  · rw [get?_assign, if_pos rfl]
  · intro other different
    rw [get?_assign, if_neg different]
  · simp [depth, split, splitAfter]
  · exact congrArg List.reverse (importing_assign scopes name value)
  · refine ⟨nearer, frame, frame.insert name value, farther, split, splitAfter, ?_, ?_, nearest⟩
    · exact fun other => Frame.find?_insert frame name other value
    · intro fresh same
      apply fresh
      rw [← found, ← same, Frame.find?_insert, if_pos rfl]

theorem assignIn?_append (name : String) (value : Value) (inner base : List Frame) :
    assignIn? name value (inner ++ base) =
      ((assignIn? name value inner).map (· ++ base)).or
        ((assignIn? name value base).map (inner ++ ·)) := by
  induction inner with
  | nil => simp [assignIn?]
  | cons frame rest induction =>
      rw [List.cons_append, assignIn?, assignIn?, induction]
      by_cases bound : frame.binds name = true
      · simp [bound]
      · simp [bound, Option.map_or, Function.comp_def]

/-- In the course of a bracket the frames that were there at its start are beneath those that are
its own, of which there are `count` and one more. -/
structure Inside (inner base : List Frame) (count : Nat) (scopes : Scopes) : Prop where
  frames : scopes.frames = inner ++ base
  size : inner.length = count + 1

/-- What becomes of a name in the course of a bracket. If it means nothing beneath the bracket, it
comes to mean nothing there; if it means something there and is not hidden by a binding above, it
has the value that was assigned to it, if any was. -/
structure Spares (name : String) (hidden : Prop) (assigned : Option Value)
    (inner base innerAfter baseAfter : List Frame) : Prop where
  size : baseAfter.length = base.length
  unbound : base.findSome? (·.find? name) = none → baseAfter.findSome? (·.find? name) = none
  visible : ∀ value, ¬hidden → inner.findSome? (·.find? name) = none →
    base.findSome? (·.find? name) = some value →
      innerAfter.findSome? (·.find? name) = none ∧
        baseAfter.findSome? (·.find? name) = some (assigned.getD value)

variable {inner base : List Frame} {count next final : Nat} {operation : Operation}
  {operations : List Operation}

theorem spares_same (name : String) (hidden : Prop) {innerAfter : List Frame}
    (same : inner.findSome? (·.find? name) = none → innerAfter.findSome? (·.find? name) = none) :
    Spares name hidden none inner base innerAfter base :=
  ⟨rfl, id, fun _ _ free found => ⟨same free, found⟩⟩

theorem Spares.trans {hidden hiddenLater : Prop} {assigned assignedLater : Option Value}
    {innerMiddle baseMiddle innerAfter baseAfter : List Frame}
    (first : Spares name hidden assigned inner base innerMiddle baseMiddle)
    (second : Spares name hiddenLater assignedLater innerMiddle baseMiddle innerAfter baseAfter) :
    Spares name (hidden ∨ hiddenLater) (assignedLater.or assigned) inner base innerAfter
      baseAfter where
  size := second.size.trans first.size
  unbound nothing := second.unbound (first.unbound nothing)
  visible value visible free found := by
    obtain ⟨shown, shownLater⟩ := not_or.mp visible
    obtain ⟨freeMiddle, foundMiddle⟩ := first.visible value shown free found
    have last := second.visible _ shownLater freeMiddle foundMiddle
    rwa [← Option.getD_or] at last

theorem frames_pop_of_outer {frame : Frame} {rest : List Frame}
    (outer : scopes.outer = frame :: rest) : scopes.pop.frames = frame :: rest := by
  simp [pop, outer, Scopes.frames]

theorem Inside.pop (inside : Inside inner base (count + 1) scopes) :
    Inside inner.tail base count scopes.pop := by
  obtain ⟨frames, size⟩ := inside
  match inner with
  | [] | [_] => cases size
  | first :: second :: rest =>
      have outer : scopes.outer = second :: (rest ++ base) := (List.cons.inj frames).2
      exact ⟨frames_pop_of_outer outer, Nat.succ.inj size⟩

theorem Inside.declare (inside : Inside inner base count scopes) (bound : String) (value : Value) :
    ∃ innerAfter, Inside innerAfter base count (scopes.declare bound value) ∧
      ∀ name, name ≠ bound → innerAfter.findSome? (·.find? name) = inner.findSome? (·.find? name) := by
  obtain ⟨frames, size⟩ := inside
  cases inner with
  | nil => cases size
  | cons frame rest =>
      obtain ⟨rfl, outer⟩ := List.cons.inj frames
      refine ⟨scopes.current.insert bound value :: rest, ⟨?_, size⟩, ?_⟩
      · exact congrArg (scopes.current.insert bound value :: ·) outer
      · intro name different
        rw [List.findSome?_cons, List.findSome?_cons, Frame.find?_insert, if_neg different]

theorem Inside.assign (inside : Inside inner base count scopes) (bound : String) (value : Value)
    (name : String) :
    ∃ innerAfter baseAfter, Inside innerAfter baseAfter count (scopes.assign bound value) ∧
      Spares name False ((Operation.assign bound value).assigned? name) inner base innerAfter
        baseAfter := by
  have frames := frames_assign scopes bound value
  rw [inside.frames, assignIn?_append] at frames
  cases foundInner : assignIn? bound value inner with
  | some innerAfter =>
      rw [foundInner] at frames
      have size := (sameNames_each_assignIn? foundInner).length_eq
      refine ⟨innerAfter, base, ⟨frames, size.symm.trans inside.size⟩, rfl, id, ?_⟩
      intro old _ free found
      -- The name is another one, since the one that is assigned is bound in the bracket.
      have different : name ≠ bound := by
        rintro rfl
        rw [assignIn?_eq_none_iff.mpr free] at foundInner
        cases foundInner
      rw [findSome?_assignIn? foundInner, if_neg different, Operation.assigned?,
        if_neg different.symm]
      exact ⟨free, found⟩
  | none =>
      cases foundBase : assignIn? bound value base with
      | some baseAfter =>
          rw [foundInner, foundBase] at frames
          have size := (sameNames_each_assignIn? foundBase).length_eq
          refine ⟨inner, baseAfter, ⟨frames, inside.size⟩, size.symm, ?_, ?_⟩
          · intro nothing
            have different : name ≠ bound := by
              rintro rfl
              rw [assignIn?_eq_none_iff.mpr nothing] at foundBase
              cases foundBase
            rw [findSome?_assignIn? foundBase, if_neg different, nothing]
          · intro old _ free found
            refine ⟨free, ?_⟩
            rw [findSome?_assignIn? foundBase, found, Operation.assigned?]
            by_cases same : name = bound
            · simp [same]
            · simp [same, Ne.symm same]
      | none =>
          rw [foundInner, foundBase] at frames
          obtain ⟨innerAfter, insideAfter, others⟩ := inside.declare bound value
          refine ⟨innerAfter, base, ⟨frames.trans insideAfter.frames, insideAfter.size⟩, rfl, id, ?_⟩
          intro old _ free found
          have different : name ≠ bound := by
            rintro rfl
            rw [assignIn?_eq_none_iff.mp foundBase] at found
            cases found
          rw [others name different, Operation.assigned?, if_neg different.symm]
          exact ⟨free, found⟩

theorem Inside.apply (inside : Inside inner base count scopes)
    (stays : operation.above? count = some next) (name : String) :
    ∃ innerAfter baseAfter, Inside innerAfter baseAfter next (operation.apply scopes) ∧
      Spares name (operation.Declares name) (operation.assigned? name) inner base innerAfter
        baseAfter := by
  cases operation with
  | push =>
      cases stays
      refine ⟨[] :: inner, base, ⟨congrArg ([] :: ·) inside.frames, ?_⟩, spares_same name _ id⟩
      exact congrArg (· + 1) inside.size
  | pop =>
      cases count with
      | zero => cases stays
      | succ count =>
          cases stays
          refine ⟨inner.tail, base, inside.pop, spares_same name _ ?_⟩
          rw [findSome?_eq_none_iff_binds, findSome?_eq_none_iff_binds]
          exact fun unbound frame member => unbound frame (List.mem_of_mem_tail member)
  | declare bound value =>
      cases stays
      obtain ⟨innerAfter, insideAfter, others⟩ := inside.declare bound value
      refine ⟨innerAfter, base, insideAfter, rfl, id, ?_⟩
      intro old visible free found
      exact ⟨(others name (Ne.symm visible)).trans free, found⟩
  | assign bound value =>
      cases stays
      exact inside.assign bound value name
  | beginImport unit =>
      cases stays
      refine ⟨inner, base, ⟨?_, inside.size⟩, spares_same name _ id⟩
      rw [Operation.apply]
      split
      · exact inside.frames
      · exact inside.frames
  | endImport =>
      cases stays
      exact ⟨inner, base, ⟨inside.frames, inside.size⟩, spares_same name _ id⟩

theorem lastAssigned?_cons (name : String) (operation : Operation) (operations : List Operation) :
    lastAssigned? name (operation :: operations) =
      (lastAssigned? name operations).or (operation.assigned? name) := by
  simp [lastAssigned?]

theorem Inside.after (inside : Inside inner base count scopes)
    (stays : operations.foldlM (fun count operation => operation.above? count) count = some final)
    (name : String) :
    ∃ innerAfter baseAfter, Inside innerAfter baseAfter final (after operations scopes) ∧
      Spares name (∃ operation ∈ operations, operation.Declares name)
        (lastAssigned? name operations) inner base innerAfter baseAfter := by
  induction operations generalizing inner base count scopes with
  | nil =>
      cases stays
      exact ⟨inner, base, inside, spares_same name _ id⟩
  | cons operation rest induction =>
      obtain ⟨next, staysHere, staysLater⟩ := Option.bind_eq_some_iff.mp stays
      obtain ⟨innerNext, baseNext, insideNext, spares⟩ := inside.apply staysHere name
      obtain ⟨innerAfter, baseAfter, insideAfter, sparesLater⟩ := induction insideNext staysLater
      refine ⟨innerAfter, baseAfter, insideAfter, ?_⟩
      rw [lastAssigned?_cons]
      simpa only [List.exists_mem_cons_iff] using spares.trans sparesLater

theorem exists_spares_of_balanced (balanced : Balanced operations) (scopes : Scopes) (name : String) :
    ∃ innerAfter, Spares name (∃ operation ∈ operations, operation.Declares name)
      (lastAssigned? name operations) [[]] scopes.frames innerAfter
      (after operations scopes.push).pop.frames := by
  have pushed : Inside [[]] scopes.frames 0 scopes.push := ⟨rfl, rfl⟩
  obtain ⟨innerAfter, baseAfter, inside, spares⟩ := pushed.after balanced name
  refine ⟨innerAfter, ?_⟩
  cases baseAfter with
  | nil => cases spares.size
  | cons frame rest =>
      obtain ⟨own, rfl⟩ := List.length_eq_one_iff.mp inside.size
      rwa [frames_pop_of_outer (List.cons.inj inside.frames).2]

theorem rel_getLast {R : Frame → Frame → Prop} {others : List Frame}
    (each : List.Forall₂ R frames others) (some : frames ≠ []) (someOther : others ≠ []) :
    R (frames.getLast some) (others.getLast someOther) := by
  induction each with
  | nil => exact absurd rfl some
  | cons head tail induction =>
      cases tail with
      | nil => exact head
      | cons next rest => exact induction (List.cons_ne_nil _ _) (List.cons_ne_nil _ _)

theorem Keeps.binds_global {before final : Scopes} (kept : Keeps before final)
    (bound : before.global.binds name = true) : final.global.binds name = true := by
  have each : List.Forall₂ (fun frame other : Frame => frame.binds name = true →
      other.binds name = true) before.frames final.frames :=
    .cons (kept.current name) (kept.outer.imp fun frame other same bound => (same name).trans bound)
  exact rel_getLast each _ _ bound

theorem binds_global_apply (operation : Operation) (bound : scopes.global.binds name = true) :
    (operation.apply scopes).global.binds name = true := by
  cases operation with
  | push => exact bound
  | pop =>
      cases outer : scopes.outer with
      | nil => simpa [Operation.apply, pop, outer] using bound
      | cons frame rest => simpa [Operation.apply, pop, global, Scopes.frames, outer] using bound
  | declare other value => exact (keeps_declare scopes other value).binds_global bound
  | assign other value => exact (keeps_assign scopes other value).binds_global bound
  | beginImport unit =>
      rw [Operation.apply]
      split
      · exact bound
      · exact bound
  | endImport => exact bound

theorem binds_global_after (operations : List Operation)
    (bound : scopes.global.binds name = true) :
    (after operations scopes).global.binds name = true := by
  induction operations generalizing scopes with
  | nil => exact bound
  | cons operation rest induction => exact induction (binds_global_apply operation bound)

/-- A name means its nearest binding. No run of operations takes away the global frame or a name in
it, an assignment changes that binding alone, and of what happens between a push and its pop only the
assignments to names that were bound before are left. -/
theorem names_mean_nearest_bindings :
    (∀ (interpreter : Interpreter) (machine : Machine) (operation : Operation),
      (Session.perform interpreter machine operation.step).2 =
        { machine with scopes := operation.apply machine.scopes }) ∧
    (∀ (scopes : Scopes) (operations : List Operation), 0 < (after operations scopes).depth ∧
      ∀ name, scopes.global.binds name = true →
        (after operations scopes).global.binds name = true) ∧
    (∀ (scopes : Scopes) (name : String) (value : Value),
      AssignsNearest name value scopes (scopes.assign name value)) ∧
    ∀ (scopes : Scopes) (operations : List Operation), Balanced operations →
      let ended := (after operations scopes.push).pop
      ended.depth = scopes.depth ∧ ∀ name,
        (scopes.get? name = none → ended.get? name = none) ∧
        ∀ value, scopes.get? name = some value →
          (∀ operation ∈ operations, ¬operation.Declares name) →
            ended.get? name = some ((lastAssigned? name operations).getD value) := by
  refine ⟨perform_step, ?_, assignsNearest, ?_⟩
  · intro scopes operations
    exact ⟨Nat.succ_pos _, fun name bound => binds_global_after operations bound⟩
  · intro scopes operations balanced ended
    constructor
    · obtain ⟨_, spares⟩ := exists_spares_of_balanced balanced scopes ""
      exact spares.size
    · intro name
      obtain ⟨_, spares⟩ := exists_spares_of_balanced balanced scopes name
      refine ⟨spares.unbound, ?_⟩
      intro value found undeclared
      exact (spares.visible value (by simpa using undeclared) rfl found).2

theorem names_mean_nearest_bindings_bracket :
    let scopes : Scopes := { current := [("x", .none)], outer := [[("x", .none), ("y", .none)]] }
    let operations : List Operation := [.assign "y" (.text "\"1\""), .beginImport "unit", .push,
      .declare "x" (.text "\"2\""), .assign "z" .none, .pop, .assign "y" (.text "\"3\"")]
    let ended := (after operations scopes.push).pop
    Balanced operations ∧ scopes.global.binds "y" = true ∧
      (after operations scopes).global.binds "y" = true ∧
      scopes.get? "y" = some .none ∧ (∀ operation ∈ operations, ¬operation.Declares "y") ∧
      ended.get? "y" = some (.text "\"3\"") ∧
      scopes.get? "z" = none ∧ ended.get? "z" = none := by
  intro scopes operations ended
  have balanced : Balanced operations := rfl
  have undeclared : ∀ operation ∈ operations, ¬operation.Declares "y" := by
    simp [operations, Operation.Declares]
  obtain ⟨-, kept, -, bracket⟩ := names_mean_nearest_bindings
  have names := (bracket scopes operations balanced).2
  exact ⟨balanced, rfl, (kept scopes operations).2 "y" rfl, rfl, undeclared,
    (names "y").2 .none rfl undeclared, rfl, (names "z").1 rfl⟩

end Easel.Scopes
