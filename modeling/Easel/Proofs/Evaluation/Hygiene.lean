import Easel.Proofs.Evaluation.Compatibility

/-!
Evaluation leaves the scopes in order. However a piece of evaluation ends, with a value, a
signal or a failure, the frames are as many as before, the outer ones bind the names they
bound, the innermost one has lost none, and the imports in course are those of the start. A
run that ends by itself in no such way, because it crashes, pauses or is exhausted, stands
somewhere in between; there it is only said that no unit is being imported twice.
-/

namespace Easel.Evaluation

open EvalM

variable {α β : Type}

/-- The end of a run that began with the scopes `before`. -/
def Leaves (relation : Scopes → Scopes → Prop) (before : Scopes) :
    EStateM.Result Stop Machine α → Prop
  | .ok _ after => relation before after.scopes
  | .error (.failure _) after => relation before after.scopes
  | .error (.paused moment) after => before.importing.Nodup →
      moment.scopes.importing.Nodup ∧ after.scopes.importing.Nodup
  | .error _ after => before.importing.Nodup → after.scopes.importing.Nodup

def Leaving (relation : Scopes → Scopes → Prop) (action : EvalM α) : Prop :=
  ∀ context machine, Leaves relation machine.scopes (action context machine)

abbrev Hygienic (action : EvalM α) : Prop :=
  Leaving Scopes.Keeps action

theorem Leaves.weaken {before : Scopes} {result : EStateM.Result Stop Machine α}
    (left : Leaves Scopes.Restores before result) : Leaves Scopes.Keeps before result := by
  match result with
  | .ok _ _ => exact left.toKeeps
  | .error (.failure _) _ => exact left.toKeeps
  | .error (.paused _) _ => exact left
  | .error .crash _ => exact left
  | .error .exhausted _ => exact left

theorem Leaves.after {before middle : Scopes} {result : EStateM.Result Stop Machine α}
    (kept : Scopes.Keeps before middle) (left : Leaves Scopes.Keeps middle result) :
    Leaves Scopes.Keeps before result := by
  have distinctAfter : before.importing.Nodup → middle.importing.Nodup := by
    intro distinct
    rw [kept.importing]
    exact distinct
  match result with
  | .ok _ _ => exact kept.trans left
  | .error (.failure _) _ => exact kept.trans left
  | .error (.paused _) _ => exact fun distinct => left (distinctAfter distinct)
  | .error .crash _ => exact fun distinct => left (distinctAfter distinct)
  | .error .exhausted _ => exact fun distinct => left (distinctAfter distinct)

theorem Hygienic.bind {action : EvalM α} {next : α → EvalM β} (first : Hygienic action)
    (second : ∀ value, Hygienic (next value)) : Hygienic (action >>= next) := by
  intro context machine
  have left := first context machine
  rw [bind_run]
  cases ended : action context machine with
  | ok value middle =>
      rw [ended] at left
      exact .after left (second value context middle)
  | error stop middle =>
      rw [ended] at left
      cases stop <;> exact left

theorem hygienic_pure (value : α) : Hygienic (pure value : EvalM α) := by
  intro context machine
  exact .refl machine.scopes

theorem hygienic_throw (stop : Stop) (unpaused : ∀ moment, stop ≠ .paused moment) :
    Hygienic (throw stop : EvalM α) := by
  intro context machine
  cases stop with
  | failure cause => exact Scopes.Keeps.refl machine.scopes
  | crash => exact fun distinct => distinct
  | exhausted => exact fun distinct => distinct
  | paused moment => exact absurd rfl (unpaused moment)

theorem hygienic_observe (activity : Activity) : Hygienic (observe activity) := by
  intro context machine
  rcases observe_cases activity context machine with passed | ⟨moment, shown, paused⟩
  · rw [passed]
    exact Scopes.Keeps.refl machine.scopes
  · rw [paused]
    intro distinct
    exact ⟨shown ▸ distinct, distinct⟩

theorem hygienic_modifyScopes {change : Scopes → Scopes}
    (keeps : ∀ scopes, Scopes.Keeps scopes (change scopes)) : Hygienic (modifyScopes change) := by
  intro context machine
  exact keeps machine.scopes

theorem hygienic_writeText (text : String) : Hygienic (writeText text) := by
  intro context machine
  rw [writeText, get_bind_run]
  rcases machine.output.write text with ⟨output, _ | fault⟩
  · exact Scopes.Keeps.refl machine.scopes
  · exact Scopes.Keeps.refl machine.scopes

theorem hygienic_readText : Hygienic readText := by
  intro context machine
  rw [readText, get_bind_run]
  rcases machine.input.readLine with ⟨fault | line, input⟩
  · exact Scopes.Keeps.refl machine.scopes
  · exact Scopes.Keeps.refl machine.scopes

section Brackets

variable {relation : Scopes → Scopes → Prop} {action : EvalM α} {context : Context}
  {machine : Machine}

/-- A moment at the end of a run, if nothing of the run is lost by a pause there. -/
theorem leaves_observe_then {before : Scopes} {last : EvalM α}
    (related : Leaves relation before (last context machine))
    (distinct : before.importing.Nodup → machine.scopes.importing.Nodup) (activity : Activity) :
    Leaves relation before ((do observe activity; last) context machine) := by
  rw [bind_run]
  rcases observe_cases activity context machine with passed | ⟨moment, shown, paused⟩
  · rw [passed]
    exact related
  · rw [paused]
    intro distinctBefore
    have distinctHere := distinct distinctBefore
    exact ⟨shown ▸ distinctHere, distinctHere⟩

/-- Whatever the scopes are changed to on the way in, it is enough that the change on the way
out brings them back. -/
theorem leaves_bracket {within : Scopes → Scopes → Prop} {enter leave : Scopes → Scopes}
    (inside : Context → Context) (acting : Leaving within action)
    (entered : machine.scopes.importing.Nodup → (enter machine.scopes).importing.Nodup)
    (left : ∀ after, within (enter machine.scopes) after →
      relation machine.scopes (leave after) ∧
        (leave after).importing = machine.scopes.importing) :
    Leaves relation machine.scopes (bracket inside enter leave action context machine) := by
  have acted := acting (inside context) { machine with scopes := enter machine.scopes }
  have ended := leaves_observe_then acted id .passing
  rw [bracket]
  cases run : (do observe .passing; action) (inside context)
      { machine with scopes := enter machine.scopes } with
  | ok value after =>
      rw [run] at ended
      obtain ⟨related, importing⟩ := left after.scopes ended
      apply leaves_observe_then
      · exact related
      · exact fun distinct => importing ▸ distinct
  | error stop after =>
      rw [run] at ended
      cases stop with
      | failure cause =>
          obtain ⟨related, importing⟩ := left after.scopes ended
          apply leaves_observe_then
          · exact related
          · exact fun distinct => importing ▸ distinct
      | crash => exact fun distinct => ended (entered distinct)
      | exhausted => exact fun distinct => ended (entered distinct)
      | paused moment => exact fun distinct => ended (entered distinct)

theorem Hygienic.nested (hygienic : Hygienic action) : Hygienic (nested action) := by
  intro context machine
  apply leaves_bracket _ hygienic id
  intro after kept
  exact ⟨kept, kept.importing⟩

theorem Leaving.restores_nested (restoring : Leaving Scopes.Restores action) :
    Leaving Scopes.Restores (nested action) := by
  intro context machine
  apply leaves_bracket _ restoring id
  intro after restored
  exact ⟨restored, restored.importing⟩

theorem Hygienic.called (hygienic : Hygienic action) : Hygienic (called action) := by
  intro context machine
  apply leaves_bracket _ hygienic id
  intro after kept
  exact ⟨kept, kept.importing⟩

theorem Hygienic.restores_framed (hygienic : Hygienic action) :
    Leaving Scopes.Restores (framed action) := by
  intro context machine
  apply leaves_bracket _ hygienic id
  intro after kept
  have restored := Scopes.restores_pop kept
  exact ⟨restored, restored.importing⟩

theorem Hygienic.framed (hygienic : Hygienic action) : Hygienic (framed action) := by
  intro context machine
  exact (hygienic.restores_framed context machine).weaken

theorem Hygienic.leaves_importing (hygienic : Hygienic action) {name : String}
    (fresh : name ∉ machine.scopes.importing) :
    Leaves Scopes.Keeps machine.scopes (importing name action context machine) := by
  apply leaves_bracket _ hygienic
  · intro distinct
    exact List.nodup_cons.mpr ⟨fresh, distinct⟩
  · intro after kept
    have ended := Scopes.keeps_endImport kept
    exact ⟨ended, ended.importing⟩

end Brackets

theorem hygienic_checkCalls : Hygienic checkCalls := by
  intro context machine
  rw [checkCalls, read_bind_run]
  split
  · exact Scopes.Keeps.refl machine.scopes
  · exact Scopes.Keeps.refl machine.scopes

theorem hygienic_load (kind : Source.ImportKind) (name : String) : Hygienic (load kind name) := by
  intro context machine
  rw [load_run]
  split
  · exact Scopes.Keeps.refl machine.scopes
  · exact Scopes.Keeps.refl machine.scopes

/-- The guard against recursive imports is what keeps the imports in course distinct. -/
theorem Hygienic.importingOnce {action : EvalM Unit} (hygienic : Hygienic action) (name : String) :
    Hygienic (importingOnce name action) := by
  intro context machine
  rw [EvalM.importingOnce, get_bind_run]
  split
  · exact Scopes.Keeps.refl machine.scopes
  · next unmarked =>
      have fresh : name ∉ machine.scopes.importing := by
        simpa [Scopes.isImporting] using unmarked
      exact hygienic.leaves_importing fresh

theorem compatible_hygienic : Compatible (fun action _ => Hygienic action) where
  pure := hygienic_pure
  bind := Hygienic.bind
  failure _ := hygienic_throw _ nofun
  crash := hygienic_throw _ nofun
  exhausted := hygienic_throw _ nofun
  observe := hygienic_observe
  get second _ machine := second machine _ machine
  patience _ machine := Scopes.Keeps.refl machine.scopes
  load := hygienic_load
  modifyScopes := hygienic_modifyScopes
  writeText := hygienic_writeText
  readText := hygienic_readText
  checkCalls := hygienic_checkCalls
  nested := Hygienic.nested
  called := Hygienic.called
  framed := Hygienic.framed
  importingOnce name hygienic := hygienic.importingOnce name

abbrev Deeper.Hygienic (deeper : Deeper) : Prop :=
  Deeper.Related (fun action _ => Evaluation.Hygienic action) deeper deeper

theorem hygienic_within (room : Nat) : (within room).Hygienic := by
  induction room with
  | zero =>
      constructor
      · intro node context machine
        exact Scopes.Keeps.refl machine.scopes
      · intro node context machine
        exact Scopes.Keeps.refl machine.scopes
  | succ room induction =>
      constructor
      · intro node
        exact (compatible_hygienic.statement induction node).nested
      · intro node
        exact (compatible_hygienic.expression induction node).nested

/-- Some watch pauses the run of an action at this moment. -/
def Occurs (action : EvalM α) (context : Context) (machine : Machine) (moment : Moment) : Prop :=
  ∃ watch after, action { context with watch := some watch } machine = .error (.paused moment) after

/-- The statements that run in a frame of their own as a whole. -/
def HasOwnFrame : Statement → Prop
  | .block _ | .whileLoop .. | .forLoop .. => True
  | _ => False

theorem Leaves.of_endsIn {relation : Scopes → Scopes → Prop} {before : Scopes}
    {result : EStateM.Result Stop Machine α} {after : Machine}
    (left : Leaves relation before result) (ends : EndsIn result after) :
    relation before after.scopes := by
  rcases ends with ⟨value, rfl⟩ | ⟨cause, rfl⟩
  · exact left
  · exact left

theorem Hygienic.distinct_of_occurs {action : EvalM α} (hygienic : Hygienic action)
    {context : Context} {machine : Machine} (distinct : machine.scopes.importing.Nodup)
    {moment : Moment} (occurs : Occurs action context machine moment) :
    moment.scopes.importing.Nodup := by
  obtain ⟨watch, after, paused⟩ := occurs
  have left := hygienic { context with watch := some watch } machine
  rw [paused] at left
  exact (left distinct).1

theorem restores_statement {deeper : Deeper} (hygienic : deeper.Hygienic) {node : Statement}
    (own : HasOwnFrame node) : Leaving Scopes.Restores (statement deeper node) := by
  cases node with
  | block body =>
      exact Hygienic.restores_framed (compatible_hygienic.statements hygienic .none body)
  | whileLoop condition body =>
      intro context machine
      have rounds := compatible_hygienic.roundsWhile hygienic condition body none context.patience
      exact Hygienic.restores_framed rounds context machine
  | forLoop start condition step body =>
      intro context machine
      have loop := compatible_hygienic.forLoop hygienic start condition step body context.patience
      exact Hygienic.restores_framed loop context machine
  | _ => exact own.elim

theorem restores_statementWithin {room : Nat} {node : Statement} (own : HasOwnFrame node) :
    Leaving Scopes.Restores (statementWithin room node) := by
  cases room with
  | zero =>
      intro context machine
      exact Scopes.Restores.refl machine.scopes
  | succ room => exact (restores_statement (hygienic_within room) own).restores_nested

/-- What is promised of the run of one piece of evaluation. -/
structure Orderly (action : EvalM α) (context : Context) (machine : Machine) : Prop where
  kept : ∀ after, EndsIn (action context machine) after → machine.scopes.Keeps after.scopes
  distinct : machine.scopes.importing.Nodup →
    ∀ moment, Occurs action context machine moment → moment.scopes.importing.Nodup
  stopped : machine.scopes.importing.Nodup →
    ∀ stop after, action context machine = .error stop after → after.scopes.importing.Nodup

theorem Hygienic.orderly {action : EvalM α} (hygienic : Hygienic action) (context : Context)
    (machine : Machine) : Orderly action context machine := by
  refine ⟨?_, ?_, ?_⟩
  · intro after ends
    exact (hygienic context machine).of_endsIn ends
  · intro distinct moment occurs
    exact hygienic.distinct_of_occurs distinct occurs
  · intro distinct stop after stopped
    have left := hygienic context machine
    rw [stopped] at left
    cases stop with
    | failure cause => exact left.importing ▸ distinct
    | crash => exact left distinct
    | exhausted => exact left distinct
    | paused moment => exact (left distinct).2

theorem evaluation_keeps_scopes_in_order (room : Nat) (context : Context) (machine : Machine) :
    (∀ node : Expression, Orderly (expressionWithin room node) context machine) ∧
    ∀ node : Statement, Orderly (statementWithin room node) context machine ∧
      ∀ after, HasOwnFrame node → EndsIn (statementWithin room node context machine) after →
        machine.scopes.Restores after.scopes := by
  have hygienic := hygienic_within room
  constructor
  · intro node
    exact (hygienic.expression node).orderly context machine
  · intro node
    refine ⟨(hygienic.statement node).orderly context machine, ?_⟩
    intro after own ends
    exact (restores_statementWithin own context machine).of_endsIn ends

theorem evaluation_keeps_scopes_in_order_import :
    let context : Context :=
      { limits := {}, loader := .ofUnits [("unit", "y = x; error(\"stop\");")], patience := 4 }
    let machine : Machine :=
      { scopes := { current := [("x", .none)], outer := [[("y", .none)]], importing := ["main"] } }
    let node : Statement := .block [.expression (.call "import"
      [.literal (.text "\"LIB\""), .literal (.text "\"unit\"")])]
    HasOwnFrame node ∧ ∃ after, EndsIn (statementWithin 9 node context machine) after ∧
      machine.scopes.Restores after.scopes := by
  intro context machine node
  have ends : ∃ after, EndsIn (statementWithin 9 node context machine) after := by
    decide +kernel
  obtain ⟨after, ends⟩ := ends
  have restored := (evaluation_keeps_scopes_in_order 9 context machine).2 node
  exact ⟨trivial, after, ends, restored.2 after trivial ends⟩

end Easel.Evaluation
