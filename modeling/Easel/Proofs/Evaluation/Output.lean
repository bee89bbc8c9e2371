import Easel.Proofs.Evaluation.Compatibility

/-!
What evaluation does to the output. Writing is the only action that touches it, and writing adds
bytes at the end: what has been written stays written, and a run changes neither how much the sink
takes nor whether its flushes fail. Every other action neither changes the output nor depends on it.
-/

namespace Easel

/-- The second sink is the first one after some more bytes. -/
def Sink.Extends (sink later : Sink) : Prop :=
  ∃ more, later = { sink with written := sink.written ++ more }

namespace Sink

theorem Extends.refl (sink : Sink) : sink.Extends sink :=
  ⟨ByteArray.empty, by rw [ByteArray.append_empty]⟩

theorem Extends.trans {sink middle later : Sink} (first : sink.Extends middle)
    (second : middle.Extends later) : sink.Extends later := by
  rcases first with ⟨more, same⟩
  rcases second with ⟨others, sameAgain⟩
  refine ⟨more ++ others, ?_⟩
  rw [sameAgain, same, ByteArray.append_assoc]

theorem Extends.capacity_eq {sink later : Sink} (extended : sink.Extends later) :
    later.capacity = sink.capacity := by
  rcases extended with ⟨more, same⟩
  rw [same]

theorem Extends.flushFails_eq {sink later : Sink} (extended : sink.Extends later) :
    later.flushFails = sink.flushFails := by
  rcases extended with ⟨more, same⟩
  rw [same]

theorem extends_write (sink : Sink) (text : String) : sink.Extends (sink.write text).1 := by
  unfold write
  dsimp only
  split
  · exact ⟨_, rfl⟩
  · exact ⟨_, rfl⟩

end Sink

namespace Evaluation

open EvalM

variable {α β : Type}

/-- The machine that a run leaves. -/
def final : EStateM.Result Stop Machine α → Machine
  | .ok _ after | .error _ after => after

/-- The end of a run, with another output in its place. -/
def withOutput (output : Sink) : EStateM.Result Stop Machine α → EStateM.Result Stop Machine α
  | .ok value after => .ok value { after with output := output }
  | .error stop after => .error stop { after with output := output }

/-- An action that has nothing to do with the output. -/
def Quiet (action : EvalM α) : Prop :=
  ∀ context machine output,
    action context { machine with output := output } = withOutput output (action context machine)

theorem quiet_pure (value : α) : Quiet (pure value : EvalM α) := fun _ _ _ => rfl

theorem quiet_throw (stop : Stop) : Quiet (throw stop : EvalM α) := fun _ _ _ => rfl

theorem quiet_patience : Quiet patience := fun _ _ _ => rfl

theorem quiet_load (kind : Source.ImportKind) (name : String) : Quiet (load kind name) := by
  intro context machine output
  rw [load_run, load_run]
  split <;> rfl

theorem quiet_tooDeep : Quiet (tooDeep : EvalM α) := fun _ _ _ => rfl

theorem quiet_modifyScopes (change : Scopes → Scopes) : Quiet (modifyScopes change) :=
  fun _ _ _ => rfl

/-- A moment does not show the output. -/
theorem quiet_observe (activity : Activity) : Quiet (observe activity) := by
  intro context machine output
  cases watched : context.watch with
  | none =>
      rw [observe_of_unwatched watched, observe_of_unwatched watched]
      rfl
  | some pausesAt =>
      rw [observe_of_watched watched, observe_of_watched watched]
      dsimp only
      split <;> rfl

theorem quiet_readText : Quiet readText := by
  intro context machine output
  rw [readText, get_bind_run, get_bind_run]
  rcases machine.input.readLine with ⟨fault | line, input⟩ <;> rfl

theorem quiet_checkCalls : Quiet checkCalls := by
  intro context machine output
  rw [checkCalls, read_bind_run, read_bind_run]
  split <;> rfl

/-- An action that does nothing to the output but add to it. -/
def Appends (action : EvalM α) : Prop :=
  ∀ context (machine : Machine), machine.output.Extends (final (action context machine)).output

theorem Quiet.output_final {action : EvalM α} (quiet : Quiet action) (context : Context)
    (machine : Machine) : (final (action context machine)).output = machine.output := by
  have same := quiet context machine machine.output
  cases ended : action context machine with
  | ok value after | error stop after =>
      rw [ended] at same
      exact congrArg (fun result => (final result).output) same

theorem Quiet.appends {action : EvalM α} (quiet : Quiet action) : Appends action := by
  intro context machine
  rw [quiet.output_final]
  exact .refl machine.output

theorem Appends.bind {action : EvalM α} {next : α → EvalM β} (first : Appends action)
    (second : ∀ value, Appends (next value)) : Appends (action >>= next) := by
  intro context machine
  have added := first context machine
  rw [bind_run]
  cases ended : action context machine with
  | ok value middle =>
      rw [ended] at added
      exact added.trans (second value context middle)
  | error stop middle =>
      rw [ended] at added
      exact added

theorem Appends.bracket {action : EvalM α} (inside : Context → Context)
    (enter leave : Scopes → Scopes) (appends : Appends action) :
    Appends (bracket inside enter leave action) := by
  intro context machine
  have observed : Appends (observe .passing) := (quiet_observe .passing).appends
  have entered := observed.bind (fun _ => appends) (inside context)
    { machine with scopes := enter machine.scopes }
  rw [EvalM.bracket]
  cases ended : (do observe .passing; action) (inside context)
      { machine with scopes := enter machine.scopes } with
  | ok value after =>
      rw [ended] at entered
      have left := observed.bind (fun _ => (quiet_pure value).appends) context
        { after with scopes := leave after.scopes }
      exact Sink.Extends.trans entered left
  | error stop after =>
      rw [ended] at entered
      cases stop with
      | failure cause =>
          have left := observed.bind
            (fun _ => (quiet_throw (α := α) (Stop.failure cause)).appends) context
            { after with scopes := leave after.scopes }
          exact Sink.Extends.trans entered left
      | _ => exact entered

theorem appends_writeText (text : String) : Appends (writeText text) := by
  intro context machine
  have added := machine.output.extends_write text
  rw [writeText, get_bind_run]
  rcases written : machine.output.write text with ⟨output, _ | fault⟩ <;>
    · rw [written] at added
      exact added

theorem Appends.importingOnce {action : EvalM Unit} (name : String) (appends : Appends action) :
    Appends (importingOnce name action) := by
  intro context machine
  rw [EvalM.importingOnce, get_bind_run]
  split
  · exact (quiet_throw _).appends context machine
  · exact appends.bracket id _ _ context machine

theorem compatible_appends : Compatible (fun action _ => Appends action) where
  pure value := (quiet_pure value).appends
  bind := Appends.bind
  failure _ := (quiet_throw _).appends
  crash := (quiet_throw _).appends
  exhausted := (quiet_throw _).appends
  observe activity := (quiet_observe activity).appends
  get second context machine := second machine context machine
  patience := quiet_patience.appends
  load kind name := (quiet_load kind name).appends
  modifyScopes _ := (quiet_modifyScopes _).appends
  writeText := appends_writeText
  readText := quiet_readText.appends
  checkCalls := quiet_checkCalls.appends
  nested := Appends.bracket _ _ _
  called := Appends.bracket _ _ _
  framed := Appends.bracket _ _ _
  importingOnce := Appends.importingOnce

theorem appends_within (room : Nat) :
    Deeper.Related (fun action _ => Appends action) (within room) (within room) := by
  induction room with
  | zero => exact ⟨fun _ => quiet_tooDeep.appends, fun _ => quiet_tooDeep.appends⟩
  | succ room induction =>
      constructor
      · intro node
        exact (compatible_appends.statement induction node).bracket _ _ _
      · intro node
        exact (compatible_appends.expression induction node).bracket _ _ _

theorem appends_program (tree : Program) : Appends (program tree) := by
  intro context machine
  have statements := compatible_appends.statements (appends_within context.limits.evaluation)
    .none tree
  exact statements.bind (fun flow => compatible_appends.finish flow) context machine

end Evaluation

end Easel
