import Easel.Proofs.Evaluation.Following

/-!
Failures that never end a run. No action catches a failure, so a failure ends a run only if some
action of it fails so, and each of the building blocks of evaluation says what it fails with. What
a loader fails with is the host's to say. A failure that comes up neither at an operator nor
elsewhere nor in the loader is one that no run of anything ends by.
-/

namespace Easel.Evaluation

open EvalM

variable {α β : Type} {excused : Source.Loader → Failure → Prop}

/-- No run of the action ends by a failure of this kind. Which failures are meant may depend on the
loader. -/
def Avoids (excused : Source.Loader → Failure → Prop) (action : EvalM α) : Prop :=
  ∀ context machine, ¬EndsBy (excused context.loader) (action context machine)

section Blocks

theorem avoids_pure (value : α) : Avoids excused (pure value : EvalM α) :=
  fun _ machine => not_endsBy_of_returns ⟨value, machine, rfl⟩

theorem avoids_stop {stop : Stop} (other : ∀ cause, stop ≠ .failure cause) :
    Avoids excused (throw stop : EvalM α) :=
  fun _ machine => not_endsBy_of_stopped other machine

theorem avoids_failure {cause : Failure} (other : ∀ loader, ¬excused loader cause) :
    Avoids excused (throw (.failure cause) : EvalM α) :=
  fun context _ ended => other context.loader (endsBy_failure_iff.mp ended)

theorem avoids_fail {error : RuntimeError} (other : ∀ loader, ¬excused loader (.runtime error)) :
    Avoids excused (fail error : EvalM α) :=
  avoids_failure other

theorem Avoids.bind {action : EvalM α} {next : α → EvalM β} (first : Avoids excused action)
    (second : ∀ value, Avoids excused (next value)) : Avoids excused (action >>= next) := by
  intro context machine ended
  have here := first context machine
  rw [bind_run] at ended
  cases result : action context machine with
  | ok value middle =>
      rw [result] at ended
      exact second value context middle ended
  | error stop middle =>
      rw [result] at ended here
      rcases ended with ⟨cause, after, excuse, same⟩
      cases same
      exact here ⟨cause, middle, excuse, rfl⟩

theorem Avoids.discard {action : EvalM α} (avoids : Avoids excused action) :
    Avoids excused (discard action) := by
  change Avoids excused ((fun _ => ()) <$> action)
  rw [map_eq_pure_bind]
  exact avoids.bind fun _ => avoids_pure ()

theorem avoids_get {next : Machine → EvalM α} (avoids : ∀ machine, Avoids excused (next machine)) :
    Avoids excused (get >>= next) :=
  fun context machine => avoids machine context machine

theorem avoids_read {next : Context → EvalM α} (avoids : ∀ context, Avoids excused (next context)) :
    Avoids excused (read >>= next) :=
  fun context machine => avoids context context machine

theorem avoids_observe (activity : Activity) : Avoids excused (observe activity) := by
  intro context machine
  rcases observe_cases activity context machine with passed | ⟨moment, _, paused⟩
  · rw [passed]
    exact not_endsBy_of_returns ⟨(), machine, rfl⟩
  · rw [paused]
    exact not_endsBy_of_stopped (by simp) machine

theorem avoids_modifyScopes (change : Scopes → Scopes) : Avoids excused (modifyScopes change) :=
  fun _ _ => not_endsBy_of_returns ⟨(), _, rfl⟩

theorem avoids_patience : Avoids excused patience :=
  fun context machine => not_endsBy_of_returns ⟨context.patience, machine, rfl⟩

theorem avoids_load (spared : ∀ loader : Source.Loader, loader.Spares (excused loader))
    (kind : Source.ImportKind) (name : String) : Avoids excused (load kind name) := by
  intro context machine
  rw [load_run]
  cases found : context.loader kind name with
  | ok source => exact not_endsBy_of_returns ⟨source, machine, rfl⟩
  | error error =>
      intro ended
      have excuse := endsBy_failure_iff.mp ended
      exact spared context.loader _ ⟨kind, name, error, found, rfl⟩ excuse

theorem avoids_lookup {name : String}
    (other : ∀ loader, ¬excused loader (.runtime (.undefinedIdentifier name))) :
    Avoids excused (lookup name) := by
  apply avoids_get
  intro machine
  split
  · exact avoids_pure _
  · exact avoids_fail other

theorem avoids_operate {operator : BinaryOperator} {left right : Value}
    (other : ∀ loader cause, Value.binary operator left right = .error (.error cause) →
      ¬excused loader (.runtime cause)) : Avoids excused (operate operator left right) := by
  apply (avoids_observe _).bind
  intro _
  cases made : Value.binary operator left right with
  | ok value => exact avoids_pure value
  | error mishap =>
      cases mishap with
      | error cause => exact avoids_fail fun loader => other loader cause made
      | crash => exact avoids_stop (by simp)

theorem avoids_writeText (other : ∀ loader fault, ¬excused loader (.runtime (.channel fault)))
    (text : String) : Avoids excused (writeText text) := by
  apply avoids_get
  intro machine
  rcases machine.output.write text with ⟨output, _ | fault⟩
  · exact fun _ _ => not_endsBy_of_returns ⟨(), _, rfl⟩
  · intro context before
    exact avoids_fail (fun loader => other loader fault) context { machine with output := output }

theorem avoids_readText (other : ∀ loader fault, ¬excused loader (.runtime (.channel fault))) :
    Avoids excused readText := by
  apply avoids_get
  intro machine
  rcases machine.input.readLine with ⟨fault | line, input⟩
  · intro context before
    exact avoids_fail (fun loader => other loader fault) context { machine with input := input }
  · exact fun _ _ => not_endsBy_of_returns ⟨_, _, rfl⟩

/-- What is done on the way into a bracket and out of it does not fail. -/
theorem Avoids.bracket {action : EvalM α} (avoids : Avoids excused action)
    {inside : Context → Context} {enter leave : Scopes → Scopes}
    (loader : ∀ context, (inside context).loader = context.loader) :
    Avoids excused (bracket inside enter leave action) := by
  have watched : ∀ {last : EvalM α}, Avoids excused last →
      Avoids excused (do observe .passing; last) :=
    fun last => (avoids_observe _).bind fun _ => last
  intro context machine
  have here := watched avoids (inside context) { machine with scopes := enter machine.scopes }
  rw [loader] at here
  rw [EvalM.bracket]
  cases result : (do observe .passing; action) (inside context)
      { machine with scopes := enter machine.scopes } with
  | ok value middle => exact watched (avoids_pure value) context _
  | error stop middle =>
      rw [result] at here
      cases stop with
      | failure cause =>
          rw [endsBy_failure_iff] at here
          dsimp only
          rcases observe_throw_cases .passing (.failure cause) context
            { middle with scopes := leave middle.scopes } with passed | ⟨moment, paused⟩
          · rw [passed, endsBy_failure_iff]
            exact here
          · rw [paused]
            exact not_endsBy_of_stopped (by simp) _
      | crash | exhausted | paused moment => exact not_endsBy_of_stopped (by simp) _

end Blocks

section Everywhere

variable (elsewhere : ∀ loader cause, ArisesElsewhere cause → ¬excused loader cause)
include elsewhere

theorem avoids_tooDeep : Avoids excused (tooDeep : EvalM α) :=
  avoids_read fun _ => avoids_fail fun loader => elsewhere loader _ trivial

variable (operating : ∀ loader operator left right cause,
  Value.binary operator left right = .error (.error cause) → ¬excused loader (.runtime cause))
  (spared : ∀ loader : Source.Loader, loader.Spares (excused loader))
include operating spared

/-- Every building block fails with what comes up at an operator or elsewhere, or as the loader
does. -/
theorem carries_avoids : Carries .any Eq (fun action _ => Avoids excused action) where
  coherent := Trait.coherent_any
  admits := Trait.admits_every
  value := by
    rintro machine _ name rfl -
    exact ⟨rfl, fun value _ => value.every_any⟩
  output := by
    rintro machine _ rfl
    rfl
  pure _ := avoids_pure _
  bind first second := first.bind fun value => second value (HoldsTrees.every_any value)
  get avoids := avoids_get fun machine => avoids machine machine rfl
  failure arises := avoids_failure fun loader => elsewhere loader _ arises
  exhausted _ := avoids_stop (by simp)
  applying _ _ _ := avoids_observe _
  operate operator left right _ _ := avoids_operate fun loader => operating loader operator left right
  patience := avoids_patience
  load kind name next := (avoids_load spared kind name).bind fun source =>
    next source fun program _ => Statement.everyEach_any program
  assign _ _ := avoids_modifyScopes _
  define _ _ := avoids_modifyScopes _
  declareEach _ := avoids_modifyScopes _
  writeText := avoids_writeText fun loader _ => elsewhere loader _ trivial
  readText := avoids_readText fun loader _ => elsewhere loader _ trivial
  checkCalls := by
    apply avoids_read
    intro context
    split
    · exact avoids_fail fun loader => elsewhere loader _ trivial
    · exact avoids_pure ()
  nested avoids := avoids.bracket fun _ => rfl
  called avoids := avoids.bracket fun _ => rfl
  framed avoids := avoids.bracket fun _ => rfl
  importingOnce name avoids := by
    apply avoids_get
    intro machine
    split
    · exact avoids_fail fun loader => elsewhere loader _ trivial
    · exact avoids.bracket fun _ => rfl

theorem avoids_within (room : Nat) :
    (∀ node, Avoids excused (statementWithin room node)) ∧
      ∀ node, Avoids excused (expressionWithin room node) := by
  have carries := carries_avoids elsewhere operating spared
  have carried := carries.layered.carried_within (fun avoids => avoids.bracket fun _ => rfl)
    (avoids_tooDeep elsewhere) room
  exact ⟨fun node => carried.statement node.every_any, fun node => carried.expression node.every_any⟩

theorem avoids_program (tree : Program) : Avoids excused (program tree) := by
  have carries := carries_avoids elsewhere operating spared
  apply avoids_read
  intro context
  exact carries.evaluated (avoids_tooDeep elsewhere) context.limits.evaluation
    (Statement.everyEach_any tree)

end Everywhere

end Easel.Evaluation
