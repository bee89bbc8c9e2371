import Easel.Proofs.Evaluation.Compatibility

/-!
Runs that only some failures can tell apart. A context says how deep a run stands and how deep it
may go, and no action looks at that other than to fail. Two contexts that differ in no more than this
make for one and the same run, step by step, until it fails for want of depth: no action catches a
failure, so what has ended a part of a run has ended the run.
-/

namespace Easel.Evaluation

open EvalM

variable {α β : Type} {like : Context → Context → Prop} {excused : Failure → Prop}

def EndsBy (excused : Failure → Prop) (result : EStateM.Result Stop Machine α) : Prop :=
  ∃ cause after, excused cause ∧ result = .error (.failure cause) after

theorem not_endsBy_of_returns {result : EStateM.Result Stop Machine α}
    (returns : ∃ value after, result = .ok value after) : ¬EndsBy excused result := by
  intro ended
  rcases returns with ⟨value, after, returned⟩
  rcases ended with ⟨cause, stopped, _, failed⟩
  rw [returned] at failed
  cases failed

theorem not_endsBy_of_stopped {stop : Stop} (other : ∀ cause, stop ≠ .failure cause)
    (after : Machine) : ¬EndsBy excused (.error stop after : EStateM.Result Stop Machine α) := by
  intro ended
  rcases ended with ⟨cause, left, _, failed⟩
  cases failed
  exact other cause rfl

theorem endsBy_failure_iff {cause : Failure} {after : Machine} :
    EndsBy excused (.error (.failure cause) after : EStateM.Result Stop Machine α) ↔
      excused cause := by
  constructor
  · intro ended
    rcases ended with ⟨other, left, excuse, same⟩
    cases same
    exact excuse
  · exact fun excuse => ⟨cause, after, excuse, rfl⟩

theorem EndsBy.bind {action : EvalM α} {context : Context} {machine : Machine}
    (ended : EndsBy excused (action context machine)) (next : α → EvalM β) :
    EndsBy excused ((action >>= next) context machine) := by
  rcases ended with ⟨cause, after, excuse, failed⟩
  rw [bind_run, failed]
  exact ⟨cause, after, excuse, rfl⟩

/-- The second action does what the first does, under a context like that of the first, if no
excused failure ends the first. -/
def Follows (like : Context → Context → Prop) (excused : Failure → Prop)
    (action follower : EvalM α) : Prop :=
  ∀ context other, like context other → ∀ machine,
    EndsBy excused (action context machine) ∨ follower other machine = action context machine

/-- What like contexts differ in shows in excused failures only. Nobody watches: a watched run could
pause on the way out of a run that a failure has ended. -/
structure Excuses (like : Context → Context → Prop) (excused : Failure → Prop) : Prop where
  unwatched : ∀ {context other}, like context other → context.watch = none ∧ other.watch = none
  patience : ∀ {context other}, like context other → other.patience = context.patience
  loader : ∀ {context other}, like context other → other.loader = context.loader
  levels : ∀ limit, excused (.runtime (.evaluationDepthExceeded limit))
  checkCalls : Follows like excused checkCalls checkCalls
  nested : ∀ {context other}, like context other →
    like { context with nesting := context.nesting + 1 } { other with nesting := other.nesting + 1 }
  called : ∀ {context other}, like context other →
    like { context with calls := context.calls + 1 } { other with calls := other.calls + 1 }

theorem follows_of_eq {action : EvalM α}
    (same : ∀ {context other}, like context other → ∀ machine,
      action other machine = action context machine) : Follows like excused action action := by
  intro context other alike machine
  exact .inr (same alike machine)

theorem Follows.bind {action follower : EvalM α} {next nextFollower : α → EvalM β}
    (first : Follows like excused action follower)
    (second : ∀ value, Follows like excused (next value) (nextFollower value)) :
    Follows like excused (action >>= next) (follower >>= nextFollower) := by
  intro context other alike machine
  rcases first context other alike machine with ended | same
  · exact .inl (ended.bind next)
  · rw [bind_run, bind_run, same]
    cases action context machine with
    | ok value middle => exact second value context other alike middle
    | error stop middle => exact .inr rfl

namespace Excuses

variable (excuses : Excuses like excused)
include excuses

/-- What an excused failure has ended stays ended on the way out of a bracket. -/
theorem bracket {inside : Context → Context}
    (entered : ∀ {context other}, like context other → like (inside context) (inside other))
    (enter leave : Scopes → Scopes) {action follower : EvalM α}
    (follows : Follows like excused action follower) :
    Follows like excused (bracket inside enter leave action)
      (bracket inside enter leave follower) := by
  intro context other alike machine
  have unwatched := excuses.unwatched alike
  have unwatchedInside := excuses.unwatched (entered alike)
  rw [bracket_of_unwatched unwatched.1 unwatchedInside.1,
    bracket_of_unwatched unwatched.2 unwatchedInside.2]
  rcases follows _ _ (entered alike) { machine with scopes := enter machine.scopes } with
    ⟨cause, after, excuse, failed⟩ | same
  · left
    rw [failed]
    exact ⟨cause, { after with scopes := leave after.scopes }, excuse, rfl⟩
  · right
    rw [same]

theorem importingOnce {action follower : EvalM Unit} (name : String)
    (follows : Follows like excused action follower) :
    Follows like excused (importingOnce name action) (importingOnce name follower) := by
  intro context other alike machine
  rw [EvalM.importingOnce, EvalM.importingOnce, get_bind_run, get_bind_run]
  split
  · exact .inr rfl
  · exact excuses.bracket id _ _ follows context other alike machine

theorem compatible : Compatible (Follows like excused) where
  pure _ := follows_of_eq fun _ _ => rfl
  bind := Follows.bind
  failure _ := follows_of_eq fun _ _ => rfl
  crash := follows_of_eq fun _ _ => rfl
  exhausted := follows_of_eq fun _ _ => rfl
  observe activity := follows_of_eq fun alike machine => by
    have unwatched := excuses.unwatched alike
    rw [observe_of_unwatched unwatched.1, observe_of_unwatched unwatched.2]
  get second context other alike machine := second machine context other alike machine
  patience := follows_of_eq fun {context other} alike machine => by
    change EStateM.Result.ok other.patience machine = .ok context.patience machine
    rw [excuses.patience alike]
  load kind name := follows_of_eq fun alike machine => by
    rw [load_run, load_run, excuses.loader alike]
  modifyScopes _ := follows_of_eq fun _ _ => rfl
  writeText text := follows_of_eq fun _ machine => by
    rw [writeText, get_bind_run, get_bind_run]
    rcases machine.output.write text with ⟨output, _ | fault⟩ <;> rfl
  readText := follows_of_eq fun _ machine => by
    rw [readText, get_bind_run, get_bind_run]
    rcases machine.input.readLine with ⟨fault | line, input⟩ <;> rfl
  checkCalls := excuses.checkCalls
  nested := excuses.bracket excuses.nested _ _
  called := excuses.bracket excuses.called _ _
  framed := excuses.bracket id _ _
  importingOnce := excuses.importingOnce

theorem tooDeep (follower : EvalM α) : Follows like excused tooDeep follower := by
  intro context other alike machine
  left
  exact ⟨_, machine, excuses.levels context.limits.evaluation, rfl⟩

theorem within {room larger : Nat} (atMost : room ≤ larger) :
    Deeper.Related (Follows like excused) (within room) (within larger) := by
  induction room generalizing larger with
  | zero => exact ⟨fun _ => excuses.tooDeep _, fun _ => excuses.tooDeep _⟩
  | succ room induction =>
      obtain ⟨others, rfl⟩ : ∃ others, larger = others + 1 := ⟨larger - 1, by omega⟩
      have deeper := induction (Nat.le_of_succ_le_succ atMost)
      constructor
      · intro node
        exact excuses.compatible.nested (excuses.compatible.statement deeper node)
      · intro node
        exact excuses.compatible.nested (excuses.compatible.expression deeper node)

end Excuses

end Easel.Evaluation
