import Easel.Evaluation

/-!
How actions of the machine run, step by step: what an action does in front of another, and
what watching and bracketing add to it. How a run ends can be decided by running it, for the
ends that are asked about.
-/

namespace Easel.Evaluation

open EvalM

variable {α β : Type}

/-- A run that ends by itself, with a result or with a failure. -/
def EndsIn (result : EStateM.Result Stop Machine α) (after : Machine) : Prop :=
  (∃ value, result = .ok value after) ∨ ∃ cause, result = .error (.failure cause) after

section Outcomes

variable (kind : α → Prop) [DecidablePred kind]

instance decidableOk (result : Except β α) : Decidable (∃ value, result = .ok value) :=
  match result with
  | .ok value => isTrue ⟨value, rfl⟩
  | .error _ => isFalse (by simp)

instance decidableOkAnd (result : Except β α) :
    Decidable (∃ value, result = .ok value ∧ kind value) :=
  match result with
  | .ok value => decidable_of_iff (kind value) (by simp)
  | .error _ => isFalse (by simp)

instance decidableOkImp (result : Except β α) :
    Decidable (∀ value, result = .ok value → kind value) :=
  match result with
  | .ok value => decidable_of_iff (kind value) (by simp)
  | .error _ => isTrue nofun

instance decidableOkBlock (result : Except SyntaxError Program) :
    Decidable (∃ body, result = .ok [Statement.block body]) :=
  match result with
  | .ok [.block body] => isTrue ⟨body, rfl⟩
  | .ok [] | .ok (_ :: _ :: _) | .error _ => isFalse (by simp)
  | .ok [.conditional ..] | .ok [.whileLoop ..] | .ok [.forLoop ..] | .ok [.foreachLoop ..]
  | .ok [.repeatLoop ..] | .ok [.definition _] | .ok [.ret _] | .ok [.breakLoop]
  | .ok [.continueLoop] | .ok [.expression _] | .ok [.empty] => isFalse (by simp)

instance decidableError [DecidableEq β] (result : Except β α) (error : β) :
    Decidable (result = .error error) :=
  match result with
  | .error other => decidable_of_iff (other = error) (by simp)
  | .ok _ => isFalse nofun

instance decidableFailure (result : Except Stop α) (cause : Failure) :
    Decidable (result = .error (.failure cause)) :=
  match result with
  | .error (.failure other) => decidable_of_iff (other = cause) (by simp)
  | .ok _ | .error .crash | .error .exhausted | .error (.paused _) => isFalse (by simp)

instance decidableCrash (ended : Except Stop α × Machine) :
    Decidable (∃ after, ended = (.error .crash, after)) :=
  match ended with
  | (.error .crash, after) => isTrue ⟨after, rfl⟩
  | (.ok _, _) | (.error (.failure _), _) | (.error .exhausted, _) | (.error (.paused _), _) =>
      isFalse (by simp)

instance decidableReturns (result : EStateM.Result Stop Machine α) :
    Decidable (∃ value after, result = .ok value after) :=
  match result with
  | .ok value after => isTrue ⟨value, after, rfl⟩
  | .error _ _ => isFalse (by simp)

instance decidableNormal (result : EStateM.Result Stop Machine Flow) :
    Decidable (∃ value after, result = .ok (.normal value) after) :=
  match result with
  | .ok (.normal value) after => isTrue ⟨value, after, rfl⟩
  | .ok (.ret _) _ | .ok .breakLoop _ | .ok .continueLoop _ | .error _ _ => isFalse (by simp)

instance decidableFails (result : EStateM.Result Stop Machine α) (cause : Failure) :
    Decidable (∃ after, result = .error (.failure cause) after) :=
  match result with
  | .error (.failure other) after => decidable_of_iff (other = cause) (by simp)
  | .ok _ _ | .error .crash _ | .error .exhausted _ | .error (.paused _) _ => isFalse (by simp)

instance decidablePauses (result : EStateM.Result Stop Machine α) (moments : Moment → Prop)
    [DecidablePred moments] :
    Decidable (∃ moment after, result = .error (.paused moment) after ∧ moments moment) :=
  match result with
  | .error (.paused moment) after => decidable_of_iff (moments moment) (by simp)
  | .ok _ _ | .error (.failure _) _ | .error .crash _ | .error .exhausted _ =>
      isFalse (by simp)

instance decidableEndsIn (result : EStateM.Result Stop Machine α) :
    Decidable (∃ after, EndsIn result after) :=
  match result with
  | .ok value after => isTrue ⟨after, .inl ⟨value, rfl⟩⟩
  | .error (.failure cause) after => isTrue ⟨after, .inr ⟨cause, rfl⟩⟩
  | .error .crash _ | .error .exhausted _ | .error (.paused _) _ => isFalse (by simp [EndsIn])

end Outcomes

theorem bind_run (action : EvalM α) (next : α → EvalM β) (context : Context) (machine : Machine) :
    (action >>= next) context machine =
      match action context machine with
      | .ok value middle => next value context middle
      | .error stop middle => .error stop middle := by
  change EStateM.bind (action context) (fun value => next value context) machine = _
  unfold EStateM.bind
  cases action context machine <;> rfl

theorem get_bind_run (next : Machine → EvalM β) (context : Context) (machine : Machine) :
    (get >>= next) context machine = next machine context machine := rfl

theorem read_bind_run (next : Context → EvalM β) (context : Context) (machine : Machine) :
    (read >>= next) context machine = next context context machine := rfl

theorem load_run (kind : Source.ImportKind) (name : String) (context : Context)
    (machine : Machine) :
    load kind name context machine =
      match context.loader kind name with
      | .ok source => .ok source machine
      | .error error => .error (.failure (.runtime error)) machine := by
  rw [load, read_bind_run]
  cases context.loader kind name with
  | ok source => rfl
  | error error => rfl

theorem load_bind_run (kind : Source.ImportKind) (name : String) (next : String → EvalM β)
    (context : Context) (machine : Machine) :
    (load kind name >>= next) context machine =
      match context.loader kind name with
      | .ok source => next source context machine
      | .error error => .error (.failure (.runtime error)) machine := by
  rw [bind_run, load_run]
  cases context.loader kind name with
  | ok source => rfl
  | error error => rfl

/-- Watching changes nothing, and a moment shows the scopes as they stand. -/
theorem observe_cases (activity : Activity) (context : Context) (machine : Machine) :
    observe activity context machine = .ok () machine ∨
      ∃ moment, moment.scopes = machine.scopes ∧
        observe activity context machine = .error (.paused moment) machine := by
  rw [observe, read_bind_run]
  cases context.watch with
  | none => exact .inl rfl
  | some pausesAt =>
      simp only [get_bind_run]
      split
      · exact .inr ⟨_, rfl, rfl⟩
      · exact .inl rfl

theorem observe_of_unwatched {context : Context} (unwatched : context.watch = none)
    (activity : Activity) (machine : Machine) :
    observe activity context machine = .ok () machine := by
  rw [observe, read_bind_run, unwatched]
  rfl

theorem observe_of_watched {context : Context} {pausesAt : Moment → Bool}
    (watched : context.watch = some pausesAt) (activity : Activity) (machine : Machine) :
    observe activity context machine =
      let moment : Moment := ⟨context.nesting, context.calls, machine.scopes, activity⟩
      if pausesAt moment then .error (.paused moment) machine else .ok () machine := by
  rw [observe, read_bind_run, watched]
  simp only [get_bind_run]
  split <;> rfl

theorem observe_throw_cases (activity : Activity) (stop : Stop) (context : Context)
    (machine : Machine) :
    (do observe activity; throw stop : EvalM α) context machine = .error stop machine ∨
      ∃ moment, (do observe activity; throw stop : EvalM α) context machine =
        .error (.paused moment) machine := by
  rw [bind_run]
  rcases observe_cases activity context machine with passed | ⟨moment, _, paused⟩
  · rw [passed]
    exact .inl rfl
  · rw [paused]
    exact .inr ⟨moment, rfl⟩

/-- Where nobody pauses the run, a bracket only changes the scopes on the way in and out. -/
theorem bracket_of_passing {context : Context} {inside : Context → Context}
    (passes : ∀ machine, observe .passing context machine = .ok () machine)
    (passesInside : ∀ machine, observe .passing (inside context) machine = .ok () machine)
    (enter leave : Scopes → Scopes) (action : EvalM α) (machine : Machine) :
    bracket inside enter leave action context machine =
      match action (inside context) { machine with scopes := enter machine.scopes } with
      | .ok value after => .ok value { after with scopes := leave after.scopes }
      | .error (.failure cause) after =>
          .error (.failure cause) { after with scopes := leave after.scopes }
      | .error stop after => .error stop after := by
  rw [bracket, bind_run, passesInside]
  dsimp only
  cases action (inside context) { machine with scopes := enter machine.scopes } with
  | ok value after =>
      dsimp only
      rw [bind_run, passes]
      rfl
  | error stop after =>
      cases stop with
      | failure cause =>
          dsimp only
          rw [bind_run, passes]
          rfl
      | crash => rfl
      | exhausted => rfl
      | paused moment => rfl

theorem bracket_of_unwatched {context : Context} (unwatched : context.watch = none)
    {inside : Context → Context} (unwatchedInside : (inside context).watch = none)
    (enter leave : Scopes → Scopes) (action : EvalM α) (machine : Machine) :
    bracket inside enter leave action context machine =
      match action (inside context) { machine with scopes := enter machine.scopes } with
      | .ok value after => .ok value { after with scopes := leave after.scopes }
      | .error (.failure cause) after =>
          .error (.failure cause) { after with scopes := leave after.scopes }
      | .error stop after => .error stop after :=
  bracket_of_passing (observe_of_unwatched unwatched _) (observe_of_unwatched unwatchedInside _)
    enter leave action machine

end Easel.Evaluation
