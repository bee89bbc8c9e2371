import Easel.Proofs.Evaluation.Hygiene

/-!
A crash has one cause. A run that would crash is caught by a watch for operations that do, and
pauses where an item of something empty is asked for at a position that is no number; any other run
goes under that watch as it goes without. What the trees in reach satisfy is known all along, so
that a run which is exhausted can be told to have come to a loop.
-/

namespace Easel.Evaluation

open EvalM

variable {trait : Trait} {α β : Type} [HoldsTrees α] [HoldsTrees β]

/-- An operation is about to crash. -/
def Crashes (moment : Moment) : Prop :=
  ∃ left right, moment.activity = .operating .index left right ∧ left.MissesItem right

open Classical in
noncomputable def alarmed (context : Context) : Context :=
  { context with watch := some fun moment => decide (Crashes moment) }

/-- How a run ends, and how the same run ends with a watch for crashes: in the same way, unless
it crashes. -/
inductive Ends (trait : Trait) :
    EStateM.Result Stop Machine α → EStateM.Result Stop Machine α → Prop
  | returned (result : α) (after : Machine) (every : HoldsTrees.Every trait result)
      (holds : after.scopes.Holds trait) : Ends trait (.ok result after) (.ok result after)
  | failed (cause : Failure) (after : Machine) (holds : after.scopes.Holds trait) :
      Ends trait (.error (.failure cause) after) (.error (.failure cause) after)
  | exhausted (after : Machine) (allowed : AllowsRounds trait) :
      Ends trait (.error .exhausted after) (.error .exhausted after)
  | crashed (moment : Moment) (after paused : Machine) (crashes : Crashes moment) :
      Ends trait (.error .crash after) (.error (.paused moment) paused)

/-- With a watch for crashes the second action ends as the first does without one. -/
def Ending (trait : Trait) (action watched : EvalM α) : Prop :=
  ∀ context machine, context.watch = none → context.loader.Every trait →
    machine.scopes.Holds trait →
      Ends trait (action context machine) (watched (alarmed context) machine)

theorem Ending.bind {action watched : EvalM α} {next watchedNext : α → EvalM β}
    (first : Ending trait action watched)
    (second : ∀ result, HoldsTrees.Every trait result →
      Ending trait (next result) (watchedNext result)) :
    Ending trait (action >>= next) (watched >>= watchedNext) := by
  intro context machine unwatched loads holds
  rw [bind_run, bind_run]
  have ended := first context machine unwatched loads holds
  generalize action context machine = result,
    watched (alarmed context) machine = watchedResult at ended
  cases ended with
  | returned value after every holds => exact second value every context after unwatched loads holds
  | failed cause after holds => exact .failed cause after holds
  | exhausted after allowed => exact .exhausted after allowed
  | crashed moment after paused crashes => exact .crashed moment after paused crashes

theorem ending_pure {result : α} (every : HoldsTrees.Every trait result) :
    Ending trait (pure result) (pure result) := by
  intro context machine _ _ holds
  exact .returned result machine every holds

theorem ending_failure (cause : Failure) :
    Ending trait (throw (.failure cause) : EvalM α) (throw (.failure cause)) := by
  intro context machine _ _ holds
  exact .failed cause machine holds

open Classical in
theorem observe_alarmed_of_calm {context : Context} {machine : Machine} {activity : Activity}
    (calm : ¬Crashes ⟨context.nesting, context.calls, machine.scopes, activity⟩) :
    observe activity (alarmed context) machine = .ok () machine := by
  rw [observe_of_watched rfl]
  exact if_neg fun pauses => calm (of_decide_eq_true pauses)

open Classical in
theorem observe_alarmed_of_crash {context : Context} {machine : Machine} {activity : Activity}
    (crashes : Crashes ⟨context.nesting, context.calls, machine.scopes, activity⟩) :
    observe activity (alarmed context) machine =
      .error (.paused ⟨context.nesting, context.calls, machine.scopes, activity⟩) machine := by
  rw [observe_of_watched rfl]
  exact if_pos (decide_eq_true crashes)

/-- The watch is for operations alone. -/
theorem passing_alarmed (context : Context) (machine : Machine) :
    observe .passing (alarmed context) machine = .ok () machine :=
  observe_alarmed_of_calm fun ⟨_, _, operating, _⟩ => nomatch operating

theorem ending_applying (builtin : Builtin) (arguments : List Value) :
    Ending trait (observe (.applying builtin arguments))
      (observe (.applying builtin arguments)) := by
  intro context machine unwatched _ holds
  rw [observe_of_unwatched unwatched,
    observe_alarmed_of_calm fun ⟨_, _, operating, _⟩ => nomatch operating]
  exact .returned () machine trivial holds

theorem ending_operate (operator : BinaryOperator) {left right : Value}
    (every : left.Every trait) :
    Ending trait (operate operator left right) (operate operator left right) := by
  intro context machine unwatched loads holds
  rw [operate, bind_run, bind_run, observe_of_unwatched unwatched]
  by_cases crashed : Value.binary operator left right = .error .crash
  · obtain ⟨rfl, misses⟩ := Value.binary_eq_crash_iff.mp crashed
    rw [observe_alarmed_of_crash ⟨left, right, rfl, misses⟩, crashed]
    exact .crashed _ machine machine ⟨left, right, rfl, misses⟩
  · have calm : ¬Crashes ⟨context.nesting, context.calls, machine.scopes,
        .operating operator left right⟩ := by
      rintro ⟨_, _, same, misses⟩
      cases same
      exact crashed (Value.binary_eq_crash_iff.mpr ⟨rfl, misses⟩)
    rw [observe_alarmed_of_calm calm]
    cases made : Value.binary operator left right with
    | ok value => exact .returned value machine (Value.every_binary every made) holds
    | error mishap =>
        cases mishap with
        | error cause => exact .failed _ machine holds
        | crash => exact absurd made crashed

theorem ending_modifyScopes {change : Scopes → Scopes}
    (holds : ∀ {scopes}, scopes.Holds trait → (change scopes).Holds trait) :
    Ending trait (modifyScopes change) (modifyScopes change) := by
  intro context machine _ _ held
  exact .returned () _ trivial (holds held)

theorem ending_writeText (text : String) : Ending trait (writeText text) (writeText text) := by
  intro context machine _ _ holds
  rw [writeText, get_bind_run, get_bind_run]
  rcases machine.output.write text with ⟨output, _ | fault⟩
  · exact .returned () _ trivial holds
  · exact .failed _ _ holds

theorem ending_readText : Ending trait readText readText := by
  intro context machine _ _ holds
  rw [readText, get_bind_run, get_bind_run]
  rcases machine.input.readLine with ⟨fault | line, input⟩
  · exact .failed _ _ holds
  · exact .returned _ _ trivial holds

theorem ending_load {next watchedNext : String → EvalM α} (kind : Source.ImportKind) (name : String)
    (second : ∀ source, (∀ program, Program.parse source = .ok program →
      Statement.EveryEach trait program) → Ending trait (next source) (watchedNext source)) :
    Ending trait (load kind name >>= next) (load kind name >>= watchedNext) := by
  intro context machine unwatched loads holds
  rw [load_bind_run, load_bind_run, show (alarmed context).loader = context.loader from rfl]
  cases found : context.loader kind name with
  | ok source =>
      have every := fun program => loads kind name source program found
      exact second source every context machine unwatched loads holds
  | error error => exact .failed _ machine holds

theorem ending_checkCalls : Ending trait checkCalls checkCalls := by
  intro context machine _ _ holds
  change Ends trait ((if context.limits.calls ≤ context.calls then
      fail (.callDepthExceeded context.limits.calls) else Pure.pure ()) context machine)
    ((if context.limits.calls ≤ context.calls then
      fail (.callDepthExceeded context.limits.calls) else Pure.pure ()) (alarmed context) machine)
  split
  · exact .failed _ machine holds
  · exact .returned () machine trivial holds

theorem Ending.bracket {action watched : EvalM α} (ending : Ending trait action watched)
    {inside : Context → Context} {enter leave : Scopes → Scopes}
    (quiet : ∀ context, (inside context).watch = context.watch)
    (alarm : ∀ context, inside (alarmed context) = alarmed (inside context))
    (loader : ∀ context, (inside context).loader = context.loader)
    (entered : ∀ {scopes}, scopes.Holds trait → (enter scopes).Holds trait)
    (left : ∀ {scopes}, scopes.Holds trait → (leave scopes).Holds trait) :
    Ending trait (bracket inside enter leave action) (bracket inside enter leave watched) := by
  intro context machine unwatched loads holds
  have unwatchedInside : (inside context).watch = none := (quiet context).trans unwatched
  have passesInside : ∀ machine,
      observe .passing (inside (alarmed context)) machine = .ok () machine := by
    rw [alarm]
    exact passing_alarmed (inside context)
  rw [bracket_of_unwatched unwatched unwatchedInside,
    bracket_of_passing (passing_alarmed context) passesInside, alarm]
  have ended :=
    ending (inside context) { machine with scopes := enter machine.scopes } unwatchedInside
    ((loader context).symm ▸ loads) (entered holds)
  generalize action (inside context) { machine with scopes := enter machine.scopes } = result,
    watched (alarmed (inside context)) { machine with scopes := enter machine.scopes } =
      watchedResult
    at ended
  cases ended with
  | returned value after every holds => exact .returned value _ every (left holds)
  | failed cause after holds => exact .failed cause _ (left holds)
  | exhausted after allowed => exact .exhausted after allowed
  | crashed moment after paused crashes => exact .crashed moment after paused crashes

theorem Ending.importingOnce {action watched : EvalM Unit} (name : String)
    (ending : Ending trait action watched) :
    Ending trait (importingOnce name action) (importingOnce name watched) := by
  have marked : Ending trait (importing name action) (importing name watched) :=
    ending.bracket (fun _ => rfl) (fun _ => rfl) (fun _ => rfl) id id
  intro context machine unwatched loads holds
  rw [EvalM.importingOnce, EvalM.importingOnce, get_bind_run, get_bind_run]
  split
  · exact .failed _ machine holds
  · exact marked context machine unwatched loads holds

theorem carries_ending (coherent : trait.Coherent) :
    Carries trait (fun machine other => other = machine ∧ machine.scopes.Holds trait)
      (Ending trait) where
  coherent := coherent
  value := by
    rintro machine _ name ⟨rfl, holds⟩ allowed
    exact ⟨rfl, fun _ found => holds.of_get? allowed found⟩
  output := by
    rintro machine _ ⟨rfl, -⟩
    rfl
  pure := ending_pure
  bind := Ending.bind
  get next context machine unwatched loads holds :=
    next machine machine ⟨rfl, holds⟩ context machine unwatched loads holds
  failure _ := ending_failure _
  exhausted allowed _ machine _ _ _ := .exhausted machine allowed
  applying builtin _ _ := ending_applying builtin _
  operate operator _ _ every _ := ending_operate operator every
  patience context machine _ _ holds := .returned context.patience machine trivial holds
  load := ending_load
  assign _ every := ending_modifyScopes fun holds => holds.assign _ every
  define _ every := by
    apply ending_modifyScopes
    intro scopes holds
    split
    · exact holds
    · exact holds.declare _ every
  declareEach each := ending_modifyScopes fun holds =>
    holds.declareEach fun binding member => (each binding member).2
  writeText := ending_writeText
  readText := ending_readText
  checkCalls := ending_checkCalls
  nested ending := ending.bracket (fun _ => rfl) (fun _ => rfl) (fun _ => rfl) id id
  called ending := ending.bracket (fun _ => rfl) (fun _ => rfl) (fun _ => rfl) id id
  framed ending := ending.bracket (fun _ => rfl) (fun _ => rfl) (fun _ => rfl) Scopes.Holds.push
    Scopes.Holds.pop
  importingOnce := Ending.importingOnce

theorem ending_tooDeep : Ending trait (tooDeep : EvalM α) tooDeep := by
  intro context machine _ _ holds
  exact .failed _ machine holds

theorem ends_program (coherent : trait.Coherent) {context : Context}
    (unwatched : context.watch = none) (loads : context.loader.Every trait) {tree : Program}
    (every : Statement.EveryEach trait tree) {machine : Machine}
    (holds : machine.scopes.Holds trait) :
    Ends trait (program tree context machine) (program tree (alarmed context) machine) :=
  (carries_ending coherent).evaluated ending_tooDeep context.limits.evaluation every context machine
    unwatched loads holds

/-- A run that crashes comes to a moment at which an item is missing. -/
theorem exists_crashes_of_crash {context : Context} (unwatched : context.watch = none)
    {tree : Program} {machine after : Machine}
    (crashed : program tree context machine = .error .crash after) :
    ∃ moment, Occurs (program tree) context machine moment ∧ Crashes moment := by
  have ended := ends_program Trait.coherent_any unwatched
    (fun _ _ _ program _ _ => Statement.everyEach_any program) (Statement.everyEach_any tree)
    (fun _ _ _ value _ _ => value.every_any : machine.scopes.Holds .any)
  rw [crashed] at ended
  generalize watched : program tree (alarmed context) machine = watchedResult at ended
  cases ended with
  | crashed moment after paused crashes => exact ⟨moment, ⟨_, paused, watched⟩, crashes⟩

end Easel.Evaluation
