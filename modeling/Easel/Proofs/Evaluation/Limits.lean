import Easel.Proofs.Evaluation.Following

/-!
The limits on depth cut a run off and do nothing else: a run that no limit cuts off is, step by
step, the run under any higher limits.
-/

namespace Easel.Evaluation

open EvalM

variable {α β : Type}

def IsDepthLimit : Failure → Prop
  | .runtime (.callDepthExceeded _) | .runtime (.evaluationDepthExceeded _) => True
  | _ => False

/-- A limit on depth has ended the run. -/
def CutOff (result : EStateM.Result Stop Machine α) : Prop :=
  ∃ cause after, IsDepthLimit cause ∧ result = .error (.failure cause) after

theorem not_cutOff_of_returns {result : EStateM.Result Stop Machine α}
    (returns : ∃ value after, result = .ok value after) : ¬CutOff result :=
  not_endsBy_of_returns returns

/-- The second context differs from the first in its limits only, and allows as many calls at
least. Nobody watches. -/
structure Loosens (context looser : Context) : Prop where
  calls : context.limits.calls ≤ looser.limits.calls
  unwatched : context.watch = none
  same : looser = { context with limits := looser.limits }

theorem Loosens.nested {context looser : Context} (loosens : Loosens context looser) :
    Loosens { context with nesting := context.nesting + 1 }
      { looser with nesting := looser.nesting + 1 } := by
  obtain ⟨calls, unwatched, same⟩ := loosens
  rw [same]
  exact ⟨calls, unwatched, rfl⟩

theorem Loosens.called {context looser : Context} (loosens : Loosens context looser) :
    Loosens { context with calls := context.calls + 1 }
      { looser with calls := looser.calls + 1 } := by
  obtain ⟨calls, unwatched, same⟩ := loosens
  rw [same]
  exact ⟨calls, unwatched, rfl⟩

/-- Under looser limits the second action does what the first does, if that is not cut off. -/
abbrev Outlasts (action looserAction : EvalM α) : Prop :=
  Follows Loosens IsDepthLimit action looserAction

theorem outlasts_checkCalls : Outlasts checkCalls checkCalls := by
  intro context looser loosens machine
  rw [checkCalls, read_bind_run, read_bind_run]
  have level : looser.calls = context.calls := by
    rw [loosens.same]
  by_cases reached : context.limits.calls ≤ context.calls
  · left
    rw [if_pos reached]
    exact ⟨.runtime (.callDepthExceeded context.limits.calls), machine, trivial, rfl⟩
  · right
    have allowed : ¬looser.limits.calls ≤ looser.calls := by
      have atLeast := loosens.calls
      omega
    rw [if_neg reached, if_neg allowed]
    rfl

theorem excuses_loosens : Excuses Loosens IsDepthLimit where
  unwatched loosens := by
    rw [loosens.same]
    exact ⟨loosens.unwatched, loosens.unwatched⟩
  patience loosens := by rw [loosens.same]
  loader loosens := by rw [loosens.same]
  levels _ := trivial
  checkCalls := outlasts_checkCalls
  nested := Loosens.nested
  called := Loosens.called

theorem compatible_outlasts : Compatible Outlasts :=
  excuses_loosens.compatible

theorem outlasts_within {room larger : Nat} (atMost : room ≤ larger) :
    Deeper.Related Outlasts (within room) (within larger) :=
  excuses_loosens.within atMost

theorem program_eq_under_higher_limits (limits higher : Limits)
    (calls : limits.calls ≤ higher.calls) (evaluation : limits.evaluation ≤ higher.evaluation)
    (loader : Source.Loader) (patience : Nat) (tree : Program) (machine : Machine)
    (uncut : ¬CutOff (program tree { limits, loader, patience } machine)) :
    program tree { limits := higher, loader, patience } machine =
      program tree { limits, loader, patience } machine := by
  have loosens : Loosens { limits, loader, patience } { limits := higher, loader, patience } :=
    ⟨calls, rfl, rfl⟩
  have evaluated := compatible_outlasts.statements (outlasts_within evaluation) .none tree
  have finished := evaluated.bind compatible_outlasts.finish
  exact (finished _ _ loosens machine).resolve_left uncut

theorem program_eq_under_higher_limits_recursion :
    let limits : Limits := { calls := 2, evaluation := 12 }
    let tree : Program :=
      [.definition (.mk (some "f") ["x"]
        [.conditional (.identifier "x") [.ret (.call "f" [.literal (.text "\"\"")])] .none,
          .expression (.call "print" [.identifier "x"])]),
        .expression (.call "f" [.literal (.text "\"a\"")])]
    let machine : Machine := {}
    let run (limits : Limits) := program tree { limits, loader := .ofUnits [], patience := 1 } machine
    ¬CutOff (run limits) ∧ run { calls := 256, evaluation := 4096 } = run limits := by
  intro limits tree machine run
  have uncut : ¬CutOff (run limits) := not_cutOff_of_returns (by decide +kernel)
  exact ⟨uncut, program_eq_under_higher_limits limits { calls := 256, evaluation := 4096 }
    (by decide) (by decide) (.ofUnits []) 1 tree machine uncut⟩

end Easel.Evaluation
