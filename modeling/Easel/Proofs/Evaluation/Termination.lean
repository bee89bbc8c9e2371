import Easel.Proofs.Evaluation.Crashing

/-!
Only `while` and `for` can make a program run on and on. Levels bound how deep statements,
calls and imports go, and every list of statements and every count of rounds is finite; it is
only the rounds of these two loops that take patience. A program without them, on scopes and
with units that hold none either, is never exhausted: it ends with a value or with a failure,
unless it crashes.
-/

namespace Easel

open Evaluation in
/-- No loop in the tree makes rounds for as long as a condition holds. -/
def Trait.loopFree : Trait where
  onExpression _ := True
  onStatement node := ¬HasRounds node

theorem Trait.coherent_loopFree : Trait.loopFree.Coherent :=
  ⟨fun _ => trivial, fun _ => trivial, fun _ => trivial, fun _ _ => trivial, fun _ _ => trivial⟩

namespace Evaluation

open EvalM

instance : DecidablePred HasRounds
  | .whileLoop .. | .forLoop .. => isTrue trivial
  | .block _ | .conditional .. | .foreachLoop .. | .repeatLoop .. | .definition _ | .ret _
  | .breakLoop | .continueLoop | .expression _ | .empty => isFalse id

instance : DecidablePred Trait.loopFree.onExpression := fun _ => isTrue trivial

instance : DecidablePred Trait.loopFree.onStatement := fun node =>
  inferInstanceAs (Decidable (¬HasRounds node))

theorem loop_free_program_ends_or_misses_item (limits : Limits) (loader : Source.Loader)
    (patience : Nat) (tree : Program) (machine : Machine)
    (free : Statement.EveryEach .loopFree tree) (loads : loader.Every .loopFree)
    (holds : machine.scopes.Holds .loopFree) :
    let context : Context := { limits, loader, patience }
    (∃ after, EndsIn (program tree context machine) after) ∨
      (∃ after, program tree context machine = .error .crash after) ∧
        ∃ moment, Occurs (program tree) context machine moment ∧ Crashes moment := by
  intro context
  have ended : Ends .loopFree (program tree context machine)
      (program tree (alarmed context) machine) :=
    ends_program Trait.coherent_loopFree rfl loads free holds
  generalize evaluated : program tree context machine = result at ended ⊢
  generalize watched : program tree (alarmed context) machine = watchedResult at ended
  cases ended with
  | returned value after _ _ => exact .inl ⟨after, .inl ⟨value, rfl⟩⟩
  | failed cause after _ => exact .inl ⟨after, .inr ⟨cause, rfl⟩⟩
  | exhausted after allowed =>
      obtain ⟨node, rounds, free⟩ := allowed
      exact absurd rounds free
  | crashed moment after paused crashes =>
      exact .inr ⟨⟨after, rfl⟩, moment, ⟨_, paused, watched⟩, crashes⟩

/-- A function of the scopes imports a unit that calls the function again. -/
theorem loop_free_program_ends_or_misses_item_recursion :
    let again : Definition := .mk (some "f") []
      [.expression (.call "import" [.literal (.text "\"LIB\""), .literal (.text "\"unit\"")])]
    let tree : Program := [.repeatLoop (.literal (.number 2)) [.expression (.call "f" [])]]
    let context : Context :=
      { limits := { calls := 3, evaluation := 12 }, loader := fun _ _ => .ok "f();", patience := 0 }
    let machine : Machine := { scopes := { current := [("f", .function again)] } }
    Statement.EveryEach .loopFree tree ∧ context.loader.Every .loopFree ∧
      machine.scopes.Holds .loopFree ∧
      ((∃ after, EndsIn (program tree context machine) after) ∨
        (∃ after, program tree context machine = .error .crash after) ∧
          ∃ moment, Occurs (program tree) context machine moment ∧ Crashes moment) := by
  intro again tree context machine
  have free : Statement.EveryEach .loopFree tree := by decide +kernel
  have loads : context.loader.Every .loopFree := by
    have read : ∀ program, Program.parse "f();" = .ok program →
        Statement.EveryEach .loopFree program := by decide +kernel
    rintro kind name source program ⟨⟩ parsed
    exact read program parsed
  have holds : machine.scopes.Holds .loopFree := by
    have body : Statement.EveryEach .loopFree again.body := by decide +kernel
    refine List.forall_mem_cons.mpr ⟨?_, nofun⟩
    intro name value _ found
    change (if name = "f" then some (.function again) else none) = some value at found
    split at found <;> cases found
    exact ⟨trivial, body⟩
  exact ⟨free, loads, holds, loop_free_program_ends_or_misses_item { calls := 3, evaluation := 12 }
    (fun _ _ => .ok "f();") 0 tree machine free loads holds⟩

-- The first character of an empty text, asked for at zero divided by zero.
example : ∃ after, program
    [.expression (.binary .index (.literal (.text "\"\""))
      (.binary .divide (.literal (.number 0)) (.literal (.number 0))))]
    { limits := { calls := 0, evaluation := 4 }, loader := .ofUnits [], patience := 0 } {} =
      .error .crash after :=
  ⟨_, rfl⟩

end Evaluation

end Easel
