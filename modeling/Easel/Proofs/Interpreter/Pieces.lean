import Easel.Interpreter
import Easel.Proofs.Evaluation.Output
import Easel.Proofs.Grammar.Legality
import Easel.Proofs.Lexemes.Joining
import Easel.Proofs.Parser.Exactness

/-!
Running a text in pieces. Two texts that are programs are, with a newline between them, the
program of all their statements: the newline parts the words of the texts, and a list of
statements goes on with any other. Evaluation passes from one statement to the next with nothing
but the machine, so a run of the first text and then of the second is a run of both, as long as
nothing ends the first one before its time.
-/

namespace Easel

open Grammar

theorem Grammar.Sequence.append {Tree : Type} {phrase : List Word → Tree → Prop}
    {words more : List Word} {trees others : List Tree} (first : Sequence phrase words trees)
    (second : Sequence phrase more others) :
    Sequence phrase (words ++ more) (trees ++ others) := by
  induction first with
  | nil => exact second
  | cons head tail induction =>
      rw [List.append_assoc]
      exact .cons head induction

theorem Grammar.IsProgram.closed {depth : Nat} {words : List Word} {program : Program}
    (derived : IsProgram depth words program) : ⟨.illegal, "\""⟩ ∉ words :=
  fun member => derived.legal _ member rfl

theorem Program.parse_append_newline {first second : String} {program following : Program}
    (parsed : Program.parse first = .ok program)
    (parsedNext : Program.parse second = .ok following) :
    Program.parse (first ++ "\n" ++ second) = .ok (program ++ following) := by
  rw [Parser.parse_eq_ok_iff_isProgram] at parsed parsedNext ⊢
  have joined : (first ++ "\n" ++ second).toList = first.toList ++ '\n' :: second.toList := by
    simp
  rw [joined, Token.words_append_newline _ parsed.closed]
  exact parsed.append parsedNext

namespace Evaluation

open EvalM

variable {α : Type}

theorem statements_append (deeper : Deeper) (last : Value) (first second : List Statement) :
    statements deeper last (first ++ second) = (do
      match ← statements deeper last first with
      | .normal value => statements deeper value second
      | flow => return flow) := by
  induction first generalizing last with
  | nil =>
      rw [List.nil_append, statements, pure_bind]
  | cons node rest induction =>
      rw [List.cons_append, statements, statements, bind_assoc]
      congr
      funext flow
      cases flow with
      | normal value => exact induction value
      | _ => rfl

theorem statements_eq_of_ne_nil {nodes : List Statement} (some : nodes ≠ []) (deeper : Deeper)
    (last other : Value) : statements deeper last nodes = statements deeper other nodes := by
  cases nodes with
  | nil => exact absurd rfl some
  | cons node rest => rfl

theorem program_run (tree : Program) (context : Context) (machine : Machine) :
    program tree context machine =
      match statements (within context.limits.evaluation) .none tree context machine with
      | .ok flow middle => finish flow context middle
      | .error stop middle => .error stop middle := by
  rw [program, read_bind_run, bind_run]
  cases statements (within context.limits.evaluation) .none tree context machine <;> rfl

section Programs

variable {tree following : Program} {context : Context} {machine after : Machine}

theorem program_append_run (some : following ≠ []) :
    program (tree ++ following) context machine =
      match statements (within context.limits.evaluation) .none tree context machine with
      | .ok (.normal _) middle => program following context middle
      | .ok flow middle => finish flow context middle
      | .error stop middle => .error stop middle := by
  rw [program_run, statements_append, bind_run]
  cases statements (within context.limits.evaluation) .none tree context machine with
  | error stop middle => rfl
  | ok flow middle =>
      cases flow with
      | normal value =>
          dsimp only
          rw [statements_eq_of_ne_nil some _ value .none, program_run]
      | _ => rfl

theorem program_of_normal {value : Value}
    (ended : statements (within context.limits.evaluation) .none tree context machine =
      .ok (.normal value) after) : program tree context machine = .ok value after := by
  rw [program_run, ended]
  rfl

theorem program_append_of_normal {value : Value} (some : following ≠ [])
    (ended : statements (within context.limits.evaluation) .none tree context machine =
      .ok (.normal value) after) :
    program (tree ++ following) context machine = program following context after := by
  rw [program_append_run some, ended]

theorem program_append_of_failure (following : Program) {cause : Failure}
    (failed : program tree context machine = .error (.failure cause) after) :
    program (tree ++ following) context machine = .error (.failure cause) after := by
  by_cases none : following = []
  · rwa [none, List.append_nil]
  · rw [program_append_run none]
    rw [program_run] at failed
    cases ended : statements (within context.limits.evaluation) .none tree context machine with
    | error stop middle => rwa [ended] at failed
    | ok flow middle =>
        rw [ended] at failed
        cases flow with
        | normal value => cases failed
        | _ => exact failed

end Programs

/-- The run leaves it as it was whether flushes fail. -/
def FlushKept (before : Machine) : EStateM.Result Stop Machine α → Prop
  | .ok _ after | .error _ after => after.output.flushFails = before.output.flushFails

def KeepsFlush (action : EvalM α) : Prop :=
  ∀ context machine, FlushKept machine (action context machine)

theorem keepsFlush_program (tree : Program) : KeepsFlush (program tree) := by
  intro context machine
  have kept := (appends_program tree context machine).flushFails_eq
  cases ended : program tree context machine with
  | ok value after | error stop after =>
      rw [ended] at kept
      exact kept

end Evaluation

namespace Interpreter

open Evaluation

theorem flushAfter_of_flushes {machine : Machine} (flushes : machine.output.flushFails = false)
    (result : Except Stop Value) : flushAfter result machine = result := by
  have flushed : machine.output.flush = none := by simp [Sink.flush, flushes]
  unfold flushAfter
  rw [flushed]
  rcases result with (_ | _ | _ | _) | _ <;> rfl

def outcome : EStateM.Result Stop Machine Value → Except Stop Value × Machine
  | .ok value after => (.ok value, after)
  | .error stop after => (.error stop, after)

/-- Some watch pauses the run of a source text at this moment. -/
def Passes (interpreter : Interpreter) (source : String) (machine : Machine) (moment : Moment) :
    Prop :=
  ∃ watch, ({ interpreter with watch := some watch }.run source machine).1 = .error (.paused moment)

theorem flushAfter_cases (result : Except Stop Value) (machine : Machine) :
    flushAfter result machine = result ∨
      ∃ fault, flushAfter result machine = .error (.failure (.runtime (.channel fault))) := by
  unfold flushAfter
  split
  · exact .inr ⟨_, rfl⟩
  · exact .inr ⟨_, rfl⟩
  · exact .inl rfl

/-- A run of a text that is a program ends as the program does, or by a failure of the output that
leaves the same machine. -/
theorem runProgram_cases (interpreter : Interpreter) (tree : Program) (machine : Machine) :
    let ended := outcome (program tree interpreter.context machine)
    interpreter.runProgram tree machine = ended ∨
      ∃ fault, interpreter.runProgram tree machine =
        (.error (.failure (.runtime (.channel fault))), ended.2) := by
  intro ended
  have flushed : interpreter.runProgram tree machine = (flushAfter ended.1 ended.2, ended.2) := by
    rw [runProgram]
    cases evaluated : program tree interpreter.context machine <;>
      simp only [ended, evaluated, outcome]
  rw [flushed]
  rcases flushAfter_cases ended.1 ended.2 with same | ⟨fault, failed⟩
  · rw [same]
    exact .inl rfl
  · rw [failed]
    exact .inr ⟨fault, rfl⟩

theorem failure_of_run (interpreter : Interpreter) {source : String} {machine : Machine}
    {cause : Failure} (failed : (interpreter.run source machine).1 = .error (.failure cause)) :
    (∃ error, Program.parse source = .error error ∧ cause = .misread error) ∨
      (∃ tree after, Program.parse source = .ok tree ∧
        program tree interpreter.context machine = .error (.failure cause) after) ∨
      ∃ fault, cause = .runtime (.channel fault) := by
  rw [run] at failed
  cases parsed : Program.parse source with
  | error error =>
      rw [parsed] at failed
      cases failed
      exact .inl ⟨error, rfl, rfl⟩
  | ok tree =>
      rw [parsed] at failed
      dsimp only at failed
      rcases interpreter.runProgram_cases tree machine with same | ⟨fault, flushed⟩
      · rw [same] at failed
        cases evaluated : program tree interpreter.context machine with
        | ok value after =>
            rw [evaluated] at failed
            cases failed
        | error stop after =>
            rw [evaluated] at failed
            cases failed
            exact .inr (.inl ⟨tree, after, rfl, evaluated⟩)
      · rw [flushed] at failed
        cases failed
        exact .inr (.inr ⟨fault, rfl⟩)

theorem run_of_parse (interpreter : Interpreter) {source : String} {tree : Program}
    (parsed : Program.parse source = .ok tree) {machine : Machine}
    (flushes : machine.output.flushFails = false) :
    interpreter.run source machine = outcome (program tree interpreter.context machine) := by
  have kept := keepsFlush_program tree interpreter.context machine
  rw [run, parsed]
  dsimp only
  rw [runProgram]
  cases ended : program tree interpreter.context machine <;>
    · rw [ended] at kept
      dsimp only
      rw [outcome, flushAfter_of_flushes (kept.trans flushes)]

theorem outcome_eq_failure_iff {result : EStateM.Result Stop Machine Value} {cause : Failure}
    {after : Machine} :
    outcome result = (.error (.failure cause), after) ↔ result = .error (.failure cause) after := by
  cases result <;> simp [outcome]

theorem run_in_pieces_eq_run_whole (first second : String) (tree following : Program)
    (parsed : Program.parse first = .ok tree) (parsedNext : Program.parse second = .ok following) :
    Program.parse (first ++ "\n" ++ second) = .ok (tree ++ following) ∧
    ∀ (interpreter : Interpreter) (machine : Machine), machine.output.flushFails = false →
      (∀ value after, following ≠ [] →
        statements (within interpreter.limits.evaluation) .none tree interpreter.context machine =
          .ok (.normal value) after →
        interpreter.run first machine = (.ok value, after) ∧
          interpreter.run (first ++ "\n" ++ second) machine = interpreter.run second after) ∧
      ∀ cause after, interpreter.run first machine = (.error (.failure cause), after) →
        interpreter.run (first ++ "\n" ++ second) machine = (.error (.failure cause), after) := by
  have joined := Program.parse_append_newline parsed parsedNext
  refine ⟨joined, ?_⟩
  intro interpreter machine flushes
  rw [interpreter.run_of_parse joined flushes, interpreter.run_of_parse parsed flushes]
  constructor
  · intro value after some ended
    change statements (within interpreter.context.limits.evaluation) .none tree
      interpreter.context machine = _ at ended
    have evaluated := program_of_normal ended
    have kept := keepsFlush_program tree interpreter.context machine
    rw [evaluated] at kept
    refine ⟨by rw [evaluated, outcome], ?_⟩
    rw [interpreter.run_of_parse parsedNext (kept.trans flushes),
      program_append_of_normal some ended]
  · intro cause after failed
    rw [outcome_eq_failure_iff] at failed ⊢
    exact program_append_of_failure following failed

/-- A function and a variable of the first text that the second one uses. -/
theorem run_in_pieces_eq_run_whole_call :
    let first := "def show(x) \x7b print(x); ret x; \x7d y = \"a\";"
    let second := "show(y);"
    let interpreter : Interpreter := { limits := { calls := 1, evaluation := 9 }, patience := 1 }
    let machine : Machine := {}
    ∃ tree following value after, Program.parse first = .ok tree ∧
      Program.parse second = .ok following ∧ following ≠ [] ∧
      statements (within interpreter.limits.evaluation) .none tree interpreter.context machine =
        .ok (.normal value) after ∧
      interpreter.run (first ++ "\n" ++ second) machine = interpreter.run second after := by
  intro first second interpreter machine
  have firstRuns : ∃ tree, Program.parse first = .ok tree ∧ ∃ value after,
      statements (within interpreter.limits.evaluation) .none tree interpreter.context machine =
        .ok (.normal value) after := by decide +kernel
  have secondReads : ∃ following, Program.parse second = .ok following ∧ following ≠ [] := by
    decide +kernel
  obtain ⟨tree, parsed, value, after, ended⟩ := firstRuns
  obtain ⟨following, parsedNext, some⟩ := secondReads
  have pieces := (run_in_pieces_eq_run_whole first second tree following parsed
    parsedNext).2 interpreter machine rfl
  exact ⟨tree, following, value, after, parsed, parsedNext, some, ended,
    (pieces.1 value after some ended).2⟩

end Interpreter

end Easel
