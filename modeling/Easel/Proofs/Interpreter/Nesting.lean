import Easel.Proofs.Evaluation.Levels
import Easel.Proofs.Interpreter.Pieces
import Easel.Proofs.Lexemes.Separation
import Easel.Proofs.Parser.Exactness

/-!
What the limit on nesting is worth to a run. The operators of a chain are read on one level, but
each of them is evaluated one level further in than the next. A chain that is long enough runs out
of levels, though it holds no call and is read without complaint. It takes a chain for that: the
levels of nesting that the reader allows, and one more for each left operand inside another, suffice
for every program without calls.
-/

namespace Easel

open Grammar Evaluation

namespace Chain

def one : Expression :=
  .literal (.number (numeral "1"))

def tree : Nat → Expression
  | 0 => one
  | operators + 1 => .binary .plus (tree operators) one

def text (operators : Nat) : String :=
  "1" ++ String.join (List.replicate operators "+1") ++ ";"

def words : Nat → List Word
  | 0 => [⟨.number, "1"⟩]
  | operators + 1 => words operators ++ [.operator "+", ⟨.number, "1"⟩]

theorem words_begins (operators : Nat) :
    ∃ rest, words operators = ⟨.number, "1"⟩ :: rest := by
  induction operators with
  | zero => exact ⟨[], rfl⟩
  | succ operators induction =>
      rcases induction with ⟨rest, first⟩
      rw [words, first]
      exact ⟨_, rfl⟩

theorem toList_text (operators : Nat) :
    (text operators).toList =
      "1".toList ++ (List.replicate operators ['+', '1']).flatten ++ [';'] := by
  simp [text, List.flatMap_def]

theorem words_append (operators : Nat) {rest : List Char}
    (apart : ∀ c ∈ rest.head?, c.isDigit = false ∧ (c = '.' → '.' ∈ "1".toList)) :
    Token.words ("1".toList ++ (List.replicate operators ['+', '1']).flatten ++ rest) =
      words operators ++ Token.words rest := by
  have numeral : Token.IsNumeral "1".toList := .whole (by decide) (by simp)
  induction operators generalizing rest with
  | zero => exact Token.words_number numeral apart
  | succ operators induction =>
      have unpaired : ∀ second ∈ ('1' :: rest).head?,
          Token.operatorPairs.contains ('+', second) = false := by
        intro second same
        cases same
        decide
      have operator : Token.words ('+' :: '1' :: rest) =
          .operator "+" :: Token.words ("1".toList ++ rest) :=
        Token.words_operator (by decide) unpaired
      rw [List.replicate_succ', List.flatten_append, List.flatten_singleton, ← List.append_assoc,
        List.append_assoc _ ['+', '1'], List.cons_append, List.singleton_append,
        induction (by simp), operator, Token.words_number numeral apart]
      simp [words]

theorem isTerm_tree (depth operators : Nat) :
    IsTerm (phrases (depth + 1)) .sum (words operators) (tree operators) := by
  have digit : ∀ inner, IsTerm inner .unary [⟨.number, "1"⟩] one :=
    fun inner => .primary (.number "1")
  induction operators with
  | zero => exact (digit _).loosen (by decide) (by decide)
  | succ operators induction =>
      have right : IsTerm (phrases depth) .product [⟨.number, "1"⟩] one :=
        (digit _).loosen (by decide) (by decide)
      have written : BinaryOperator.plus ≠ .index := by decide
      exact .binary written induction right

theorem parse_text (operators : Nat) :
    Program.parse (text operators) = .ok [.expression (tree operators)] := by
  have spelled : Token.words (text operators).toList =
      words operators ++ [.symbol ";"] := by
    rw [toList_text, words_append operators (by simp), Token.words_symbol (by decide),
      Token.words_nil]
  have unnamed : ¬BeginsDefinition (words operators) := by
    intro begins
    rcases begins with ⟨name, others, same⟩
    rcases words_begins operators with ⟨rest, first⟩
    rw [first] at same
    cases same
  exact Parser.parse_eq_ok_of_isTerm spelled (isTerm_tree _ operators) (by decide) unnamed

theorem uncalled_tree (operators : Nat) : (tree operators).Every .uncalled := by
  induction operators with
  | zero => exact trivial
  | succ operators induction => exact ⟨trivial, induction, trivial⟩

end Chain

namespace Evaluation

open EvalM

section Runs

variable {context : Context} (unwatched : context.watch = none)
include unwatched

/-- The first operands are evaluated first, one inside another. -/
theorem chain_run {room operators : Nat} (few : room ≤ operators) (machine : Machine) :
    expressionWithin room (Chain.tree operators) context machine =
      .error (.failure (.runtime (.evaluationDepthExceeded context.limits.evaluation)))
        machine := by
  induction room generalizing operators context with
  | zero => rfl
  | succ room induction =>
      cases operators with
      | zero => exact absurd few (Nat.not_succ_le_zero room)
      | succ operators =>
          -- The left operand is a shorter chain, and the run does not come to the right one.
          have unwatchedInward : (inward context).watch = none := unwatched
          have first : (within room).expression (Chain.tree operators) (inward context) machine = _ :=
            induction unwatchedInward (Nat.le_of_succ_le_succ few)
          rw [expressionWithin_run unwatched, Chain.tree, expression, binary, if_neg (by decide),
            bind_run, first]
          rfl

theorem statement_chain_run {room operators : Nat} (few : room ≤ operators + 1)
    (machine : Machine) :
    statementWithin room (.expression (Chain.tree operators)) context machine =
      .error (.failure (.runtime (.evaluationDepthExceeded context.limits.evaluation)))
        machine := by
  cases room with
  | zero => rfl
  | succ room =>
      have unwatchedInward : (inward context).watch = none := unwatched
      have first := chain_run unwatchedInward (Nat.le_of_succ_le_succ few) machine
      rw [expressionStatement_run unwatched]
      change (expressionWithin room (Chain.tree operators) >>= fun value => pure (Flow.normal value))
        (inward context) machine = _
      rw [bind_run, first]
      rfl

theorem program_chain_run {operators : Nat} (few : context.limits.evaluation ≤ operators + 1)
    (machine : Machine) :
    program [.expression (Chain.tree operators)] context machine =
      .error (.failure (.runtime (.evaluationDepthExceeded context.limits.evaluation)))
        machine := by
  have statement : (within context.limits.evaluation).statement (.expression (Chain.tree operators))
      context machine = _ :=
    statement_chain_run unwatched few machine
  rw [program, read_bind_run, bind_run, statements, bind_run, statement]

end Runs

end Evaluation

namespace Interpreter

/-- A chain has no calls and is read at any length, and with as many operators as there are levels,
or one fewer, its run ends for want of levels. -/
theorem run_chain_text {interpreter : Interpreter} (unwatched : interpreter.watch = none)
    {operators : Nat} (few : interpreter.limits.evaluation ≤ operators + 1) {machine : Machine}
    (flushes : machine.output.flushFails = false) :
    interpreter.run (Chain.text operators) machine =
      (.error (.failure (.runtime (.evaluationDepthExceeded interpreter.limits.evaluation))),
        machine) := by
  have evaluated : program [.expression (Chain.tree operators)] interpreter.context machine = _ :=
    program_chain_run unwatched few machine
  rw [interpreter.run_of_parse (Chain.parse_text operators) flushes, evaluated]
  rfl

theorem run_of_long_chain_exceeds_levels :
    let source := "1" ++ String.join (List.replicate 4095 "+1") ++ ";"
    ∃ tree, Program.parse source = .ok tree ∧ Statement.EveryEach .uncalled tree ∧
      (({} : Interpreter).run source {}).1 =
        .error (.failure (.runtime (.evaluationDepthExceeded 4096))) := by
  intro source
  have uncalled : Statement.EveryEach .uncalled [.expression (Chain.tree 4095)] :=
    ⟨⟨trivial, Chain.uncalled_tree 4095⟩, trivial⟩
  have failed : ({} : Interpreter).run (Chain.text 4095) {} = _ :=
    run_chain_text rfl (Nat.le_refl 4096) rfl
  exact ⟨_, Chain.parse_text 4095, uncalled, congrArg Prod.fst failed⟩

theorem endsBy_of_run {interpreter : Interpreter} {source : String} {tree : Program}
    (parsed : Program.parse source = .ok tree) {machine : Machine} {limit : Nat}
    (failed : (interpreter.run source machine).1 =
      .error (.failure (.runtime (.evaluationDepthExceeded limit)))) :
    EndsBy IsLevelLimit (program tree interpreter.context machine) := by
  rcases interpreter.failure_of_run failed with ⟨error, refused, _⟩ | ⟨other, after, same, ended⟩ |
    ⟨fault, same⟩
  · rw [parsed] at refused
    cases refused
  · rw [parsed] at same
    cases same
    exact ⟨.runtime (.evaluationDepthExceeded limit), after, trivial, ended⟩
  · cases same

/-- A program without calls fits into the levels that its nesting allows it, with one more for each
left operand inside another. -/
theorem uncalled_program_keeps_within_levels (source : String) (tree : Program)
    (parsed : Program.parse source = .ok tree) (uncalled : Statement.EveryEach .uncalled tree)
    (interpreter : Interpreter)
    (enough : Parser.nestingLimit + tree.leftNesting ≤ interpreter.limits.evaluation)
    (machine : Machine) :
    tree.levels ≤ Parser.nestingLimit + tree.leftNesting ∧
      ¬EndsBy IsLevelLimit (program tree interpreter.context machine) ∧
      ∀ limit, (interpreter.run source machine).1 ≠
        .error (.failure (.runtime (.evaluationDepthExceeded limit))) := by
  have low := (Parser.parse_eq_ok_iff_isProgram.mp parsed).levels_le
  have fits : tree.levels ≤ interpreter.context.limits.evaluation := Nat.le_trans low enough
  have roomy := not_endsBy_program uncalled fits machine
  refine ⟨low, roomy, ?_⟩
  intro limit failed
  exact roomy (endsBy_of_run parsed failed)

theorem uncalled_program_keeps_within_levels_loop :
    let source := "x = [4 - 2 - 1 * 3][0]; while (x) \x7b x--; f = def (y) \x7b ret y + y; \x7d; \x7d"
    ∃ tree, (Program.parse source = .ok tree ∧ Statement.EveryEach .uncalled tree ∧
      tree.leftNesting = 3 ∧
      Parser.nestingLimit + tree.leftNesting ≤ ({} : Interpreter).limits.evaluation) ∧
      tree.levels ≤ Parser.nestingLimit + tree.leftNesting ∧
      ¬EndsBy IsLevelLimit (program tree ({} : Interpreter).context {}) ∧
      ∀ limit, (({} : Interpreter).run source {}).1 ≠
        .error (.failure (.runtime (.evaluationDepthExceeded limit))) := by
  intro source
  have reads : ∃ tree, Program.parse source = .ok tree ∧ Statement.EveryEach .uncalled tree ∧
      tree.leftNesting = 3 := by
    decide +kernel
  rcases reads with ⟨tree, parsed, uncalled, nesting⟩
  have enough : Parser.nestingLimit + tree.leftNesting ≤
      ({} : Interpreter).limits.evaluation := by
    rw [nesting]
    decide
  exact ⟨tree, ⟨parsed, uncalled, nesting, enough⟩,
    uncalled_program_keeps_within_levels source tree parsed uncalled {} enough {}⟩

end Interpreter

end Easel
