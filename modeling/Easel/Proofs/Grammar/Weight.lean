import Easel.Proofs.Grammar

/-!
How far the parts of a program that are evaluated lie inside one another. A level of nesting in the
grammar is one of evaluation, with one exception: the left operand of an operator is read on the
level of the operator and evaluated one level further in. A path through a program is therefore no
longer than the levels of the grammar and the left operands on it.
-/

namespace Easel

mutual

/-- The weight of the heaviest path through what is evaluated, if every node on a path weighs
`level` and a left operand weighs `left` more. The operand of an increment is not evaluated, nor are
those of a member access and the body of a function. -/
def Expression.weight (level left : Nat) : Expression → Nat
  | .identifier _ | .literal _ | .function _ => level
  | .unary operator operand =>
      level + if operator.step?.isSome then 0 else operand.weight level left
  | .binary operator first second =>
      level + if operator = .member then 0
        else max (left + first.weight level left) (second.weight level left)
  | .assign _ _ value => level + value.weight level left
  | .call _ trees | .list trees => level + Expression.weightEach level left trees

def Expression.weightEach (level left : Nat) : List Expression → Nat
  | [] => 0
  | tree :: rest => max (tree.weight level left) (Expression.weightEach level left rest)

end

mutual

def Statement.weight (level left : Nat) : Statement → Nat
  | .block body => level + Statement.weightEach level left body
  | .conditional condition body alternatives =>
      level + max (condition.weight level left)
        (max (Statement.weightEach level left body) (alternatives.weight level left))
  | .forLoop start condition step body =>
      level + max (max (start.weight level left) (condition.weight level left))
        (max (step.weight level left) (Statement.weightEach level left body))
  | .whileLoop header body | .repeatLoop header body =>
      level + max (header.weight level left) (Statement.weightEach level left body)
  | .ret tree | .expression tree => level + tree.weight level left
  | .foreachLoop .. | .definition _ | .breakLoop | .continueLoop | .empty => level

def Statement.weightEach (level left : Nat) : List Statement → Nat
  | [] => 0
  | tree :: rest => max (tree.weight level left) (Statement.weightEach level left rest)

def Alternatives.weight (level left : Nat) : Alternatives → Nat
  | .none => 0
  | .otherwise body => Statement.weightEach level left body
  | .branch condition body rest =>
      max (condition.weight level left)
        (max (Statement.weightEach level left body) (rest.weight level left))

end

def Program.levels (program : Program) : Nat :=
  Statement.weightEach 1 0 program

/-- The most left operands of operators that are evaluated inside one another. -/
def Program.leftNesting (program : Program) : Nat :=
  Statement.weightEach 0 1 program

theorem UnaryOperator.isSome_step? {operator : UnaryOperator}
    (after : operator.isAfterOperand = true) : operator.step?.isSome = true := by
  cases operator with
  | postIncrement | postDecrement => rfl
  | _ => cases after

namespace Grammar

structure Phrases.Low (inner : Phrases) (depth : Nat) : Prop where
  statement : ∀ {words tree}, inner.statement words tree →
    tree.weight 1 0 ≤ depth + tree.weight 0 1
  expression : ∀ {words tree}, inner.expression words tree →
    tree.weight 1 0 ≤ depth + tree.weight 0 1
  term : ∀ {level words tree}, inner.term level words tree →
    tree.weight 1 0 ≤ depth + tree.weight 0 1

section Rules

variable {inner : Phrases} {depth : Nat} (low : inner.Low depth) {words : List Word}
include low

theorem Sequence.weight_le {trees : List Statement} (sequence : Sequence inner.statement words trees) :
    Statement.weightEach 1 0 trees ≤ depth + Statement.weightEach 0 1 trees := by
  induction sequence with
  | nil => exact Nat.zero_le _
  | cons head tail induction =>
      have first := low.statement head
      simp only [Statement.weightEach]
      omega

theorem Separated.weight_le {trees : List Expression}
    (separated : Separated inner.expression words trees) :
    Expression.weightEach 1 0 trees ≤ depth + Expression.weightEach 0 1 trees := by
  induction separated with
  | last only =>
      have first := low.expression only
      simp only [Expression.weightEach]
      omega
  | cons head tail induction =>
      have first := low.expression head
      simp only [Expression.weightEach]
      omega

theorem Listed.weight_le {opening closing : String} {trees : List Expression}
    (listed : Listed inner.expression opening closing words trees) :
    Expression.weightEach 1 0 trees ≤ depth + Expression.weightEach 0 1 trees := by
  cases listed with
  | empty => exact Nat.zero_le _
  | items separated => exact separated.weight_le low

theorem IsBody.weight_le {trees : List Statement} (braced : IsBody inner words trees) :
    Statement.weightEach 1 0 trees ≤ depth + Statement.weightEach 0 1 trees := by
  cases braced with
  | braced statements => exact statements.weight_le low

theorem IsCondition.weight_le {tree : Expression} (condition : IsCondition inner words tree) :
    tree.weight 1 0 ≤ depth + tree.weight 0 1 := by
  cases condition with
  | parenthesised inside => exact low.expression inside

theorem IsPrimary.weight_le {tree : Expression} (primary : IsPrimary inner words tree) :
    tree.weight 1 0 ≤ depth + 1 + tree.weight 0 1 := by
  cases primary with
  | parenthesised inside => exact Nat.le_trans (low.expression inside) (by omega)
  | number lexeme | text lexeme | identifier name | function defined =>
      simp only [Expression.weight]
      omega
  | call name listed | list listed =>
      have items := listed.weight_le low
      simp only [Expression.weight]
      omega
  | increment name after =>
      have steps := UnaryOperator.isSome_step? after
      simp only [Expression.weight, steps, if_true]
      omega

/-- An operator takes a level of evaluation, and its left operand none of the grammar. -/
theorem IsTerm.weight_le {level : Precedence} {tree : Expression} (term : IsTerm inner level words tree) :
    tree.weight 1 0 ≤ depth + 1 + tree.weight 0 1 := by
  induction term with
  | primary operand => exact operand.weight_le low
  | unary before operand =>
      have inside := low.term operand
      simp only [Expression.weight]
      split <;> omega
  -- The left operand stands on the level of the operator itself, so what it needs beyond that level
  -- is made up for by its own weight as a left operand.
  | index container inside induction =>
      have position := low.expression inside
      simp only [Expression.weight]
      split <;> omega
  | binary written first second induction =>
      have right := low.term second
      simp only [Expression.weight]
      split <;> omega
  | tighter binary term induction => exact induction

theorem IsExpression.weight_le {tree : Expression} (expression : IsExpression inner words tree) :
    tree.weight 1 0 ≤ depth + 1 + tree.weight 0 1 := by
  cases expression with
  | assign operator name assigned =>
      have value := low.expression assigned
      simp only [Expression.weight]
      omega
  | term loosest => exact loosest.weight_le low

theorem IsAlternatives.weight_le {tree : Alternatives} (others : IsAlternatives inner words tree) :
    tree.weight 1 0 ≤ depth + tree.weight 0 1 := by
  induction others with
  | none => exact Nat.zero_le _
  | otherwise braced => exact braced.weight_le low
  | branch tested braced others induction =>
      have condition := tested.weight_le low
      have body := braced.weight_le low
      simp only [Alternatives.weight]
      omega

theorem IsStatement.weight_le {tree : Statement} (statement : IsStatement inner words tree) :
    tree.weight 1 0 ≤ depth + 1 + tree.weight 0 1 := by
  cases statement with
  | block braced =>
      have body := braced.weight_le low
      simp only [Statement.weight]
      omega
  | conditional tested braced others =>
      have condition := tested.weight_le low
      have body := braced.weight_le low
      have alternatives := others.weight_le low
      simp only [Statement.weight]
      omega
  | whileLoop tested braced | repeatLoop tested braced =>
      have header := tested.weight_le low
      have body := braced.weight_le low
      simp only [Statement.weight]
      omega
  | forLoop first second third braced =>
      have start := low.expression first
      have condition := low.expression second
      have step := low.expression third
      have body := braced.weight_le low
      simp only [Statement.weight]
      omega
  | ret inside | expression inside _ =>
      have value := low.expression inside
      simp only [Statement.weight]
      omega
  | _ =>
      simp only [Statement.weight]
      omega

end Rules

theorem phrases_low (depth : Nat) : (phrases depth).Low depth := by
  induction depth with
  | zero => exact ⟨False.elim, False.elim, False.elim⟩
  | succ depth induction =>
      exact ⟨IsStatement.weight_le induction, IsExpression.weight_le induction, IsTerm.weight_le induction⟩

/-- A program takes a level of evaluation for each level of the grammar and for each left operand. -/
theorem IsProgram.levels_le {depth : Nat} {words : List Word} {program : Program}
    (derived : IsProgram depth words program) :
    program.levels ≤ depth + program.leftNesting :=
  Sequence.weight_le (phrases_low depth) derived

end Grammar

end Easel
