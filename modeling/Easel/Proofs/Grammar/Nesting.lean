import Easel.Proofs.Grammar

/-!
More room for nesting only adds phrases. The rules of the grammar use the phrases of the level
further in and never their absence, so each of them keeps what it derives when there are more
of those.
-/

namespace Easel.Grammar

/-- All phrases of the one are phrases of the other. -/
structure Phrases.Within (fewer more : Phrases) : Prop where
  statement : ∀ {words tree}, fewer.statement words tree → more.statement words tree
  expression : ∀ {words tree}, fewer.expression words tree → more.expression words tree
  term : ∀ {level words tree}, fewer.term level words tree → more.term level words tree

section Lists

variable {Tree : Type} {phrase other : List Word → Tree → Prop} {words : List Word}
  {trees : List Tree}

theorem Sequence.widen (widened : ∀ {words tree}, phrase words tree → other words tree)
    (sequence : Sequence phrase words trees) : Sequence other words trees := by
  induction sequence with
  | nil => exact .nil
  | cons head tail induction => exact .cons (widened head) induction

theorem Separated.widen (widened : ∀ {words tree}, phrase words tree → other words tree)
    (separated : Separated phrase words trees) : Separated other words trees := by
  induction separated with
  | last only => exact .last (widened only)
  | cons head tail induction => exact .cons (widened head) induction

theorem Listed.widen {opening closing : String}
    (widened : ∀ {words tree}, phrase words tree → other words tree)
    (listed : Listed phrase opening closing words trees) :
    Listed other opening closing words trees := by
  cases listed with
  | empty => exact .empty
  | items separated => exact .items (separated.widen widened)

end Lists

section Rules

variable {fewer more : Phrases} {words : List Word}

theorem IsBody.widen (within : fewer.Within more) {trees : List Statement}
    (braced : IsBody fewer words trees) : IsBody more words trees := by
  cases braced with
  | braced statements => exact .braced (statements.widen within.statement)

theorem IsCondition.widen (within : fewer.Within more) {tree : Expression}
    (condition : IsCondition fewer words tree) : IsCondition more words tree := by
  cases condition with
  | parenthesised inside => exact .parenthesised (within.expression inside)

theorem IsFunction.widen (within : fewer.Within more) {definition : Definition}
    (defined : IsFunction fewer words definition) : IsFunction more words definition := by
  cases defined with
  | named name listed braced => exact .named name listed (braced.widen within)
  | unnamed listed braced => exact .unnamed listed (braced.widen within)

theorem IsPrimary.widen (within : fewer.Within more) {tree : Expression}
    (primary : IsPrimary fewer words tree) : IsPrimary more words tree := by
  cases primary with
  | parenthesised inside => exact .parenthesised (within.expression inside)
  | number lexeme => exact .number lexeme
  | text lexeme => exact .text lexeme
  | identifier name => exact .identifier name
  | call name listed => exact .call name (listed.widen within.expression)
  | increment name after => exact .increment name after
  | list listed => exact .list (listed.widen within.expression)
  | function defined => exact .function (defined.widen within)

theorem IsTerm.widen (within : fewer.Within more) {level : Precedence} {tree : Expression}
    (term : IsTerm fewer level words tree) : IsTerm more level words tree := by
  induction term with
  | primary operand => exact .primary (operand.widen within)
  | unary before operand => exact .unary before (within.term operand)
  | index container inside induction => exact .index induction (within.expression inside)
  | binary written first second induction => exact .binary written induction (within.term second)
  | tighter binary term induction => exact .tighter binary induction

theorem IsExpression.widen (within : fewer.Within more) {tree : Expression}
    (expression : IsExpression fewer words tree) : IsExpression more words tree := by
  cases expression with
  | assign operator name assigned => exact .assign operator name (within.expression assigned)
  | term loosest => exact .term (loosest.widen within)

theorem IsAlternatives.widen (within : fewer.Within more) {tree : Alternatives}
    (others : IsAlternatives fewer words tree) : IsAlternatives more words tree := by
  induction others with
  | none => exact .none
  | otherwise braced => exact .otherwise (braced.widen within)
  | branch tested braced _ induction =>
      exact .branch (tested.widen within) (braced.widen within) induction

theorem IsStatement.widen (within : fewer.Within more) {tree : Statement}
    (statement : IsStatement fewer words tree) : IsStatement more words tree := by
  cases statement with
  | block braced => exact .block (braced.widen within)
  | empty => exact .empty
  | conditional tested braced others =>
      exact .conditional (tested.widen within) (braced.widen within) (others.widen within)
  | whileLoop tested braced => exact .whileLoop (tested.widen within) (braced.widen within)
  | forLoop first second third braced =>
      exact .forLoop (within.expression first) (within.expression second)
        (within.expression third) (braced.widen within)
  | foreachLoop item inside braced =>
      exact .foreachLoop item (within.expression inside) (braced.widen within)
  | repeatLoop counted braced => exact .repeatLoop (counted.widen within) (braced.widen within)
  | definition named defined => exact .definition named (defined.widen within)
  | ret returned => exact .ret (within.expression returned)
  | breakLoop => exact .breakLoop
  | continueLoop => exact .continueLoop
  | expression evaluated unnamed => exact .expression (within.expression evaluated) unnamed

end Rules

theorem phrases_within_succ (depth : Nat) : (phrases depth).Within (phrases (depth + 1)) := by
  induction depth with
  | zero => exact ⟨False.elim, False.elim, False.elim⟩
  | succ depth induction =>
      exact ⟨IsStatement.widen induction, IsExpression.widen induction, IsTerm.widen induction⟩

theorem phrases_within {depth deeper : Nat} (atMost : depth ≤ deeper) :
    (phrases depth).Within (phrases deeper) := by
  induction atMost with
  | refl => exact ⟨id, id, id⟩
  | @step deeper _ induction =>
      have next := phrases_within_succ deeper
      exact ⟨fun phrase => next.statement (induction.statement phrase),
        fun phrase => next.expression (induction.expression phrase),
        fun phrase => next.term (induction.term phrase)⟩

theorem IsProgram.deepen {depth deeper : Nat} {words : List Word} {program : Program}
    (derived : IsProgram depth words program) (atMost : depth ≤ deeper) :
    IsProgram deeper words program :=
  Sequence.widen (phrases_within atMost).statement derived

end Easel.Grammar
