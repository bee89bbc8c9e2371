import Easel.Proofs.Grammar

/-!
Phrases hold no illegal words. Every word that a rule names has a class of its own, and all other
words of a phrase stand in a phrase of the level further in.
-/

namespace Easel.Grammar

/-- No word is of the class of what belongs to no class. -/
def Legal (words : List Word) : Prop :=
  ∀ word ∈ words, word.kind ≠ .illegal

@[simp]
theorem legal_nil : Legal [] := nofun

@[simp]
theorem legal_cons {word : Word} {words : List Word} :
    Legal (word :: words) ↔ word.kind ≠ .illegal ∧ Legal words :=
  List.forall_mem_cons

@[simp]
theorem legal_append {words more : List Word} :
    Legal (words ++ more) ↔ Legal words ∧ Legal more :=
  List.forall_mem_append

@[simp]
theorem kind_symbol (lexeme : String) : (Word.symbol lexeme).kind = .symbol := rfl

@[simp]
theorem kind_keyword (lexeme : String) : (Word.keyword lexeme).kind = .keyword := rfl

@[simp]
theorem kind_operator (lexeme : String) : (Word.operator lexeme).kind = .operator := rfl

@[simp]
theorem kind_identifier (name : String) : (Word.identifier name).kind = .identifier := rfl

/-- All words of these phrases are legal. -/
structure Phrases.Legal (inner : Phrases) : Prop where
  statement : ∀ {words tree}, inner.statement words tree → Grammar.Legal words
  expression : ∀ {words tree}, inner.expression words tree → Grammar.Legal words
  term : ∀ {level words tree}, inner.term level words tree → Grammar.Legal words

section Lists

variable {Tree : Type} {phrase : List Word → Tree → Prop} {words : List Word} {trees : List Tree}
  (each : ∀ {words tree}, phrase words tree → Legal words)

include each

theorem Sequence.legal (sequence : Sequence phrase words trees) : Legal words := by
  induction sequence with
  | nil => simp
  | cons head tail induction => simp [each head, induction]

theorem Separated.legal (separated : Separated phrase words trees) : Legal words := by
  induction separated with
  | last only => exact each only
  | cons head tail induction => simp [each head, induction]

theorem Listed.legal {opening closing : String}
    (listed : Listed phrase opening closing words trees) : Legal words := by
  cases listed with
  | empty => simp
  | items separated => simp [separated.legal each]

end Lists

section Rules

variable {inner : Phrases} (everywhere : inner.Legal) {words : List Word}

theorem IsParameter.legal {name : String} (parameter : IsParameter words name) : Legal words := by
  cases parameter
  simp

include everywhere

theorem IsBody.legal {trees : List Statement} (braced : IsBody inner words trees) :
    Legal words := by
  cases braced with
  | braced statements => simp [statements.legal everywhere.statement]

theorem IsCondition.legal {tree : Expression} (condition : IsCondition inner words tree) :
    Legal words := by
  cases condition with
  | parenthesised inside => simp [everywhere.expression inside]

theorem IsFunction.legal {definition : Definition} (defined : IsFunction inner words definition) :
    Legal words := by
  cases defined with
  | named name listed braced => simp [listed.legal IsParameter.legal, braced.legal everywhere]
  | unnamed listed braced => simp [listed.legal IsParameter.legal, braced.legal everywhere]

theorem IsPrimary.legal {tree : Expression} (primary : IsPrimary inner words tree) :
    Legal words := by
  cases primary with
  | parenthesised inside => simp [everywhere.expression inside]
  | number lexeme => simp
  | text lexeme => simp
  | identifier name => simp
  | call name listed => simp [listed.legal everywhere.expression]
  | increment name after => simp
  | list listed => exact listed.legal everywhere.expression
  | function defined => exact defined.legal everywhere

theorem IsTerm.legal {level : Precedence} {tree : Expression}
    (term : IsTerm inner level words tree) : Legal words := by
  induction term with
  | primary operand => exact operand.legal everywhere
  | unary before operand => simp [everywhere.term operand]
  | index container inside induction => simp [induction, everywhere.expression inside]
  | binary written first second induction => simp [induction, everywhere.term second]
  | tighter binary term induction => exact induction

theorem IsExpression.legal {tree : Expression} (expression : IsExpression inner words tree) :
    Legal words := by
  cases expression with
  | assign operator name assigned => simp [everywhere.expression assigned]
  | term loosest => exact loosest.legal everywhere

theorem IsAlternatives.legal {tree : Alternatives} (others : IsAlternatives inner words tree) :
    Legal words := by
  induction others with
  | none => simp
  | otherwise braced => simp [braced.legal everywhere]
  | branch tested braced others induction =>
      simp [tested.legal everywhere, braced.legal everywhere, induction]

theorem IsStatement.legal {tree : Statement} (statement : IsStatement inner words tree) :
    Legal words := by
  cases statement with
  | block braced => exact braced.legal everywhere
  | empty => simp
  | conditional tested braced others =>
      simp [tested.legal everywhere, braced.legal everywhere, others.legal everywhere]
  | whileLoop tested braced => simp [tested.legal everywhere, braced.legal everywhere]
  | forLoop first second third braced =>
      simp [everywhere.expression first, everywhere.expression second, everywhere.expression third,
        braced.legal everywhere]
  | foreachLoop item inside braced => simp [everywhere.expression inside, braced.legal everywhere]
  | repeatLoop counted braced => simp [counted.legal everywhere, braced.legal everywhere]
  | definition named defined => exact defined.legal everywhere
  | ret returned => simp [everywhere.expression returned]
  | breakLoop => simp
  | continueLoop => simp
  | expression evaluated unnamed => simp [everywhere.expression evaluated]

end Rules

theorem phrases_legal (depth : Nat) : (phrases depth).Legal := by
  induction depth with
  | zero => exact ⟨False.elim, False.elim, False.elim⟩
  | succ depth induction =>
      exact ⟨IsStatement.legal induction, IsExpression.legal induction, IsTerm.legal induction⟩

theorem IsProgram.legal {depth : Nat} {words : List Word} {program : Program}
    (derived : IsProgram depth words program) : Legal words :=
  Sequence.legal (phrases_legal depth).statement derived

end Easel.Grammar
