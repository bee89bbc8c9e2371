import Easel.Proofs.Grammar
import Easel.Proofs.Number.Bits
import Easel.Proofs.Trees

/-!
What a tree is like if it was read from a text: its names are names, its texts are quoted, its
numbers have no sign, only identifiers are incremented from behind, and functions that are
defined by a statement have a name.
-/

namespace Easel

open Grammar

def IsName (name : String) : Prop :=
  Token.HasShape .identifier name.toList

def Literal.IsWritten : Literal → Prop
  | .number value => ∃ magnitude ≤ Number.infinityBits, value = Number.ofMagnitude false magnitude
  | .text quoted => Token.HasShape .text quoted.toList

def Definition.IsWritten (definition : Definition) : Prop :=
  (∀ name ∈ definition.name, IsName name) ∧ ∀ parameter ∈ definition.parameters, IsName parameter

def Expression.IsWritten : Expression → Prop
  | .identifier name | .assign _ name _ | .call name _ => IsName name
  | .literal value => value.IsWritten
  | .unary operator operand =>
      operator.isAfterOperand = true → ∃ name, operand = .identifier name
  | .function definition => definition.IsWritten
  | .binary _ _ _ | .list _ => True

def Statement.IsWritten : Statement → Prop
  | .foreachLoop item _ _ => IsName item
  | .definition function => function.name.isSome = true ∧ function.IsWritten
  | _ => True

def written : Trait := ⟨Expression.IsWritten, Statement.IsWritten⟩

namespace Grammar

/-- The words have the shapes that the lexer gives to words of their classes. -/
def Shaped (words : List Word) : Prop :=
  ∀ word ∈ words, Token.HasShape word.kind word.lexeme.toList

theorem Shaped.of_append {words more : List Word} (shaped : Shaped (words ++ more)) :
    Shaped words ∧ Shaped more :=
  List.forall_mem_append.mp shaped

theorem Shaped.of_cons {word : Word} {words : List Word} (shaped : Shaped (word :: words)) :
    Token.HasShape word.kind word.lexeme.toList ∧ Shaped words :=
  List.forall_mem_cons.mp shaped

/-- All trees of these phrases are written. -/
structure Phrases.Written (inner : Phrases) : Prop where
  statement : ∀ {words tree}, inner.statement words tree → Shaped words → tree.Every written
  expression : ∀ {words tree}, inner.expression words tree → Shaped words → tree.Every written
  term : ∀ {level words tree}, inner.term level words tree → Shaped words → tree.Every written

theorem isWritten_numeral (lexeme : String) : (Literal.number (numeral lexeme)).IsWritten := by
  unfold numeral Number.nearest
  dsimp only
  split
  · exact ⟨0, Nat.zero_le _, rfl⟩
  · exact ⟨_, Nat.min_le_right _ _, rfl⟩

theorem IsFunction.isSome_name {inner : Phrases} {words : List Word} {definition : Definition}
    (defined : IsFunction inner words definition) (named : BeginsDefinition words) :
    definition.name.isSome = true := by
  cases defined with
  | named name listed braced => rfl
  | unnamed listed braced =>
      obtain ⟨name, rest, begun⟩ := named
      cases listed with
      | empty => cases begun
      | items separated => cases begun

section Rules

variable {inner : Phrases} (everywhere : inner.Written) {words : List Word} (shaped : Shaped words)

include shaped

theorem IsParameter.written {name : String} (parameter : IsParameter words name) : IsName name := by
  cases parameter
  exact shaped.of_cons.1

theorem Separated.written {Tree : Type} {phrase : List Word → Tree → Prop} {trees : List Tree}
    {holds : Tree → Prop} (each : ∀ {words tree}, phrase words tree → Shaped words → holds tree)
    (separated : Separated phrase words trees) : ∀ tree ∈ trees, holds tree := by
  induction separated with
  | last only =>
      intro tree member
      cases List.mem_singleton.mp member
      exact each only shaped
  | cons head tail induction =>
      have parts := shaped.of_append
      exact List.forall_mem_cons.mpr
        ⟨each head parts.1, induction parts.2.of_cons.2⟩

theorem Listed.written {Tree : Type} {phrase : List Word → Tree → Prop} {trees : List Tree}
    {opening closing : String} {holds : Tree → Prop}
    (each : ∀ {words tree}, phrase words tree → Shaped words → holds tree)
    (listed : Listed phrase opening closing words trees) : ∀ tree ∈ trees, holds tree := by
  cases listed with
  | empty =>
      intro tree member
      cases member
  | items separated => exact separated.written shaped.of_cons.2.of_append.1 each

include everywhere

theorem Sequence.written {trees : List Statement}
    (sequence : Sequence inner.statement words trees) : Statement.EveryEach written trees := by
  induction sequence with
  | nil => trivial
  | cons head tail induction =>
      have parts := shaped.of_append
      exact ⟨everywhere.statement head parts.1, induction parts.2⟩

theorem IsBody.written {trees : List Statement} (braced : IsBody inner words trees) :
    Statement.EveryEach written trees := by
  cases braced with
  | braced statements => exact statements.written everywhere shaped.of_cons.2.of_append.1

theorem IsCondition.written {tree : Expression} (condition : IsCondition inner words tree) :
    tree.Every written := by
  cases condition with
  | parenthesised inside => exact everywhere.expression inside shaped.of_cons.2.of_append.1

theorem IsFunction.written {definition : Definition} (defined : IsFunction inner words definition) :
    definition.IsWritten ∧ definition.Every Easel.written := by
  cases defined with
  | named name listed braced =>
      have named := shaped.of_cons.2.of_cons
      have parts := named.2.of_append
      refine ⟨⟨?_, listed.written parts.1 fun parameter shaped => parameter.written shaped⟩,
        braced.written everywhere parts.2⟩
      intro other same
      cases same
      exact named.1
  | unnamed listed braced =>
      have parts := shaped.of_cons.2.of_append
      refine ⟨⟨?_, listed.written parts.1 fun parameter shaped => parameter.written shaped⟩,
        braced.written everywhere parts.2⟩
      intro other same
      cases same

theorem IsPrimary.written {tree : Expression} (primary : IsPrimary inner words tree) :
    tree.Every Easel.written := by
  cases primary with
  | parenthesised inside => exact everywhere.expression inside shaped.of_cons.2.of_append.1
  | number lexeme => exact isWritten_numeral lexeme
  | text lexeme => exact shaped.of_cons.1
  | identifier name => exact shaped.of_cons.1
  | call name listed =>
      have parts := shaped.of_cons
      exact ⟨parts.1, Expression.everyEach_iff.mpr (listed.written parts.2 everywhere.expression)⟩
  | increment name after => exact ⟨fun _ => ⟨name, rfl⟩, shaped.of_cons.1⟩
  | list listed =>
      exact ⟨trivial, Expression.everyEach_iff.mpr (listed.written shaped everywhere.expression)⟩
  | function defined => exact defined.written everywhere shaped

theorem IsTerm.written {level : Precedence} {tree : Expression}
    (term : IsTerm inner level words tree) : tree.Every Easel.written := by
  induction term with
  | primary operand => exact operand.written everywhere shaped
  | @unary operator _ _ before operand =>
      refine ⟨?_, everywhere.term operand shaped.of_cons.2⟩
      intro after
      rw [before] at after
      cases after
  | index container inside induction =>
      have parts := shaped.of_append.1.of_append
      exact ⟨trivial, induction parts.1, everywhere.expression inside parts.2.of_cons.2⟩
  | binary _ first second induction =>
      have parts := shaped.of_append
      exact ⟨trivial, induction parts.1, everywhere.term second parts.2.of_cons.2⟩
  | tighter _ term induction => exact induction shaped

theorem IsExpression.written {tree : Expression} (expression : IsExpression inner words tree) :
    tree.Every Easel.written := by
  cases expression with
  | assign operator name assigned =>
      have parts := shaped.of_cons
      exact ⟨parts.1, everywhere.expression assigned parts.2.of_cons.2⟩
  | term loosest => exact loosest.written everywhere shaped

theorem IsAlternatives.written {tree : Alternatives} (others : IsAlternatives inner words tree) :
    tree.Every Easel.written := by
  induction others with
  | none => trivial
  | otherwise braced => exact braced.written everywhere shaped.of_cons.2
  | branch tested braced others induction =>
      have parts := shaped.of_append
      have branch := parts.1.of_append
      exact ⟨tested.written everywhere branch.1.of_cons.2, braced.written everywhere branch.2,
        induction parts.2⟩

theorem IsStatement.written {tree : Statement} (statement : IsStatement inner words tree) :
    tree.Every Easel.written := by
  cases statement with
  | block braced => exact ⟨trivial, braced.written everywhere shaped⟩
  | empty => trivial
  | conditional tested braced others =>
      have parts := shaped.of_append
      have branch := parts.1.of_append
      exact ⟨trivial, tested.written everywhere branch.1.of_cons.2,
        braced.written everywhere branch.2, others.written everywhere parts.2⟩
  | whileLoop tested braced =>
      have parts := shaped.of_append
      exact ⟨trivial, tested.written everywhere parts.1.of_cons.2,
        braced.written everywhere parts.2⟩
  | forLoop first second third braced =>
      have parts := shaped.of_append
      have header := parts.1.of_append
      have starting := header.1.of_append
      exact ⟨trivial, everywhere.expression first starting.1.of_cons.2.of_cons.2,
        everywhere.expression second starting.2.of_cons.2,
        everywhere.expression third header.2.of_cons.2, braced.written everywhere parts.2.of_cons.2⟩
  | foreachLoop item inside braced =>
      have parts := shaped.of_append
      have named := parts.1.of_cons.2.of_cons.2.of_cons
      exact ⟨named.1, everywhere.expression inside named.2.of_cons.2,
        braced.written everywhere parts.2.of_cons.2⟩
  | repeatLoop counted braced =>
      have parts := shaped.of_append
      exact ⟨trivial, counted.written everywhere parts.1.of_cons.2,
        braced.written everywhere parts.2⟩
  | definition named defined =>
      have function := defined.written everywhere shaped
      exact ⟨⟨defined.isSome_name named, function.1⟩, function.2⟩
  | ret returned => exact ⟨trivial, everywhere.expression returned shaped.of_cons.2.of_append.1⟩
  | breakLoop => trivial
  | continueLoop => trivial
  | expression evaluated _ => exact ⟨trivial, everywhere.expression evaluated shaped.of_append.1⟩

end Rules

theorem phrases_written (depth : Nat) : (phrases depth).Written := by
  induction depth with
  | zero => exact ⟨False.elim, False.elim, False.elim⟩
  | succ depth induction =>
      exact ⟨fun statement shaped => statement.written induction shaped,
        fun expression shaped => expression.written induction shaped,
        fun term shaped => term.written induction shaped⟩

theorem IsProgram.written {depth : Nat} {words : List Word} {program : Program}
    (derived : IsProgram depth words program) (shaped : Shaped words) :
    Statement.EveryEach Easel.written program :=
  Sequence.written (phrases_written depth) shaped derived

end Grammar

end Easel
