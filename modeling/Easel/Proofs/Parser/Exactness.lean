import Easel.Proofs.Grammar.Nesting
import Easel.Proofs.Parser.Completeness

/-!
The reader and the grammar agree. A list of tokens that a text can have is read as a program
exactly if the grammar derives the program from their words within the nesting limit, and the
words of a program have no second tree, at whatever depth.
-/

namespace Easel.Parser

open Grammar

variable {tokens : List Token} {program : Program}

theorem ofTokensWithin_eq_ok_iff_isProgram (lexed : ∀ token ∈ tokens, token.IsLexed) (room : Nat) :
    Program.ofTokensWithin room tokens = .ok program ↔
      IsProgram room (tokens.map Token.word) program := by
  constructor
  · intro success
    exact ofTokensWithin_sound lexed success
  · intro derived
    exact ofTokensWithin_complete lexed derived

theorem parse_eq_ok_iff_isProgram {source : String} :
    Program.parse source = .ok program ↔
      IsProgram nestingLimit (Token.words source.toList) program := by
  have lexed : ∀ token ∈ Token.tokenize source, token.IsLexed :=
    fun _ => Token.isLexed_of_mem_tokenize
  rw [← Token.map_word_tokenize]
  exact ofTokensWithin_eq_ok_iff_isProgram lexed nestingLimit

/-- A term with a semicolon is a program, unless it begins as the definition of a function does. -/
theorem parse_eq_ok_of_isTerm {source : String} {words : List Word} {level : Precedence}
    {tree : Expression} (spelled : Token.words source.toList = words ++ [.symbol ";"])
    (term : IsTerm (phrases (nestingLimit - 2)) level words tree)
    (loose : Precedence.logical.rank ≤ level.rank) (unnamed : ¬BeginsDefinition words) :
    Program.parse source = .ok [.expression tree] := by
  have expression : IsExpression (phrases (nestingLimit - 2)) words tree :=
    .term (term.loosen loose (by decide))
  have statement : IsStatement (phrases (nestingLimit - 1)) (words ++ [.symbol ";"])
      (.expression tree) :=
    .expression expression unnamed
  rw [parse_eq_ok_iff_isProgram, spelled, ← List.append_nil (_ ++ _)]
  exact .cons statement .nil

theorem isProgram_unique (lexed : ∀ token ∈ tokens, token.IsLexed) {depth deeper : Nat}
    {other : Program} (derived : IsProgram depth (tokens.map Token.word) program)
    (otherDerived : IsProgram deeper (tokens.map Token.word) other) : program = other := by
  have read := ofTokensWithin_complete lexed (derived.deepen (Nat.le_max_left depth deeper))
  have otherRead := ofTokensWithin_complete lexed (otherDerived.deepen (Nat.le_max_right depth deeper))
  rw [read] at otherRead
  exact Except.ok.inj otherRead

end Easel.Parser
