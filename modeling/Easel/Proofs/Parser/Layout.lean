import Easel.Proofs.Lexemes.Spacing
import Easel.Proofs.Parser.Compatibility

/-!
Readers do not look at places. On tokens that are the same words, wherever they stand, a reader
gives the same result and leaves the same words, or makes the same complaint about another place.
Since the words of a text do not depend on the blanks between its lexemes, neither does its program.
-/

namespace Easel

open Token (word)

/-- The complaints have nothing to tell them apart but the places they point at. -/
inductive SyntaxError.Alike : SyntaxError → SyntaxError → Prop where
  | unexpected (position place : Position) (lexeme : String) (expected : Expectation) :
      Alike (.unexpected position lexeme expected) (.unexpected place lexeme expected)
  | illegal (position place : Position) (lexeme : String) :
      Alike (.illegal position lexeme) (.illegal place lexeme)
  | invalidNumber (position place : Position) (lexeme : String) :
      Alike (.invalidNumber position lexeme) (.invalidNumber place lexeme)
  | unexpectedEnd (expected : Expectation) :
      Alike (.unexpectedEnd expected) (.unexpectedEnd expected)
  | tooDeep (position place : Position) (limit : Nat) :
      Alike (.tooDeep position limit) (.tooDeep place limit)

theorem SyntaxError.alike_atToken {token token' : Token} (same : token.word = token'.word)
    (expected : Expectation) : (atToken token expected).Alike (atToken token' expected) := by
  have kinds : token.kind = token'.kind := congrArg Word.kind same
  have lexemes : token.lexeme = token'.lexeme := congrArg Word.lexeme same
  unfold atToken
  rw [kinds, lexemes]
  split
  · exact .illegal _ _ _
  · exact .unexpected _ _ _ _

namespace Parser

variable {α β : Type}

inductive ReadAlike :
    Except SyntaxError (α × List Token) → Except SyntaxError (α × List Token) → Prop where
  | accepted {value : α} {rest rest' : List Token} (same : rest.map word = rest'.map word) :
      ReadAlike (.ok (value, rest)) (.ok (value, rest'))
  | refused {error error' : SyntaxError} (alike : error.Alike error') :
      ReadAlike (.error error) (.error error')

/-- On the same words the readers do the same. -/
def Placeless (reader reader' : Parser α) : Prop :=
  ∀ tokens tokens', tokens.map word = tokens'.map word → ReadAlike (reader tokens) (reader' tokens')

theorem Placeless.bind {reader reader' : Parser α} {next next' : α → Parser β}
    (first : Placeless reader reader') (second : ∀ value, Placeless (next value) (next' value)) :
    Placeless (reader >>= next) (reader' >>= next') := by
  intro tokens tokens' same
  have read := first tokens tokens' same
  simp only [bind_apply]
  generalize reader tokens = outcome at read ⊢
  generalize reader' tokens' = outcome' at read ⊢
  cases read with
  | accepted left => exact second _ _ _ left
  | refused alike => exact .refused alike

theorem placeless_throw {error error' : SyntaxError} (alike : error.Alike error') :
    Placeless (throw error : Parser α) (throw error') :=
  fun _ _ _ => .refused alike

theorem placeless_seen {next next' : Option Token → Parser α}
    (atEnd : Placeless (next none) (next' none))
    (atToken : ∀ token token', token.word = token'.word →
      Placeless (next (some token)) (next' (some token')))
    {seen seen' : Option Token} (same : seen.map word = seen'.map word) :
    Placeless (next seen) (next' seen') := by
  cases seen with
  | none =>
      rw [Option.map_eq_none_iff.mp same.symm]
      exact atEnd
  | some token =>
      rcases Option.map_eq_some_iff.mp same.symm with ⟨token', rfl, alike⟩
      exact atToken token token' alike.symm

theorem compatible_placeless :
    Compatible (fun token token' => token.word = token'.word) Placeless where
  word same := same
  pure _ _ _ same := .accepted same
  bind := Placeless.bind
  unexpectedEnd _ := placeless_throw (.unexpectedEnd _)
  atToken _ same := placeless_throw (SyntaxError.alike_atToken same _)
  invalidNumber _ _ _ := placeless_throw (.invalidNumber _ _ _)
  current? atEnd atToken := by
    intro tokens tokens' same
    have heads : tokens.head?.map word = tokens'.head?.map word := by
      rw [← List.head?_map, ← List.head?_map, same]
    rw [current?_bind, current?_bind]
    exact placeless_seen atEnd atToken heads tokens tokens' same
  following? atEnd atToken := by
    intro tokens tokens' same
    have seconds : tokens[1]?.map word = tokens'[1]?.map word := by
      rw [← List.getElem?_map, ← List.getElem?_map, same]
    rw [following?_bind, following?_bind]
    exact placeless_seen atEnd atToken seconds tokens tokens' same
  skip := by
    intro tokens tokens' same
    have rests : (tokens.drop 1).map word = (tokens'.drop 1).map word := by
      rw [List.map_drop, List.map_drop, same]
    exact .accepted rests

theorem placeless_tooDeep : Placeless (tooDeep : Parser α) tooDeep :=
  fun _ _ _ => .refused (.tooDeep _ _ nestingLimit)

theorem placeless_within (rounds room : Nat) :
    Placeless (statementWithin rounds room) (statementWithin rounds room) ∧
      ∀ precedence, Placeless (expressionWithin rounds room precedence)
        (expressionWithin rounds room precedence) := by
  exact compatible_placeless.within rounds 0 placeless_tooDeep (fun _ => placeless_tooDeep) room

end Parser

namespace Program

theorem ofTokens_of_same_words {tokens tokens' : List Token}
    (same : tokens.map word = tokens'.map word) :
    (∃ program, ofTokens tokens = .ok program ∧ ofTokens tokens' = .ok program) ∨
      ∃ error error', ofTokens tokens = .error error ∧ ofTokens tokens' = .error error' ∧
        error.Alike error' := by
  have rounds : tokens.length = tokens'.length := by
    rw [← List.length_map word, same, List.length_map]
  have statement := (Parser.placeless_within tokens'.length Parser.nestingLimit).1
  have read := Parser.compatible_placeless.statementsUntilEnd statement tokens'.length [] tokens
    tokens' same
  simp only [ofTokens, ofTokensWithin, StateT.run, rounds]
  generalize Parser.statementsUntilEnd _ _ _ tokens = outcome at read ⊢
  generalize Parser.statementsUntilEnd _ _ _ tokens' = outcome' at read ⊢
  cases read with
  | accepted _ => exact .inl ⟨_, rfl, rfl⟩
  | refused alike => exact .inr ⟨_, _, rfl, rfl, alike⟩

/-- A text whose lexemes are laid out anew, with one space between them, has the same words and is
the same program, or is refused for the same reason. -/
theorem layout_does_not_matter (source : String) :
    (Token.tokenize (Token.spaced source)).map word = (Token.tokenize source).map word ∧
      ((∃ program, parse source = .ok program ∧ parse (Token.spaced source) = .ok program) ∨
        ∃ error error', parse source = .error error ∧
          parse (Token.spaced source) = .error error' ∧ error.Alike error') := by
  have words := Token.map_word_tokenize_spaced source
  exact ⟨words, ofTokens_of_same_words words.symm⟩

end Program

end Easel
