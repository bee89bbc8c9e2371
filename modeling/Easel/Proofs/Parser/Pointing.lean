import Easel.Proofs.Lexemes.Places
import Easel.Proofs.Lexemes.Separation
import Easel.Proofs.Parser.Compatibility
import Easel.Proofs.Parser.Dispatch

/-!
Where complaints point. A reader refuses a token that it looks at, so the place that it gives is one
of the text's own, which are counted from one. Only the refusal to go further in is made before
there is a token to look at. If the text ends just there it points nowhere, at row and column zero;
with one more level of room the same text is refused for its end.
-/

namespace Easel

def SyntaxError.position? : SyntaxError → Option Position
  | .unexpected position _ _ | .illegal position _ | .invalidNumber position _
  | .tooDeep position _ => some position
  | .unexpectedEnd _ => none

theorem SyntaxError.position?_atToken (token : Token) (expected : Expectation) :
    (atToken token expected).position? = some token.position := by
  unfold atToken
  split <;> rfl

theorem Token.one_le_of_mem_tokenize {source : String} {token : Token}
    (member : token ∈ tokenize source) : 1 ≤ token.position.row ∧ 1 ≤ token.position.col := by
  rcases List.append_of_mem member with ⟨found, later, read⟩
  rcases exists_start [] read with ⟨skipped, c, following, _, _, same, _⟩
  rw [same]
  exact ⟨Nat.le_add_right 1 _, Nat.le_add_right 1 _⟩

theorem Token.words_parentheses (count : Nat) :
    Token.words (List.replicate count '(') = List.replicate count (.symbol "(") := by
  induction count with
  | zero => exact words_nil
  | succ count induction =>
      rw [List.replicate_succ, words_symbol (by decide), induction, List.replicate_succ]

namespace Parser

variable {α β : Type} {source : List Token}

/-- How reading ends, and how it ends with one more level of room: alike, with a complaint that
points at a token of the source if it points anywhere, or the first goes no further in. -/
inductive EndPointed (source : List Token) :
    Except SyntaxError (α × List Token) → Except SyntaxError (α × List Token) → Prop where
  | accepted {value : α} {rest : List Token} (left : ∀ token ∈ rest, token ∈ source) :
      EndPointed source (.ok (value, rest)) (.ok (value, rest))
  | refused {error : SyntaxError} {token : Token} (member : token ∈ source)
      (points : error.position? = some token.position) :
      EndPointed source (.error error) (.error error)
  | ended (expected : Expectation) :
      EndPointed source (.error (.unexpectedEnd expected)) (.error (.unexpectedEnd expected))
  | tooDeep {token : Token} (member : token ∈ source)
      (other : Except SyntaxError (α × List Token)) :
      EndPointed source (.error (.tooDeep token.position nestingLimit)) other
  | nowhere (expected : Expectation) :
      EndPointed source (.error (.tooDeep ⟨0, 0⟩ nestingLimit)) (.error (.unexpectedEnd expected))

def Pointed (source : List Token) (reader deeper : Parser α) : Prop :=
  ∀ tokens, (∀ token ∈ tokens, token ∈ source) → EndPointed source (reader tokens) (deeper tokens)

theorem Pointed.bind {reader deeper : Parser α} {next nextDeeper : α → Parser β}
    (first : Pointed source reader deeper)
    (second : ∀ value, Pointed source (next value) (nextDeeper value)) :
    Pointed source (reader >>= next) (deeper >>= nextDeeper) := by
  intro tokens members
  have read := first tokens members
  simp only [bind_apply]
  generalize reader tokens = outcome at read ⊢
  generalize deeper tokens = outcomeDeeper at read ⊢
  cases read with
  | accepted left => exact second _ _ left
  | refused member points => exact .refused member points
  | ended expected => exact .ended expected
  | tooDeep member other => exact .tooDeep member _
  | nowhere expected => exact .nowhere expected

theorem pointed_seen {next nextDeeper : Option Token → Parser α}
    (atEnd : Pointed source (next none) (nextDeeper none))
    (atToken : ∀ token token', token = token' ∧ token ∈ source →
      Pointed source (next (some token)) (nextDeeper (some token')))
    {seen : Option Token} (known : ∀ token ∈ seen, token ∈ source) :
    Pointed source (next seen) (nextDeeper seen) := by
  cases seen with
  | none => exact atEnd
  | some token => exact atToken token token ⟨rfl, known token rfl⟩

theorem compatible_pointed (source : List Token) :
    Compatible (fun token token' => token = token' ∧ token ∈ source) (Pointed source) where
  word alike := congrArg Token.word alike.1
  pure _ _ members := .accepted members
  bind := Pointed.bind
  unexpectedEnd {_ expected} _ _ _ := .ended expected
  atToken {_ token token' expected} _ alike := by
    rcases alike with ⟨rfl, member⟩
    exact fun _ _ => .refused member (SyntaxError.position?_atToken token expected)
  invalidNumber {_ token token'} alike _ _ := by
    rcases alike with ⟨rfl, member⟩
    exact fun _ _ => .refused member rfl
  current? atEnd atToken := by
    intro tokens members
    rw [current?_bind, current?_bind]
    have known : ∀ token ∈ tokens.head?, token ∈ source :=
      fun token head => members token (List.mem_of_head? head)
    exact pointed_seen atEnd atToken known tokens members
  following? atEnd atToken := by
    intro tokens members
    rw [following?_bind, following?_bind]
    have known : ∀ token ∈ tokens[1]?, token ∈ source :=
      fun token second => members token (List.mem_of_getElem? second)
    exact pointed_seen atEnd atToken known tokens members
  skip tokens members := .accepted fun token member => members token (List.mem_of_mem_drop member)

/-- Where a reader would complain about the end, the refusal to go further in has no place. -/
theorem pointed_tooDeep {deeper : Parser α} {expected : Expectation}
    (atEnd : deeper [] = .error (.unexpectedEnd expected)) : Pointed source tooDeep deeper := by
  intro tokens members
  cases tokens with
  | nil =>
      rw [atEnd]
      exact .nowhere expected
  | cons token rest => exact .tooDeep (members token List.mem_cons_self) _

theorem pointed_within (source : List Token) (rounds room : Nat) :
    Pointed source (statementWithin rounds room) (statementWithin rounds (room + 1)) ∧
      ∀ precedence, Pointed source (expressionWithin rounds room precedence)
        (expressionWithin rounds (room + 1) precedence) := by
  exact (compatible_pointed source).within rounds 1 (pointed_tooDeep rfl)
    (fun _ => pointed_tooDeep rfl) room

theorem expressionWithin_parentheses (rounds : Nat) (precedence : Precedence) {tokens : List Token}
    (parentheses : ∀ token ∈ tokens, token.word = .symbol "(") :
    expressionWithin rounds tokens.length precedence tokens =
      .error (.tooDeep ⟨0, 0⟩ nestingLimit) := by
  induction tokens generalizing precedence with
  | nil => rfl
  | cons token rest induction =>
      have first : token.word = .symbol "(" := parentheses token List.mem_cons_self
      have opened : Token.Takes (token :: rest) [.symbol "("] rest :=
        Token.Takes.single_iff.mpr ⟨token, rfl, first⟩
      have inside := induction .lowest fun token member =>
        parentheses token (List.mem_cons_of_mem _ member)
      rw [List.length_cons, expressionWithin, expression, bind_apply, operand_parenthesis opened,
        bind_apply]
      dsimp only
      rw [inside]

theorem ofTokensWithin_parentheses {token : Token} {rest : List Token}
    (parentheses : ∀ other ∈ token :: rest, other.word = .symbol "(") :
    Program.ofTokensWithin (rest.length + 2) (token :: rest) =
      .error (.tooDeep ⟨0, 0⟩ nestingLimit) := by
  have first : token.word = .symbol "(" := parentheses token List.mem_cons_self
  have inside := expressionWithin_parentheses (rest.length + 1) .lowest parentheses
  rw [List.length_cons] at inside
  have begun : Token.Takes (token :: rest) [.symbol "("] rest :=
    Token.Takes.single_iff.mpr ⟨token, rfl, first⟩
  have statement : statementWithin (rest.length + 1) (rest.length + 2) (token :: rest) =
      .error (.tooDeep ⟨0, 0⟩ nestingLimit) := by
    rw [statementWithin, statement_of_takes begun,
      statementBegunBy_of_other (by decide) (by decide), expressionStatement, bind_apply]
    dsimp only
    rw [inside]
  simp only [Program.ofTokensWithin, StateT.run, List.length_cons]
  rw [statementsUntilEnd, current?_bind]
  dsimp only [List.head?_cons]
  rw [bind_apply, statement]
  rfl

end Parser

namespace Program

theorem ofTokensWithin_pointed {tokens : List Token} {room : Nat} {error : SyntaxError}
    (failed : ofTokensWithin room tokens = .error error) :
    (∃ token ∈ tokens, error.position? = some token.position) ∨
      (∃ expected, error = .unexpectedEnd expected) ∨
      error = .tooDeep ⟨0, 0⟩ Parser.nestingLimit ∧
        ∃ expected, ofTokensWithin (room + 1) tokens = .error (.unexpectedEnd expected) := by
  have statement := (Parser.pointed_within tokens tokens.length room).1
  have read := (Parser.compatible_pointed tokens).statementsUntilEnd statement tokens.length []
    tokens fun _ member => member
  simp only [ofTokensWithin, StateT.run] at failed ⊢
  generalize Parser.statementsUntilEnd (Parser.statementWithin tokens.length room) tokens.length []
    tokens = outcome at read failed
  generalize Parser.statementsUntilEnd (Parser.statementWithin tokens.length (room + 1))
    tokens.length [] tokens = outcomeDeeper at read ⊢
  cases read with
  | accepted left => cases failed
  | @refused error token member points =>
      cases failed
      exact .inl ⟨token, member, points⟩
  | ended expected =>
      cases failed
      exact .inr (.inl ⟨expected, rfl⟩)
  | @tooDeep token member other =>
      cases failed
      exact .inl ⟨token, member, rfl⟩
  | nowhere expected =>
      cases failed
      exact .inr (.inr ⟨rfl, expected, rfl⟩)

/-- A complaint gives the place of a token, or none of the text's where that ends at the full
depth. -/
theorem error_points_at_token_or_nowhere (source : String) (error : SyntaxError)
    (position : Position) (failed : parse source = .error error)
    (points : error.position? = some position) :
    (∃ token ∈ Token.tokenize source, token.position = position ∧ 1 ≤ position.row ∧
      1 ≤ position.col) ∨
    error = .tooDeep ⟨0, 0⟩ Parser.nestingLimit ∧
      ∃ expected, ofTokensWithin (Parser.nestingLimit + 1) (Token.tokenize source) =
        .error (.unexpectedEnd expected) := by
  rcases ofTokensWithin_pointed failed with ⟨token, member, known⟩ | ⟨expected, rfl⟩ | nowhere
  · have same : token.position = position := Option.some.inj (known.symm.trans points)
    left
    exact ⟨token, member, same, same ▸ Token.one_le_of_mem_tokenize member⟩
  · cases points
  · exact .inr nowhere

theorem parse_parentheses : parse (String.ofList (List.replicate 511 '(')) =
    .error (.tooDeep ⟨0, 0⟩ Parser.nestingLimit) := by
  have words : (Token.tokenize (String.ofList (List.replicate 511 '('))).map Token.word =
      List.replicate 511 (.symbol "(") := by
    rw [Token.map_word_tokenize, String.toList_ofList]
    exact Token.words_parentheses 511
  rw [parse, ofTokens]
  generalize Token.tokenize (String.ofList (List.replicate 511 '(')) = tokens at words ⊢
  have parentheses : ∀ token ∈ tokens, token.word = .symbol "(" := by
    intro token member
    have spelled := List.mem_map_of_mem (f := Token.word) member
    rw [words] at spelled
    exact List.eq_of_mem_replicate spelled
  have count : tokens.length = 511 := by
    rw [← List.length_map Token.word, words, List.length_replicate]
  cases tokens with
  | nil => cases count
  | cons token rest =>
      have read := Parser.ofTokensWithin_parentheses parentheses
      rw [Nat.succ.inj count] at read
      exact read

theorem error_points_at_token_or_nowhere_parentheses :
    let source := String.ofList (List.replicate 511 '(')
    let error : SyntaxError := .tooDeep ⟨0, 0⟩ Parser.nestingLimit
    parse source = .error error ∧ error.position? = some ⟨0, 0⟩ ∧
      ((∃ token ∈ Token.tokenize source, token.position = ⟨0, 0⟩ ∧ 1 ≤ 0 ∧ 1 ≤ 0) ∨
        error = .tooDeep ⟨0, 0⟩ Parser.nestingLimit ∧
          ∃ expected, ofTokensWithin (Parser.nestingLimit + 1) (Token.tokenize source) =
            .error (.unexpectedEnd expected)) := by
  intro source error
  exact ⟨parse_parentheses, rfl,
    error_points_at_token_or_nowhere source error ⟨0, 0⟩ parse_parentheses rfl⟩

end Program

end Easel
