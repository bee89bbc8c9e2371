import Easel.Proofs.Evaluation.Avoiding
import Easel.Proofs.Interpreter.Pieces
import Easel.Proofs.Lexemes
import Easel.Proofs.Parser.Compatibility
import Mathlib.Data.List.DropRight

/-!
Defenses that are never needed. The reader could find that a number is none, or that there is no
operator where it has just seen one, and an operator on numbers could turn out to be unknown. None of
this happens, and each for a reason that lies elsewhere: a token is a number only if its digits can be
read, what goes on is decided by the table that the operator is then looked up in, and a number comes
to an operator only where that operator is defined on numbers. Only a loader can fail as if one were
needed, since a host may let it fail as it likes.
-/

namespace Easel

/-- A complaint that the reader could make only if the lexer and its own tables were at odds. -/
def SyntaxError.IsDefensive : SyntaxError → Prop
  | .invalidNumber _ _ => True
  | .unexpected _ _ expected => expected.text = "a binary operator"
  | .unexpectedEnd expected => expected.text = "an operator"
  | .illegal _ _ | .tooDeep _ _ => False

/-- A failure with such a complaint, be it about a unit, or for an operator that two numbers do not
know. -/
def Failure.IsDefensive : Failure → Prop
  | .misread error => error.IsDefensive
  | .runtime (.unknownBinary left _ right) => left = .number ∧ right = .number
  | _ => False

/-- A failure by a defense that is not the loader's own. -/
def Failure.IsUnprovoked (loader : Source.Loader) (cause : Failure) : Prop :=
  cause.IsDefensive ∧ ¬loader.Fails cause

namespace Decimal

def IsStrict (characters : List Char) : Prop :=
  ∃ digits ≠ [], (∀ c ∈ digits, c.isDigit = true) ∧
    (characters = digits ∨ ∃ places ≠ [], (∀ c ∈ places, c.isDigit = true) ∧
      characters = digits ++ '.' :: places)

def withoutLastPoints (characters : List Char) : List Char :=
  characters.rdropWhile (· = '.')

theorem withoutLastPoints_append (front : List Char) {digits : List Char} (some : digits ≠ [])
    (all : ∀ c ∈ digits, c.isDigit = true) :
    withoutLastPoints (front ++ digits) = front ++ digits := by
  obtain ⟨first, c, rfl⟩ := (List.eq_nil_or_concat' digits).resolve_left some
  have last : ¬decide (c = '.') = true := by
    rw [decide_eq_true_eq]
    rintro rfl
    cases all '.' (by simp)
  rw [← List.append_assoc]
  exact List.rdropWhile_concat_neg _ _ _ last

theorem read?_append_point {digits : List Char} (all : ∀ c ∈ digits, c.isDigit = true) :
    read? (digits ++ ['.']) = read? digits := by
  have points := Token.ne_point_of_isDigit all
  have taken : digits.takeWhile (· ≠ '.') = digits := List.takeWhile_eq_self_iff.mpr points
  have dropped : digits.dropWhile (· ≠ '.') = [] := List.dropWhile_eq_nil_iff.mpr points
  have takenPoint : (digits ++ ['.']).takeWhile (· ≠ '.') = digits := by
    rw [List.takeWhile_append_of_pos points]
    simp
  have droppedPoint : (digits ++ ['.']).dropWhile (· ≠ '.') = ['.'] := by
    rw [List.dropWhile_append_of_pos points]
    simp
  unfold read? isUnsigned ofDigits
  rw [taken, dropped, takenPoint, droppedPoint]
  rfl

theorem isStrict_withoutLastPoints {characters : List Char} (numeral : Token.IsNumeral characters) :
    IsStrict (withoutLastPoints characters) ∧
      read? (withoutLastPoints characters) = read? characters := by
  cases numeral with
  | whole some all =>
      have kept : withoutLastPoints characters = characters :=
        withoutLastPoints_append [] some all
      rw [kept]
      exact ⟨⟨characters, some, all, .inl rfl⟩, rfl⟩
  | @fraction digits places some all allPlaces =>
      by_cases pointed : places = []
      · subst pointed
        have kept : withoutLastPoints (digits ++ ['.']) = digits := by
          have dropped := List.rdropWhile_concat_pos (· = '.') digits '.' (by simp)
          exact dropped.trans (withoutLastPoints_append [] some all)
        rw [kept, read?_append_point all]
        exact ⟨⟨digits, some, all, .inl rfl⟩, rfl⟩
      · have kept : withoutLastPoints (digits ++ '.' :: places) = digits ++ '.' :: places := by
          rw [List.append_cons]
          exact withoutLastPoints_append _ pointed allPlaces
        rw [kept]
        exact ⟨⟨digits, some, all, .inr ⟨places, pointed, allPlaces, rfl⟩⟩, rfl⟩

end Decimal

theorem Expectation.Arises.text_ne {expected : Expectation} (arises : expected.Arises) :
    expected.text ≠ "a binary operator" ∧ expected.text ≠ "an operator" := by
  cases expected with
  | symbol lexeme | separatorOr closing =>
      simp [text, ← String.toList_inj]
  | identifier | statement | expression => decide
  | operator | binaryOperator => exact arises.elim

namespace Parser

variable {α β : Type}

inductive EndsPlainly : Except SyntaxError (α × List Token) → Prop where
  | accepted {value : α} {rest : List Token} (lexed : ∀ token ∈ rest, token.IsLexed) :
      EndsPlainly (.ok (value, rest))
  | refused {error : SyntaxError} (needed : ¬error.IsDefensive) : EndsPlainly (.error error)

def Plain (reader : Parser α) : Prop :=
  ∀ tokens, (∀ token ∈ tokens, token.IsLexed) → EndsPlainly (reader tokens)

theorem Plain.bind {reader : Parser α} {next : α → Parser β} (first : Plain reader)
    (second : ∀ value, Plain (next value)) : Plain (reader >>= next) := by
  intro tokens lexed
  have read := first tokens lexed
  rw [bind_apply]
  generalize reader tokens = outcome at read ⊢
  cases read with
  | accepted left => exact second _ _ left
  | refused needed => exact .refused needed

theorem plain_throw {error : SyntaxError} (needed : ¬error.IsDefensive) :
    Plain (throw error : Parser α) :=
  fun _ _ => .refused needed

theorem plain_seen {next : Option Token → Parser α} (atEnd : Plain (next none))
    (atToken : ∀ token token', token = token' ∧ token.IsLexed → Plain (next (some token)))
    {seen : Option Token} (known : ∀ token ∈ seen, token.IsLexed) : Plain (next seen) := by
  cases seen with
  | none => exact atEnd
  | some token => exact atToken token token ⟨rfl, known token rfl⟩

theorem compatible_plain :
    Compatible (fun token token' => token = token' ∧ token.IsLexed) (fun reader _ => Plain reader) where
  word alike := congrArg Token.word alike.1
  pure _ _ lexed := .accepted lexed
  bind := Plain.bind
  unexpectedEnd arises := plain_throw arises.text_ne.2
  atToken {_ token _ _} arises _ := by
    apply plain_throw
    unfold SyntaxError.atToken
    split
    · exact id
    · exact arises.text_ne.1
  invalidNumber {_ token token'} alike isNumber unreadable := by
    rcases alike with ⟨rfl, lexed⟩
    have shape := lexed.hasShape
    rw [isNumber] at shape
    have readable := Decimal.read?_of_isNumeral shape
    rw [unreadable] at readable
    cases readable
  current? atEnd atToken := by
    intro tokens lexed
    rw [current?_bind]
    have known : ∀ token ∈ tokens.head?, token.IsLexed :=
      fun token head => lexed token (List.mem_of_head? head)
    exact plain_seen atEnd atToken known tokens lexed
  following? atEnd atToken := by
    intro tokens lexed
    rw [following?_bind]
    have known : ∀ token ∈ tokens[1]?, token.IsLexed :=
      fun token second => lexed token (List.mem_of_getElem? second)
    exact plain_seen atEnd atToken known tokens lexed
  skip _ lexed := .accepted fun token member => lexed token (List.mem_of_mem_drop member)

theorem plain_within (rounds room : Nat) :
    Plain (statementWithin rounds room) ∧
      ∀ precedence, Plain (expressionWithin rounds room precedence) := by
  have refused : ∀ {α : Type}, Plain (tooDeep : Parser α) := fun _ _ => .refused id
  exact compatible_plain.within rounds 0 refused (fun _ => refused) room

theorem not_isDefensive_of_ofTokensWithin {tokens : List Token}
    (lexed : ∀ token ∈ tokens, token.IsLexed) {room : Nat} {error : SyntaxError}
    (refused : Program.ofTokensWithin room tokens = .error error) : ¬error.IsDefensive := by
  have statement := (plain_within tokens.length room).1
  have read := @Compatible.statementsUntilEnd _ _ compatible_plain _
    (statementWithin tokens.length room) statement tokens.length [] tokens lexed
  simp only [Program.ofTokensWithin, StateT.run] at refused
  generalize statementsUntilEnd (statementWithin tokens.length room) tokens.length [] tokens =
    outcome at read refused
  cases read with
  | accepted left => cases refused
  | refused needed =>
      cases refused
      exact needed

end Parser

theorem Program.not_isDefensive_of_parse {source : String} {error : SyntaxError}
    (refused : parse source = .error error) : ¬error.IsDefensive :=
  Parser.not_isDefensive_of_ofTokensWithin (fun _ => Token.isLexed_of_mem_tokenize) refused

namespace Evaluation

theorem not_isDefensive_of_arisesElsewhere {cause : Failure} (arises : ArisesElsewhere cause) :
    ¬cause.IsDefensive := by
  cases cause with
  | misread error =>
      obtain ⟨source, refused⟩ := arises
      exact Program.not_isDefensive_of_parse refused
  | runtime error =>
      cases error with
      | unknownBinary => exact arises.elim
      | _ => exact id
  | raised message => exact id

theorem not_isDefensive_of_binary (operator : BinaryOperator) (left right : Value)
    (cause : RuntimeError) (refused : Value.binary operator left right = .error (.error cause)) :
    ¬(Failure.runtime cause).IsDefensive := by
  have refusal := Value.refuses_binary operator left right cause refused
  cases cause with
  | unknownBinary => exact refusal
  | _ => exact id

theorem not_isUnprovoked_of_arisesElsewhere (loader : Source.Loader) (cause : Failure)
    (arises : ArisesElsewhere cause) : ¬Failure.IsUnprovoked loader cause :=
  fun unprovoked => not_isDefensive_of_arisesElsewhere arises unprovoked.1

theorem not_isUnprovoked_of_binary (loader : Source.Loader) (operator : BinaryOperator)
    (left right : Value) (cause : RuntimeError)
    (refused : Value.binary operator left right = .error (.error cause)) :
    ¬Failure.IsUnprovoked loader (.runtime cause) :=
  fun unprovoked => not_isDefensive_of_binary operator left right cause refused unprovoked.1

theorem spares_isUnprovoked (loader : Source.Loader) : loader.Spares (Failure.IsUnprovoked loader) :=
  fun _ fails unprovoked => unprovoked.2 fails

theorem avoids_isUnprovoked_program (tree : Program) : Avoids Failure.IsUnprovoked (program tree) :=
  avoids_program not_isUnprovoked_of_arisesElsewhere not_isUnprovoked_of_binary spares_isUnprovoked
    tree

end Evaluation

namespace Interpreter

open Evaluation

theorem fails_of_isDefensive (interpreter : Interpreter) {source : String} {machine : Machine}
    {cause : Failure} (failed : (interpreter.run source machine).1 = .error (.failure cause))
    (defensive : cause.IsDefensive) : interpreter.loader.Fails cause := by
  rcases interpreter.failure_of_run failed with ⟨error, refused, rfl⟩ | ⟨tree, after, _, ended⟩ |
    ⟨fault, rfl⟩
  · exact absurd defensive (Program.not_isDefensive_of_parse refused)
  · by_contra spares
    have avoids := avoids_isUnprovoked_program tree interpreter.context machine
    exact avoids ⟨cause, after, ⟨defensive, spares⟩, ended⟩
  · exact defensive.elim

/-- Every number of a text can be read, no text is refused by a defense, and nothing that is evaluated
fails by one, unless the loader itself fails so, which those of files and of lists of units do not. -/
theorem defenses_are_never_needed :
    (∀ source, ∀ token ∈ Token.tokenize source, token.kind = .number →
      Decimal.IsStrict (Decimal.withoutLastPoints token.lexeme.toList) ∧
        Decimal.read? (Decimal.withoutLastPoints token.lexeme.toList) =
          Decimal.read? token.lexeme.toList) ∧
    (∀ source error, Program.parse source = .error error → ¬error.IsDefensive) ∧
    (∀ room, (∀ node, Avoids Failure.IsUnprovoked (statementWithin room node)) ∧
      ∀ node, Avoids Failure.IsUnprovoked (expressionWithin room node)) ∧
    (∀ tree, Avoids Failure.IsUnprovoked (program tree)) ∧
    (∀ (interpreter : Interpreter) source machine cause,
      (interpreter.run source machine).1 = .error (.failure cause) → cause.IsDefensive →
        interpreter.loader.Fails cause) ∧
    (∀ (interpreter : Interpreter), interpreter.loader.Spares Failure.IsDefensive →
      ∀ source machine cause,
        (interpreter.run source machine).1 = .error (.failure cause) → ¬cause.IsDefensive) ∧
    (∀ units, (Source.Loader.ofUnits units).Spares Failure.IsDefensive) ∧
    ∀ library read, (Source.Loader.ofFiles library read).Spares Failure.IsDefensive := by
  constructor
  · intro source token member isNumber
    have shape := (Token.isLexed_of_mem_tokenize member).hasShape
    rw [isNumber] at shape
    exact Decimal.isStrict_withoutLastPoints shape
  constructor
  · exact fun _ _ => Program.not_isDefensive_of_parse
  constructor
  · exact avoids_within not_isUnprovoked_of_arisesElsewhere not_isUnprovoked_of_binary
      spares_isUnprovoked
  constructor
  · exact avoids_isUnprovoked_program
  constructor
  · exact fun interpreter _ _ _ => interpreter.fails_of_isDefensive
  constructor
  · intro interpreter spares source machine cause failed defensive
    exact spares cause (interpreter.fails_of_isDefensive failed defensive) defensive
  · exact ⟨Source.Loader.spares_ofUnits fun _ _ => id, Source.Loader.spares_ofFiles fun _ _ => id⟩

/-- A number with a point behind it and nothing else, a difference of texts, and a loader that fails
as if two numbers had no difference. -/
theorem defenses_are_never_needed_point :
    let token : Token := ⟨.number, "1.", ⟨1, 1⟩⟩
    let error : SyntaxError := .unexpectedEnd (.symbol ";")
    let interpreter : Interpreter := {}
    let source := "\"1\" - \"1\";"
    let cause : Failure := .runtime (.unknownBinary .text "-" .text)
    let refusal : RuntimeError := .unknownBinary .number "-" .number
    let stray : Interpreter := { loader := fun _ _ => .error refusal }
    let imports := "import(\"LIB\", \"unit\");"
    (token ∈ Token.tokenize "1." ∧ token.kind = .number ∧
      Decimal.IsStrict (Decimal.withoutLastPoints token.lexeme.toList) ∧
        Decimal.read? (Decimal.withoutLastPoints token.lexeme.toList) =
          Decimal.read? token.lexeme.toList) ∧
    (Program.parse "1." = .error error ∧ ¬error.IsDefensive) ∧
    (interpreter.loader.Spares Failure.IsDefensive ∧
      (interpreter.run source {}).1 = .error (.failure cause) ∧ ¬cause.IsDefensive) ∧
    (stray.run imports {}).1 = .error (.failure (.runtime refusal)) ∧
      (Failure.runtime refusal).IsDefensive ∧ stray.loader.Fails (.runtime refusal) := by
  intro token error interpreter source cause refusal stray imports
  have member : token ∈ Token.tokenize "1." := by decide +kernel
  have refused : Program.parse "1." = .error error := by decide +kernel
  have failed : (interpreter.run source {}).1 = .error (.failure cause) := by decide +kernel
  have provoked : (stray.run imports {}).1 = .error (.failure (.runtime refusal)) := by
    decide +kernel
  have defensive : (Failure.runtime refusal).IsDefensive := ⟨rfl, rfl⟩
  rcases defenses_are_never_needed with ⟨numbers, parses, _, _, fails, never, listed, _⟩
  have spares : interpreter.loader.Spares Failure.IsDefensive := listed []
  constructor
  · exact ⟨member, rfl, numbers "1." token member rfl⟩
  constructor
  · exact ⟨refused, parses "1." error refused⟩
  constructor
  · exact ⟨spares, failed, never interpreter spares source {} cause failed⟩
  · exact ⟨provoked, defensive, fails stray imports {} (.runtime refusal) provoked defensive⟩

end Interpreter

end Easel
