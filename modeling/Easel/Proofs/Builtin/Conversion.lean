import Easel.Proofs.Evaluation.Runs
import Easel.Proofs.Lexemes.Separation
import Easel.Proofs.Number.Bits
import Easel.Proofs.Parser.Exactness

/-!
Texts that can be converted to numbers. They are the numerals of programs, with or without a minus
in front of them and with any blanks around them, and they are converted to the numbers that the
numerals stand for in programs, or to the opposites of these. Every other text is refused.
-/

namespace Easel

section Blanks

variable {before inside after : List Char}

theorem Text.dropWhile_of_trim_eq (trimmed : Text.trim inside = inside) :
    inside.dropWhile Text.isBlank = inside ∧
      inside.reverse.dropWhile Text.isBlank = inside.reverse := by
  have front : inside.dropWhile Text.isBlank = inside := by
    apply (List.dropWhile_suffix Text.isBlank).eq_of_length_le
    have shrinks := Token.length_dropWhile_le Text.isBlank (inside.dropWhile Text.isBlank).reverse
    have same := congrArg List.length trimmed
    rw [Text.trim, List.length_reverse] at same
    rw [List.length_reverse, same] at shrinks
    exact shrinks
  have back := trimmed
  rw [Text.trim, front] at back
  exact ⟨front, List.reverse_eq_iff.mp back⟩

theorem Text.trim_padded (blank : ∀ c ∈ before ++ after, Text.isBlank c = true)
    (trimmed : Text.trim inside = inside) : Text.trim (before ++ inside ++ after) = inside := by
  rw [List.forall_mem_append] at blank
  have ends := Text.dropWhile_of_trim_eq trimmed
  have blankBehind : ∀ c ∈ after.reverse, Text.isBlank c = true := by
    intro c member
    exact blank.2 c (List.mem_reverse.mp member)
  rw [Text.trim, List.append_assoc, List.dropWhile_append_of_pos blank.1]
  cases inside with
  | nil =>
      rw [List.nil_append, List.dropWhile_eq_nil_iff.mpr blank.2]
      rfl
  | cons c rest =>
      have visible : ¬Text.isBlank c = true := by
        intro isBlank
        have shorter := Token.length_dropWhile_le Text.isBlank rest
        rw [List.dropWhile_cons_of_pos isBlank] at ends
        rw [ends.1, List.length_cons] at shorter
        exact Nat.not_succ_le_self _ shorter
      rw [List.cons_append, List.dropWhile_cons_of_neg visible, ← List.cons_append,
        List.reverse_append, List.dropWhile_append_of_pos blankBehind, ends.2,
        List.reverse_reverse]

end Blanks

namespace Decimal

variable {characters : List Char}

theorem isUnsigned_iff : isUnsigned characters = true ↔ Token.IsNumeral characters := by
  constructor
  · intro unsigned
    have parts : characters.takeWhile (· ≠ '.') ++ characters.dropWhile (· ≠ '.') = characters :=
      List.takeWhile_append_dropWhile
    simp only [isUnsigned, Bool.and_eq_true, Bool.not_eq_true', List.isEmpty_eq_false_iff,
      List.all_eq_true] at unsigned
    rcases unsigned with ⟨⟨some, digits⟩, places⟩
    cases behind : characters.dropWhile (· ≠ '.') with
    | nil =>
        rw [behind, List.append_nil] at parts
        rw [parts] at some digits
        exact .whole some digits
    | cons c rest =>
        have point : c = '.' := by
          have head := List.head?_dropWhile_not (· ≠ '.') characters
          rw [behind] at head
          simpa using head
        rw [behind] at parts places
        rw [← parts, point]
        exact .fraction some digits places
  · intro numeral
    have read := read?_of_isNumeral numeral
    unfold read? at read
    split at read
    · assumption
    · cases read

/-- No numeral begins with a minus, so one behind it is no part of what is read. -/
theorem splitSign_of_isNumeral (numeral : Token.IsNumeral characters) :
    splitSign characters = (false, characters) := by
  rcases numeral.begins with ⟨c, following, first, digit⟩
  rw [first]
  unfold splitSign
  split
  · next same =>
      cases same
      cases digit
  · rfl

theorem isSigned_iff : isSigned characters = true ↔
    ∃ digits, Token.IsNumeral digits ∧ (characters = digits ∨ characters = '-' :: digits) := by
  rw [isSigned, isUnsigned_iff]
  constructor
  · intro numeral
    refine ⟨_, numeral, ?_⟩
    unfold splitSign
    split
    · exact .inr rfl
    · exact .inl rfl
  · intro signed
    rcases signed with ⟨digits, numeral, same | same⟩
    · rwa [same, splitSign_of_isNumeral numeral]
    · rwa [same]

end Decimal

namespace Token

/-- A text that the scanner takes for one number. -/
def IsLiteral (digits : String) : Prop :=
  ∃ position, tokenize digits = [⟨.number, digits, position⟩]

theorem isLiteral_iff {digits : String} : IsLiteral digits ↔ IsNumeral digits.toList := by
  constructor
  · intro literal
    rcases literal with ⟨position, scanned⟩
    have member : ⟨.number, digits, position⟩ ∈ tokenize digits := by
      rw [scanned]
      exact List.mem_singleton_self _
    exact (isLexed_of_mem_tokenize member).hasShape
  · intro numeral
    have alone : words (digits.toList ++ []) = ⟨.number, digits⟩ :: words [] :=
      words_number numeral (by simp)
    rw [List.append_nil, words_nil, ← map_word_tokenize] at alone
    rcases List.map_eq_singleton_iff.mp alone with ⟨token, scanned, word⟩
    cases token
    cases word
    exact ⟨_, scanned⟩

end Token

theorem Program.parse_literal {digits : String} (numeral : Token.IsNumeral digits.toList) :
    Program.parse (digits ++ ";") =
      .ok [.expression (.literal (.number (Grammar.numeral digits)))] := by
  have spelled : Token.words (digits ++ ";").toList = [⟨.number, digits⟩] ++ [.symbol ";"] := by
    rw [String.toList_append, Token.words_number numeral (by simp)]
    change _ :: Token.words [';'] = _
    rw [Token.words_symbol (by decide), Token.words_nil]
    rfl
  have unnamed : ¬Grammar.BeginsDefinition [⟨.number, digits⟩] := by
    intro begins
    rcases begins with ⟨name, rest, same⟩
    cases same
  exact Parser.parse_eq_ok_of_isTerm spelled (.primary (.number digits)) (by decide) unnamed

namespace Decimal

theorem isSigned_iff_isLiteral {text : String} : isSigned text.toList = true ↔
    ∃ digits, (text = digits ∨ text = "-" ++ digits) ∧ Token.IsLiteral digits := by
  rw [isSigned_iff]
  constructor
  · intro signed
    rcases signed with ⟨characters, numeral, spelled⟩
    refine ⟨String.ofList characters, ?_, ?_⟩
    · rw [← String.toList_inj, ← String.toList_inj, String.toList_append, String.toList_ofList]
      exact spelled
    · rwa [Token.isLiteral_iff, String.toList_ofList]
  · intro signed
    rcases signed with ⟨digits, spelled, literal⟩
    rw [← String.toList_inj, ← String.toList_inj, String.toList_append] at spelled
    exact ⟨_, Token.isLiteral_iff.mp literal, spelled⟩

end Decimal

namespace Evaluation

open EvalM

theorem toNum_run (deeper : Deeper) {context : Context} (unwatched : context.watch = none)
    (machine : Machine) {argument : Value} {content : String}
    (given : argument.content? = some content) :
    applyBuiltin deeper .toNum [argument] context machine =
      match toNumber? content with
      | .ok number => .ok (.number number) machine
      | .error text => .error (.failure (.runtime (.conversionFailed text))) machine := by
  rw [applyBuiltin, bind_run, observe_of_unwatched unwatched]
  simp only [singleArgument, pure_bind, textArgument, given]
  cases toNumber? content <;> rfl

theorem toNumber?_padded {before text after : String}
    (blank : ∀ c ∈ before.toList ++ after.toList, Text.isBlank c = true)
    (trimmed : Text.trim text.toList = text.toList) :
    toNumber? (before ++ text ++ after) =
      if Decimal.isSigned text.toList then
        let signed := Decimal.splitSign text.toList
        .ok ((Decimal.ofDigits signed.2).toNumber signed.1)
      else .error text := by
  unfold toNumber?
  rw [String.toList_append, String.toList_append, Text.trim_padded blank trimmed]
  simp only [String.ofList_toList]

/-- What can be converted is what is scanned as a number, perhaps with a minus in front of it, and
the conversion agrees with the literal. Blanks around the text are left out, also in the report of
a failure. -/
theorem to_num_agrees_with_literals (deeper : Deeper) {context : Context}
    (unwatched : context.watch = none) (machine : Machine) (text : String)
    (trimmed : Text.trim text.toList = text.toList) :
    (Decimal.isSigned text.toList = true ↔
      ∃ digits, (text = digits ∨ text = "-" ++ digits) ∧ Token.IsLiteral digits) ∧
    ∀ before after argument,
      (∀ c ∈ before.toList ++ after.toList, Text.isBlank c = true) →
      argument.content? = some (before ++ text ++ after) →
      let converted := applyBuiltin deeper .toNum [argument] context machine
      (∀ digits, Token.IsLiteral digits → ∃ number,
        Program.parse (digits ++ ";") = .ok [.expression (.literal (.number number))] ∧
          (text = digits → converted = .ok (.number number) machine) ∧
          (text = "-" ++ digits → converted = .ok (.number (-number)) machine)) ∧
      (Decimal.isSigned text.toList = false →
        converted = .error (.failure (.runtime (.conversionFailed text))) machine) := by
  constructor
  · exact Decimal.isSigned_iff_isLiteral
  · intro before after argument blank given converted
    have ran : converted = _ := toNum_run deeper unwatched machine given
    rw [toNumber?_padded blank trimmed] at ran
    constructor
    · intro digits literal
      have numeral := Token.isLiteral_iff.mp literal
      refine ⟨_, Program.parse_literal numeral, ?_, ?_⟩
      · intro same
        have signed := Decimal.isSigned_iff_isLiteral.mpr ⟨digits, .inl same, literal⟩
        rw [ran, if_pos signed, same, Decimal.splitSign_of_isNumeral numeral]
        rfl
      · intro same
        have signed := Decimal.isSigned_iff_isLiteral.mpr ⟨digits, .inr same, literal⟩
        have opposite : -Grammar.numeral digits = (Decimal.ofDigits digits.toList).toNumber true :=
          Number.neg_nearest _ _
        have spelled : ("-" ++ digits).toList = '-' :: digits.toList := String.toList_append
        rw [ran, if_pos signed, same, spelled, opposite]
        rfl
    · intro unsigned
      rw [ran, unsigned]
      rfl

theorem to_num_agrees_with_literals_point :
    let context : Context := { limits := {}, loader := .ofUnits [], patience := 0 }
    let machine : Machine := {}
    let argument : Value := .text "\"\x0b-4.\n\""
    (context.watch = none ∧ Text.trim "-4.".toList = "-4.".toList ∧
      (∀ c ∈ "\x0b".toList ++ "\n".toList, Text.isBlank c = true) ∧
      argument.content? = some ("\x0b" ++ "-4." ++ "\n") ∧ Token.IsLiteral "4.") ∧
      ∃ number, Program.parse ("4." ++ ";") = .ok [.expression (.literal (.number number))] ∧
        applyBuiltin (within 0) .toNum [argument] context machine =
          .ok (.number (-number)) machine := by
  intro context machine argument
  have unwatched : context.watch = none := rfl
  have trimmed : Text.trim "-4.".toList = "-4.".toList := by decide
  have blank : ∀ c ∈ "\x0b".toList ++ "\n".toList, Text.isBlank c = true := by
    exact List.all_eq_true.mp (by decide)
  have given : argument.content? = some ("\x0b" ++ "-4." ++ "\n") := by decide +kernel
  have literal : Token.IsLiteral "4." := ⟨⟨1, 1⟩, by decide +kernel⟩
  have agrees := to_num_agrees_with_literals (within 0) unwatched machine "-4." trimmed
  rcases (agrees.2 "\x0b" "\n" argument blank given).1 "4." literal with
    ⟨number, parsed, _, converted⟩
  exact ⟨⟨unwatched, trimmed, blank, given, literal⟩, number, parsed, converted rfl⟩

end Evaluation

end Easel
