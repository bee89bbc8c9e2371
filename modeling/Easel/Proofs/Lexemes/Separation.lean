import Easel.Proofs.Lexemes
import Mathlib

/-!
Where a lexeme ends. What follows a lexeme in a text decides whether it is read as a word of
its own or runs into its neighbour: letters run into letters, digits into digits and a point,
and some operators into others. Symbols, texts and pairs of operator characters end by
themselves.
-/

namespace Easel.Token

/-- A character that begins neither a text nor a name nor a number, and is not blank. -/
def IsMark (c : Char) : Prop :=
  isBlank c = false ∧ c ≠ '"' ∧ isLetter c = false ∧ c.isDigit = false

instance (c : Char) : Decidable (IsMark c) :=
  inferInstanceAs (Decidable (_ ∧ _))

theorem isMark_of_isSymbolCharacter {c : Char} (symbol : isSymbolCharacter c = true) : IsMark c := by
  have all : (['{', '}', '(', ')', '[', ']', ';', ':', ','].all fun c => IsMark c) = true := rfl
  exact of_decide_eq_true (List.all_eq_true.mp all c (List.contains_iff_mem.mp symbol))

theorem isMark_of_isSingleOperator {c : Char} (single : isSingleOperator c = true) : IsMark c := by
  have all : (['+', '-', '*', '/', '%', '^', '=', '<', '>', '!', '.'].all fun c => IsMark c) = true :=
    rfl
  exact of_decide_eq_true (List.all_eq_true.mp all c (List.contains_iff_mem.mp single))

theorem isMark_of_pair {c second : Char} (pair : operatorPairs.contains (c, second) = true) :
    IsMark c := by
  have all : ∀ pair ∈ operatorPairs, IsMark pair.1 := by decide
  exact all (c, second) (List.contains_iff_mem.mp pair)

theorem isBlank_eq_false_of_isLetter {c : Char} (letter : isLetter c = true) :
    isBlank c = false := by
  rw [Bool.eq_false_iff]
  intro blank
  simp only [isBlank, Bool.or_eq_true, decide_eq_true_eq] at blank
  rcases blank with (((same | same) | same) | same) | same <;> subst same <;> cases letter

theorem isBlank_eq_false_of_isDigit {c : Char} (digit : c.isDigit = true) :
    isBlank c = false := by
  rw [Bool.eq_false_iff]
  intro blank
  simp only [isBlank, Bool.or_eq_true, decide_eq_true_eq] at blank
  rcases blank with (((same | same) | same) | same) | same <;> subst same <;> cases digit

theorem isLetter_eq_false_of_isDigit {c : Char} (digit : c.isDigit = true) :
    isLetter c = false := by
  have range : 48 ≤ c.val.toNat ∧ c.val.toNat ≤ 57 := by
    simpa [Char.isDigit, UInt32.le_iff_toNat_le] using digit
  rw [Bool.eq_false_iff]
  intro letter
  simp only [isLetter, Char.isAlpha, Char.isUpper, Char.isLower, Bool.or_eq_true,
    Bool.and_eq_true, decide_eq_true_eq, ge_iff_le, UInt32.le_iff_toNat_le] at letter
  rcases letter with (cased | same) | same
  · change (65 ≤ c.val.toNat ∧ c.val.toNat ≤ 90) ∨ (97 ≤ c.val.toNat ∧ c.val.toNat ≤ 122) at cased
    omega
  · subst same
    cases digit
  · subst same
    cases digit

theorem IsNumeral.begins {characters : List Char} (numeral : IsNumeral characters) :
    ∃ c following, characters = c :: following ∧ c.isDigit = true := by
  cases numeral with
  | whole some all =>
      obtain ⟨c, following, rfl⟩ := List.exists_cons_of_ne_nil some
      exact ⟨c, following, rfl, all c List.mem_cons_self⟩
  | fraction some all allPlaces =>
      obtain ⟨c, following, rfl⟩ := List.exists_cons_of_ne_nil some
      exact ⟨c, _, rfl, all c List.mem_cons_self⟩

section Words

variable {c : Char} {rest : List Char}

@[simp]
theorem words_nil : words [] = [] := by
  rw [words]

theorem words_blank (blank : isBlank c = true) : words (c :: rest) = words rest := by
  rw [words, if_pos blank]

theorem words_scan (visible : isBlank c = false) :
    words (c :: rest) =
      ⟨(scan c rest).kind, String.ofList (scan c rest).lexeme⟩ :: words (scan c rest).rest := by
  rw [words, if_neg (by rw [visible]; decide)]

theorem scan_mark (mark : IsMark c) : scan c rest = scanMark c rest := by
  obtain ⟨-, unquoted, letter, digit⟩ := mark
  rw [scan, if_neg unquoted, letter, digit]
  rfl

/-- A character that makes no pair with what follows it is scanned alone. -/
theorem scanMark_alone (alone : ∀ second ∈ rest.head?, operatorPairs.contains (c, second) = false) :
    scanMark c rest = scanMark.single c rest := by
  cases rest with
  | nil => rfl
  | cons second following =>
      have unpaired := alone second rfl
      rw [scanMark, if_neg (by rw [unpaired]; decide)]

theorem contains_eq_false_of_first (unpaired : ∀ pair ∈ operatorPairs, pair.1 ≠ c) (second : Char) :
    operatorPairs.contains (c, second) = false := by
  rw [Bool.eq_false_iff]
  intro pair
  exact unpaired (c, second) (List.contains_iff_mem.mp pair) rfl

theorem contains_eq_false_of_second {second : Char}
    (unpaired : ∀ pair ∈ operatorPairs, pair.2 ≠ second) (c : Char) :
    operatorPairs.contains (c, second) = false := by
  rw [Bool.eq_false_iff]
  intro pair
  exact unpaired (c, second) (List.contains_iff_mem.mp pair) rfl

theorem scan_symbol (symbol : isSymbolCharacter c = true) : scan c rest = ⟨.symbol, [c], rest⟩ := by
  have mark := isMark_of_isSymbolCharacter symbol
  have apart : (['{', '}', '(', ')', '[', ']', ';', ':', ','].all fun c =>
      isSingleOperator c = false ∧ ∀ pair ∈ operatorPairs, pair.1 ≠ c) = true := rfl
  obtain ⟨multiple, unpaired⟩ :=
    of_decide_eq_true (List.all_eq_true.mp apart c (List.contains_iff_mem.mp symbol))
  have alone := fun second (_ : second ∈ rest.head?) => contains_eq_false_of_first unpaired second
  rw [scan_mark mark, scanMark_alone alone, scanMark.single, multiple, symbol]
  rfl

theorem words_symbol (symbol : isSymbolCharacter c = true) :
    words (c :: rest) = .symbol (String.ofList [c]) :: words rest := by
  rw [words_scan (isMark_of_isSymbolCharacter symbol).1, scan_symbol symbol]
  rfl

theorem words_operator (single : isSingleOperator c = true)
    (alone : ∀ second ∈ rest.head?, operatorPairs.contains (c, second) = false) :
    words (c :: rest) = .operator (String.ofList [c]) :: words rest := by
  have mark := isMark_of_isSingleOperator single
  rw [words_scan mark.1, scan_mark mark, scanMark_alone alone, scanMark.single, if_pos single]
  rfl

theorem words_pair {second : Char} (pair : operatorPairs.contains (c, second) = true) :
    words (c :: second :: rest) = .operator (String.ofList [c, second]) :: words rest := by
  have mark := isMark_of_pair pair
  rw [words_scan mark.1, scan_mark mark, scanMark, if_pos pair]
  rfl

theorem takeWhile_append_of_stop {p : Char → Bool} {front : List Char}
    (all : ∀ c ∈ front, p c = true) (stop : ∀ c ∈ rest.head?, p c = false) :
    (front ++ rest).takeWhile p = front := by
  rw [List.takeWhile_append_of_pos all]
  cases rest with
  | nil => simp
  | cons c following => simp [stop c rfl]

theorem dropWhile_append_of_stop {p : Char → Bool} {front : List Char}
    (all : ∀ c ∈ front, p c = true) (stop : ∀ c ∈ rest.head?, p c = false) :
    (front ++ rest).dropWhile p = rest := by
  rw [List.dropWhile_append_of_pos all]
  cases rest with
  | nil => rfl
  | cons c following => simp [stop c rfl]

theorem words_letters {letters : List Char} (some : letters ≠ [])
    (all : ∀ c ∈ letters, isLetter c = true) (apart : ∀ c ∈ rest.head?, isLetter c = false) :
    words (letters ++ rest) =
      ⟨if keywords.contains (String.ofList letters) then .keyword else .identifier,
        String.ofList letters⟩ :: words rest := by
  obtain ⟨c, following, rfl⟩ := List.exists_cons_of_ne_nil some
  have letter : isLetter c = true := all c List.mem_cons_self
  have unquoted : c ≠ '"' := by
    intro same
    subst same
    cases letter
  have taken := takeWhile_append_of_stop all apart
  have dropped := dropWhile_append_of_stop all apart
  rw [List.cons_append] at taken dropped ⊢
  rw [words_scan (isBlank_eq_false_of_isLetter letter), scan, if_neg unquoted, if_pos letter,
    scanWord, taken, dropped]

theorem words_name {name : String} (shape : HasShape .identifier name.toList)
    (apart : ∀ c ∈ rest.head?, isLetter c = false) :
    words (name.toList ++ rest) = .identifier name :: words rest := by
  obtain ⟨some, all, unreserved⟩ := shape
  rw [words_letters some all apart, if_neg (by rwa [List.contains_iff_mem]), String.ofList_toList]
  rfl

theorem words_keyword {lexeme : String} (reserved : lexeme ∈ keywords)
    (apart : ∀ c ∈ rest.head?, isLetter c = false) :
    words (lexeme.toList ++ rest) = .keyword lexeme :: words rest := by
  have spelled : ∀ lexeme ∈ keywords,
      lexeme.toList ≠ [] ∧ lexeme.toList.all isLetter = true := by decide
  obtain ⟨some, all⟩ := spelled lexeme reserved
  rw [words_letters some (List.all_eq_true.mp all) apart, String.ofList_toList,
    if_pos (List.contains_iff_mem.mpr reserved)]
  rfl

theorem words_text {lexeme : String} (shape : HasShape .text lexeme.toList) :
    words (lexeme.toList ++ rest) = ⟨.text, lexeme⟩ :: words rest := by
  obtain ⟨content, unquoted, spelled⟩ := shape
  have all : ∀ c ∈ content, decide (c ≠ '"') = true := by
    intro c member
    have different : c ≠ '"' := fun same => unquoted (same ▸ member)
    simpa using different
  have stop : ∀ c ∈ ('"' :: rest).head?, decide (c ≠ '"') = false := by simp
  have written : String.ofList ('"' :: content ++ ['"']) = lexeme := by
    rw [← spelled, String.ofList_toList]
  have whole : lexeme.toList ++ rest = '"' :: (content ++ '"' :: rest) := by
    rw [spelled]
    simp
  have taken := takeWhile_append_of_stop all stop
  have dropped := dropWhile_append_of_stop all stop
  rw [whole, words_scan (by decide), scan, if_pos rfl, scanText, dropped]
  simp only [taken, written]

/-- A point behind digits belongs to them, unless they have one already. -/
theorem scanNumber_append {characters : List Char} (numeral : IsNumeral characters)
    (apart : ∀ c ∈ rest.head?, c.isDigit = false ∧ (c = '.' → '.' ∈ characters)) :
    scanNumber (characters ++ rest) = ⟨.number, characters, rest⟩ := by
  have stop : ∀ c ∈ rest.head?, c.isDigit = false := fun c member => (apart c member).1
  cases numeral with
  | whole some all =>
      have taken := takeWhile_append_of_stop all stop
      have dropped := dropWhile_append_of_stop all stop
      unfold scanNumber
      rw [taken, dropped]
      split
      · have point := (apart '.' rfl).2 rfl
        cases all '.' point
      · rfl
  | @fraction digits places some all allPlaces =>
      have point : ∀ c ∈ ('.' :: (places ++ rest)).head?, c.isDigit = false := by simp
      have taken := takeWhile_append_of_stop all point
      have dropped := dropWhile_append_of_stop all point
      rw [List.append_assoc, List.cons_append]
      unfold scanNumber
      rw [taken, dropped]
      simp only [takeWhile_append_of_stop allPlaces stop, dropWhile_append_of_stop allPlaces stop]

theorem words_number {lexeme : String} (numeral : IsNumeral lexeme.toList)
    (apart : ∀ c ∈ rest.head?, c.isDigit = false ∧ (c = '.' → '.' ∈ lexeme.toList)) :
    words (lexeme.toList ++ rest) = ⟨.number, lexeme⟩ :: words rest := by
  obtain ⟨c, following, first, digit⟩ := numeral.begins
  have scanned := scanNumber_append numeral apart
  have unquoted : c ≠ '"' := by
    intro same
    subst same
    cases digit
  rw [← String.ofList_toList (s := lexeme)]
  rw [String.toList_ofList]
  rw [first, List.cons_append] at scanned ⊢
  rw [words_scan (isBlank_eq_false_of_isDigit digit), scan, if_neg unquoted,
    isLetter_eq_false_of_isDigit digit, digit]
  simp only [Bool.false_eq_true, if_false, if_true, scanned]

end Words

end Easel.Token
