import Easel.Number.Decimal
import Easel.Token.Lexer
import Mathlib.Data.List.TakeWhile

/-!
The words of a text: its tokens without their places. They are read by a function of their
own, which agrees with the lexer, so that what is said of words does not depend on where a
text begins. The shape of a word follows from its class.
-/

namespace Easel

/-- The class and the spelling of a token. -/
structure Word where
  kind : Token.Kind
  lexeme : String
deriving DecidableEq, Repr

namespace Word

def symbol (lexeme : String) : Word := ⟨.symbol, lexeme⟩

def keyword (lexeme : String) : Word := ⟨.keyword, lexeme⟩

def operator (lexeme : String) : Word := ⟨.operator, lexeme⟩

def identifier (name : String) : Word := ⟨.identifier, name⟩

end Word

namespace Token

def word (token : Token) : Word := ⟨token.kind, token.lexeme⟩

/-- The words of a text. -/
def words (characters : List Char) : List Word :=
  match characters with
  | [] => []
  | c :: following =>
      if isBlank c then words following
      else ⟨(scan c following).kind, String.ofList (scan c following).lexeme⟩ ::
        words (scan c following).rest
termination_by characters.length
decreasing_by
  · simp
  · exact Nat.lt_succ_of_le (length_rest_scan_le c following)

theorem map_word_scanAll (found : List Token) (position : Position) (characters : List Char) :
    (scanAll found position characters).map word = found.reverse.map word ++ words characters := by
  fun_induction scanAll found position characters with
  | case1 found position => simp [words]
  | case2 found position c following blank induction =>
      rw [induction, words, if_pos blank]
  | case3 found position c following mark next induction =>
      rw [induction, words, if_neg mark]
      simp [word, next]

theorem map_word_tokenize (source : String) :
    (tokenize source).map word = words source.toList := by
  simp [tokenize, map_word_scanAll]

/-- Class and spelling are ones that a token of some text has. -/
def IsLexed (token : Token) : Prop :=
  ∃ source, ∃ emitted ∈ tokenize source, emitted.kind = token.kind ∧ emitted.lexeme = token.lexeme

theorem isLexed_of_mem_tokenize {source : String} {token : Token}
    (member : token ∈ tokenize source) : token.IsLexed :=
  ⟨source, token, member, rfl, rfl⟩

theorem exists_mem_words_of_isLexed {token : Token} (lexed : token.IsLexed) :
    ∃ characters, token.word ∈ words characters := by
  obtain ⟨source, emitted, member, kind, lexeme⟩ := lexed
  refine ⟨source.toList, ?_⟩
  rw [← map_word_tokenize]
  have same : token.word = emitted.word := by simp [word, kind, lexeme]
  rw [same]
  exact List.mem_map_of_mem member

/-- Digits, and perhaps a point with further digits behind it. -/
inductive IsNumeral : List Char → Prop where
  | whole {digits : List Char} (some : digits ≠ []) (all : ∀ c ∈ digits, c.isDigit = true) :
      IsNumeral digits
  | fraction {digits places : List Char} (some : digits ≠ [])
      (all : ∀ c ∈ digits, c.isDigit = true) (allPlaces : ∀ c ∈ places, c.isDigit = true) :
      IsNumeral (digits ++ '.' :: places)

/-- What the spelling of a word of a class looks like, where the grammar makes use of it. -/
def HasShape : Kind → List Char → Prop
  | .identifier, characters =>
      characters ≠ [] ∧ (∀ c ∈ characters, isLetter c = true) ∧
        String.ofList characters ∉ keywords
  | .number, characters => IsNumeral characters
  | .text, characters => ∃ content, '"' ∉ content ∧ characters = '"' :: content ++ ['"']
  | _, _ => True

theorem mem_takeWhile_true {p : Char → Bool} {characters : List Char} {c : Char}
    (member : c ∈ characters.takeWhile p) : p c = true := by
  have all := List.all_takeWhile (p := p) (l := characters)
  exact List.all_eq_true.mp all c member

theorem hasShape_scanText (following : List Char) :
    HasShape (scanText following).kind (scanText following).lexeme := by
  unfold scanText
  split
  · next quote rest found =>
      have closing := List.head?_dropWhile_not (· ≠ '"') following
      rw [found] at closing
      have quoted : quote = '"' := by simpa using closing
      subst quoted
      refine ⟨following.takeWhile (· ≠ '"'), ?_, rfl⟩
      intro member
      simpa using mem_takeWhile_true member
  · trivial

theorem hasShape_scanWord {c : Char} (following : List Char) (letter : isLetter c = true) :
    HasShape (scanWord (c :: following)).kind (scanWord (c :: following)).lexeme := by
  simp only [scanWord]
  split
  · trivial
  · next unreserved =>
      refine ⟨by simp [letter], fun _ member => mem_takeWhile_true member, ?_⟩
      simpa using unreserved

theorem hasShape_scanNumber {c : Char} (following : List Char) (digit : c.isDigit = true) :
    HasShape (scanNumber (c :: following)).kind (scanNumber (c :: following)).lexeme := by
  have some : (c :: following).takeWhile Char.isDigit ≠ [] := by simp [digit]
  unfold scanNumber
  split
  · exact .fraction some (fun _ member => mem_takeWhile_true member)
      (fun _ member => mem_takeWhile_true member)
  · exact .whole some (fun _ member => mem_takeWhile_true member)

theorem hasShape_scanMark (c : Char) (following : List Char) :
    HasShape (scanMark c following).kind (scanMark c following).lexeme := by
  have single : ∀ rest, HasShape (scanMark.single c rest).kind (scanMark.single c rest).lexeme := by
    intro rest
    simp only [scanMark.single]
    split
    · trivial
    · split <;> trivial
  unfold scanMark
  split
  · split
    · trivial
    · exact single _
  · exact single _

theorem hasShape_scan (c : Char) (following : List Char) :
    HasShape (scan c following).kind (scan c following).lexeme := by
  unfold scan
  split
  · exact hasShape_scanText following
  · split
    · next letter => exact hasShape_scanWord following letter
    · split
      · next digit => exact hasShape_scanNumber following digit
      · exact hasShape_scanMark c following

theorem hasShape_of_mem_words {characters : List Char} {word : Word}
    (member : word ∈ words characters) : HasShape word.kind word.lexeme.toList := by
  fun_induction words characters with
  | case1 => cases member
  | case2 c following blank induction => exact induction member
  | case3 c following mark induction =>
      rcases List.mem_cons.mp member with same | member
      · subst same
        simpa using hasShape_scan c following
      · exact induction member

theorem IsLexed.hasShape {token : Token} (lexed : token.IsLexed) :
    HasShape token.kind token.lexeme.toList := by
  obtain ⟨characters, member⟩ := exists_mem_words_of_isLexed lexed
  exact hasShape_of_mem_words member

theorem ne_point_of_isDigit {digits : List Char} (all : ∀ c ∈ digits, c.isDigit = true) :
    ∀ c ∈ digits, decide (c ≠ '.') = true := by
  intro c member
  have different : c ≠ '.' := by
    intro same
    have digit := all c member
    rw [same] at digit
    cases digit
  simpa using different

end Token

theorem Decimal.read?_of_isNumeral {characters : List Char} (numeral : Token.IsNumeral characters) :
    (Decimal.read? characters).isSome = true := by
  cases numeral with
  | whole some all =>
      have points := Token.ne_point_of_isDigit all
      have taken : characters.takeWhile (· ≠ '.') = characters := by
        exact List.takeWhile_eq_self_iff.mpr points
      have dropped : characters.dropWhile (· ≠ '.') = [] := by
        exact List.dropWhile_eq_nil_iff.mpr points
      unfold Decimal.read? Decimal.isUnsigned
      rw [taken, dropped]
      simp [some, List.all_eq_true.mpr all]
  | @fraction digits places some all allPlaces =>
      have points := Token.ne_point_of_isDigit all
      unfold Decimal.read? Decimal.isUnsigned
      rw [List.takeWhile_append_of_pos points, List.dropWhile_append_of_pos points]
      simp [some]
      exact ⟨all, allPlaces⟩

end Easel
