import Easel.Proofs.Lexemes
import Easel.Text.Quoted
import Mathlib

/-!
Reading a text byte by byte. A text is stored in its UTF-8 form, a place in it is an offset in
bytes, and a lexeme is cut out between two offsets. A cut is possible only where characters meet,
so everything that cuts a text may fail. The reader of this module looks at single bytes, moves
from offset to offset and cuts; it never fails, and its tokens are those of the text.

Nothing but single-byte characters has a meaning to the lexer, and no byte of another character
looks like one. A run of bytes of a class is therefore a run of characters of that class, and ends
where a character ends.
-/

namespace Easel

namespace Text

def bytes (characters : List Char) : List UInt8 :=
  characters.flatMap String.utf8EncodeChar

def size (characters : List Char) : Nat :=
  (bytes characters).length

/-- The text before an offset and the text behind it. There are none if the offset is in the middle
of a character or behind the end. -/
def splitAt? : List Char → Nat → Option (List Char × List Char)
  | characters, 0 => some ([], characters)
  | [], _ + 1 => none
  | c :: rest, offset + 1 =>
      if c.utf8Size ≤ offset + 1 then
        (splitAt? rest (offset + 1 - c.utf8Size)).map fun parts => (c :: parts.1, parts.2)
      else none

def slice? (characters : List Char) (start stop : Nat) : Option (List Char) :=
  if start ≤ stop then do
    let (_, behind) ← splitAt? characters start
    let (between, _) ← splitAt? behind (stop - start)
    return between
  else none

/-- The content of a text, cut out between its quotes if it has two of them. -/
def unquote? (text : String) : Option String :=
  let characters := text.toList
  if 2 ≤ size characters ∧ characters.head? = some '"' ∧ characters.getLast? = some '"' then
    (slice? characters 1 (size characters - 1)).map String.ofList
  else some text

@[simp]
theorem bytes_nil : bytes [] = [] := rfl

@[simp]
theorem bytes_cons (c : Char) (rest : List Char) :
    bytes (c :: rest) = String.utf8EncodeChar c ++ bytes rest := rfl

@[simp]
theorem bytes_append (first second : List Char) :
    bytes (first ++ second) = bytes first ++ bytes second := by
  simp [bytes]

@[simp]
theorem size_nil : size [] = 0 := rfl

@[simp]
theorem size_cons (c : Char) (rest : List Char) : size (c :: rest) = c.utf8Size + size rest := by
  simp [size]

@[simp]
theorem size_append (first second : List Char) :
    size (first ++ second) = size first + size second := by
  simp [size]

theorem splitAt?_append (before behind : List Char) :
    splitAt? (before ++ behind) (size before) = some (before, behind) := by
  induction before with
  | nil => simp [splitAt?]
  | cons c before induction =>
      obtain ⟨others, width⟩ : ∃ others, c.utf8Size = others + 1 :=
        ⟨c.utf8Size - 1, (Nat.succ_pred_eq_of_pos c.utf8Size_pos).symm⟩
      have offset : size (c :: before) = (others + size before) + 1 := by
        rw [size_cons, width]
        omega
      have left : others + size before + 1 - c.utf8Size = size before := by omega
      rw [List.cons_append, offset, splitAt?, if_pos (by omega), left, induction]
      rfl

theorem slice?_append (before between behind : List Char) :
    slice? (before ++ between ++ behind) (size before) (size (before ++ between)) =
      some between := by
  have ordered : size before ≤ size (before ++ between) := by simp
  have length : size (before ++ between) - size before = size between := by simp
  rw [slice?, if_pos ordered, List.append_assoc, splitAt?_append, length]
  simp [splitAt?_append]

theorem slice?_quoted (content : List Char) :
    slice? ('"' :: (content ++ ['"'])) 1 (size ('"' :: (content ++ ['"'])) - 1) =
      some content := by
  have width : size ['"'] = 1 := rfl
  have stop : size ('"' :: (content ++ ['"'])) - 1 = size (['"'] ++ content) := by
    rw [← List.cons_append, size_append, width, Nat.add_sub_cancel]
    rfl
  rw [stop]
  exact slice?_append ['"'] content ['"']

theorem hasQuotes_iff {characters : List Char} :
    (2 ≤ size characters ∧ characters.head? = some '"' ∧ characters.getLast? = some '"') ↔
      ∃ content, characters = '"' :: (content ++ ['"']) := by
  constructor
  · rintro ⟨long, first, last⟩
    obtain ⟨rest, rfl⟩ := List.head?_eq_some_iff.mp first
    cases rest with
    | nil => exact absurd long (by decide)
    | cons second rest =>
        rw [List.getLast?_cons_cons] at last
        obtain ⟨content, closed⟩ := List.getLast?_eq_some_iff.mp last
        exact ⟨content, congrArg ('"' :: ·) closed⟩
  · rintro ⟨content, rfl⟩
    have width : '"'.utf8Size = 1 := rfl
    have last : (('"' :: content) ++ ['"']).getLast? = some '"' := List.getLast?_concat
    refine ⟨?_, rfl, last⟩
    rw [size_cons, size_append, size_cons, width]
    omega

theorem unquote?_eq (text : String) : unquote? text = some (unquote text) := by
  unfold unquote?
  dsimp only
  split
  · next quoted =>
      obtain ⟨content, spelled⟩ := hasQuotes_iff.mp quoted
      rw [spelled, slice?_quoted, unquote, spelled]
      simp
  · next unquoted =>
      rw [unquote]
      split
      · next rest spelled =>
          split
          · next last =>
              obtain ⟨content, rfl⟩ := List.getLast?_eq_some_iff.mp last
              exact absurd (hasQuotes_iff.mpr ⟨content, spelled⟩) unquoted
          · rfl
      · rfl

end Text

namespace Token

open Text

/-- The byte at an offset, taken for the character of its number. Behind the end there are
zeros. -/
def byteAt (text : List UInt8) (offset : Nat) : Char :=
  Char.ofUInt8 (text[offset]?.getD 0)

def skipWhile (test : Char → Bool) (text : List UInt8) (offset : Nat) : Nat :=
  if offset < text.length then
    if test (byteAt text offset) then skipWhile test text (offset + 1) else offset
  else offset
termination_by text.length - offset

/-- Where the token at an offset ends, and its class. Only the class of a word depends on what is
cut out, and only the end of a character without a meaning on the character itself. -/
def scanAt? (characters : List Char) (start : Nat) : Option (Kind × List Char × Nat) :=
  let text := bytes characters
  let c := byteAt text start
  if c = '"' then
    let closing := skipWhile (· ≠ '"') text (start + 1)
    if text.length ≤ closing then some (.illegal, ['"'], closing)
    else cut .text (closing + 1)
  else if isLetter c then do
    let stop := skipWhile isLetter text start
    let word ← slice? characters start stop
    cut (if keywords.contains (String.ofList word) then .keyword else .identifier) stop
  else if c.isDigit then
    let whole := skipWhile Char.isDigit text start
    if whole < text.length ∧ byteAt text whole = '.' then
      cut .number (skipWhile Char.isDigit text (whole + 1))
    else cut .number whole
  else if operatorPairs.contains (c, byteAt text (start + 1)) then cut .operator (start + 2)
  else if isSingleOperator c then cut .operator (start + 1)
  else if isSymbolCharacter c then cut .symbol (start + 1)
  else do
    let (_, behind) ← splitAt? characters start
    cut .illegal (start + (behind.head?.map Char.utf8Size).getD 1)
where
  cut (kind : Kind) (stop : Nat) : Option (Kind × List Char × Nat) := do
    let lexeme ← slice? characters start stop
    return (kind, lexeme, stop)

def advanceBytes (place : Position) (run : List UInt8) : Position :=
  run.foldl (fun place byte =>
    if Char.ofUInt8 byte = '\n' then ⟨place.row + 1, 1⟩ else ⟨place.row, place.col + 1⟩) place

/-- The tokens from an offset on, which has the place `place`, behind those found so far, newest
first. No more than `rounds` of them are read. -/
def tokensAt? (characters : List Char) : Nat → Nat → Position → List Token → Option (List Token)
  | 0, _, _, _ => none
  | rounds + 1, offset, place, found =>
      let text := bytes characters
      let start := skipWhile isBlank text offset
      let place := advanceBytes place ((text.drop offset).take (start - offset))
      if text.length ≤ start then some found.reverse
      else do
        let (kind, lexeme, stop) ← scanAt? characters start
        tokensAt? characters rounds stop
          (advanceBytes place ((text.drop start).take (stop - start)))
          (⟨kind, String.ofList lexeme, place⟩ :: found)

def tokenizeBytes? (source : String) : Option (List Token) :=
  tokensAt? source.toList (size source.toList + 1) 0 .start []

section Bytes

theorem toNat_ofUInt8 {n : Nat} (small : n < 256) : (Char.ofUInt8 (UInt8.ofNat n)).toNat = n := by
  simp [Char.ofUInt8, Char.toNat, Nat.mod_eq_of_lt small]

theorem le_toNat_of_mem_utf8EncodeChar {c : Char} (wide : 128 ≤ c.toNat) {byte : UInt8}
    (member : byte ∈ String.utf8EncodeChar c) : 128 ≤ (Char.ofUInt8 byte).toNat := by
  obtain ⟨n, rfl, least, most⟩ : ∃ n, byte = UInt8.ofNat n ∧ 128 ≤ n ∧ n < 256 := by
    change 128 ≤ c.val.toNat at wide
    unfold String.utf8EncodeChar at member
    dsimp only at member
    rw [if_neg (Nat.not_le_of_lt wide)] at member
    split at member
    · simp only [List.mem_cons, List.not_mem_nil, or_false] at member
      rcases member with rfl | rfl <;> exact ⟨_, rfl, by omega, by omega⟩
    · split at member
      · simp only [List.mem_cons, List.not_mem_nil, or_false] at member
        rcases member with rfl | rfl | rfl <;> exact ⟨_, rfl, by omega, by omega⟩
      · simp only [List.mem_cons, List.not_mem_nil, or_false] at member
        rcases member with rfl | rfl | rfl | rfl <;> exact ⟨_, rfl, by omega, by omega⟩
  rw [toNat_ofUInt8 most]
  exact least

theorem utf8EncodeChar_of_lt {c : Char} (narrow : c.toNat < 128) :
    String.utf8EncodeChar c = [UInt8.ofNat c.toNat] := by
  unfold String.utf8EncodeChar
  exact if_pos (Nat.le_of_lt_succ narrow)

theorem ofUInt8_toNat {c : Char} (narrow : c.toNat < 128) :
    Char.ofUInt8 (UInt8.ofNat c.toNat) = c := by
  apply Char.ext
  apply UInt32.toNat.inj
  exact toNat_ofUInt8 (Nat.lt_trans narrow (by decide))

/-- The test gives one answer for all characters of more than one byte. -/
def Uniform (test : Char → Bool) : Prop :=
  ∀ c d : Char, 128 ≤ c.toNat → 128 ≤ d.toNat → test c = test d

/-- Only characters of one byte pass the test. -/
def Narrow (test : Char → Bool) : Prop :=
  ∀ c : Char, test c = true → c.toNat < 128

theorem Narrow.refuses {test : Char → Bool} (narrow : Narrow test) {c : Char}
    (wide : 128 ≤ c.toNat) : test c = false := by
  rw [Bool.eq_false_iff]
  intro passes
  exact Nat.not_lt_of_le wide (narrow c passes)

theorem Narrow.uniform {test : Char → Bool} (narrow : Narrow test) : Uniform test := by
  intro c d wide wideToo
  rw [narrow.refuses wide, narrow.refuses wideToo]

theorem Uniform.byte {test : Char → Bool} (uniform : Uniform test) {c : Char} {byte : UInt8}
    (member : byte ∈ String.utf8EncodeChar c) : test (Char.ofUInt8 byte) = test c := by
  by_cases narrow : c.toNat < 128
  · rw [utf8EncodeChar_of_lt narrow] at member
    rw [List.mem_singleton.mp member, ofUInt8_toNat narrow]
  · have wide := Nat.le_of_not_lt narrow
    exact uniform _ _ (le_toNat_of_mem_utf8EncodeChar wide member) wide

theorem Uniform.takeWhile_bytes {test : Char → Bool} (uniform : Uniform test)
    (characters : List Char) :
    (bytes characters).takeWhile (fun byte => test (Char.ofUInt8 byte)) =
      bytes (characters.takeWhile test) := by
  induction characters with
  | nil => rfl
  | cons c rest induction =>
      rw [bytes_cons, List.takeWhile_cons]
      by_cases passes : test c = true
      · have all : ∀ byte ∈ String.utf8EncodeChar c, test (Char.ofUInt8 byte) = true :=
          fun byte member => (uniform.byte member).trans passes
        rw [if_pos passes, List.takeWhile_append_of_pos all, induction, bytes_cons]
      · rw [if_neg passes]
        cases encoded : String.utf8EncodeChar c with
        | nil => exact absurd encoded String.utf8EncodeChar_ne_nil
        | cons byte others =>
            have fails : ¬test (Char.ofUInt8 byte) = true := by
              rw [uniform.byte (encoded ▸ List.mem_cons_self)]
              exact passes
            rw [List.cons_append, List.takeWhile_cons, if_neg fails, bytes_nil]

theorem byteAt_append (before rest : List UInt8) :
    byteAt (before ++ rest) before.length = Char.ofUInt8 (rest.head?.getD 0) := by
  rw [byteAt, List.getElem?_append_right (Nat.le_refl _), Nat.sub_self]
  cases rest <;> rfl

theorem skipWhile_append (test : Char → Bool) (before rest : List UInt8) :
    skipWhile test (before ++ rest) before.length =
      before.length + (rest.takeWhile (fun byte => test (Char.ofUInt8 byte))).length := by
  induction rest generalizing before with
  | nil =>
      rw [skipWhile, if_neg (by simp)]
      simp
  | cons byte rest induction =>
      rw [skipWhile, if_pos (by simp), byteAt_append, List.head?_cons, Option.getD_some,
        List.takeWhile_cons]
      split
      · have next := induction (before ++ [byte])
        rw [List.append_assoc, List.length_append] at next
        rw [List.length_cons, ← Nat.add_assoc, Nat.add_right_comm]
        exact next
      · rfl

/-- A run that begins where characters meet ends where characters meet. -/
theorem Uniform.skipWhile_size {test : Char → Bool} (uniform : Uniform test)
    (before rest : List Char) :
    skipWhile test (bytes (before ++ rest)) (size before) =
      size (before ++ rest.takeWhile test) := by
  rw [bytes_append, size, skipWhile_append, uniform.takeWhile_bytes, size_append]
  rfl

theorem narrow_isDigit : Narrow Char.isDigit := by
  intro c digit
  simp only [Char.isDigit, Bool.and_eq_true, decide_eq_true_eq, UInt32.le_iff_toNat_le] at digit
  exact Nat.lt_of_le_of_lt digit.2 (by decide)

theorem narrow_isLetter : Narrow isLetter := by
  intro c letter
  simp only [isLetter, Char.isAlpha, Char.isUpper, Char.isLower, Bool.or_eq_true, Bool.and_eq_true,
    decide_eq_true_eq, UInt32.le_iff_toNat_le] at letter
  rcases letter with ((upper | lower) | rfl) | rfl
  · exact Nat.lt_of_le_of_lt upper.2 (by decide)
  · exact Nat.lt_of_le_of_lt lower.2 (by decide)
  · decide
  · decide

theorem narrow_isBlank : Narrow isBlank := by
  intro c blank
  simp only [isBlank, Bool.or_eq_true, decide_eq_true_eq] at blank
  rcases blank with (((rfl | rfl) | rfl) | rfl) | rfl <;> decide

theorem narrow_contains {listed : List Char}
    (all : (listed.all fun c => decide (c.toNat < 128)) = true) :
    Narrow (fun c => listed.contains c) := by
  intro c member
  exact of_decide_eq_true (List.all_eq_true.mp all c (List.contains_iff_mem.mp member))

theorem narrow_isSingleOperator : Narrow isSingleOperator :=
  narrow_contains (by decide)

theorem narrow_isSymbolCharacter : Narrow isSymbolCharacter :=
  narrow_contains (by decide)

theorem narrow_eq {c : Char} (narrow : c.toNat < 128) : Narrow (fun d => decide (d = c)) := by
  intro d same
  rw [of_decide_eq_true same]
  exact narrow

theorem narrow_of_operatorPair {pair : Char × Char}
    (operator : operatorPairs.contains pair = true) :
    pair.1.toNat < 128 ∧ pair.2.toNat < 128 ∧ pair.2 ≠ '\x00' := by
  have all : ∀ pair ∈ operatorPairs,
      pair.1.toNat < 128 ∧ pair.2.toNat < 128 ∧ pair.2 ≠ '\x00' := by decide
  exact all pair (List.contains_iff_mem.mp operator)

theorem uniform_ne_quote : Uniform (· ≠ '"') := by
  have quote : Uniform (fun c => decide (c = '"')) := (narrow_eq (by decide)).uniform
  intro c d wide wideToo
  simpa using quote c d wide wideToo

section Head

variable (before : List Char) (c : Char) (following : List Char)

theorem exists_byteAt_size : ∃ byte ∈ String.utf8EncodeChar c,
    byteAt (bytes (before ++ c :: following)) (size before) = Char.ofUInt8 byte := by
  rw [bytes_append, size, byteAt_append, bytes_cons]
  cases encoded : String.utf8EncodeChar c with
  | nil => exact absurd encoded String.utf8EncodeChar_ne_nil
  | cons byte others => exact ⟨byte, List.mem_cons_self, rfl⟩

theorem Uniform.byteAt_size {test : Char → Bool} (uniform : Uniform test) :
    test (byteAt (bytes (before ++ c :: following)) (size before)) = test c := by
  obtain ⟨byte, member, shown⟩ := exists_byteAt_size before c following
  rw [shown]
  exact uniform.byte member

theorem byteAt_size_eq_iff {d : Char} (narrow : d.toNat < 128) :
    byteAt (bytes (before ++ c :: following)) (size before) = d ↔ c = d := by
  have same := (narrow_eq narrow).uniform.byteAt_size before c following
  exact decide_eq_decide.mp same

theorem byteAt_size_end : byteAt (bytes before) (size before) = '\x00' := by
  have ended := byteAt_append (bytes before) []
  rw [List.append_nil] at ended
  exact ended

theorem size_singleton {c : Char} (narrow : c.toNat < 128) : size [c] = 1 := by
  rw [size, bytes_cons, utf8EncodeChar_of_lt narrow]
  rfl

end Head

theorem cut_size (kind : Kind) (before lexeme rest : List Char) :
    scanAt?.cut (before ++ (lexeme ++ rest)) (size before) kind (size (before ++ lexeme)) =
      some (kind, lexeme, size (before ++ lexeme)) := by
  rw [scanAt?.cut, ← List.append_assoc, slice?_append]
  rfl

/-- What the scan at the head of a text does to the text behind others, byte by byte. Only of a
literal that is not closed more is taken than the lexeme, namely all there is. -/
def ScansAt (before text : List Char) (scanned : Scan) : Prop :=
  ∃ taken, text = taken ++ scanned.rest ∧ (taken = scanned.lexeme ∨ scanned.rest = []) ∧
    scanAt? (before ++ text) (size before) =
      some (scanned.kind, scanned.lexeme, size (before ++ taken))

theorem scansAt_of_cut {before text lexeme rest : List Char} {kind : Kind}
    (parts : text = lexeme ++ rest)
    (found : scanAt? (before ++ text) (size before) =
      scanAt?.cut (before ++ text) (size before) kind (size (before ++ lexeme))) :
    ScansAt before text ⟨kind, lexeme, rest⟩ := by
  refine ⟨lexeme, parts, .inl rfl, ?_⟩
  rw [found, parts]
  exact cut_size kind before lexeme rest

theorem scansAt_text (before following : List Char) :
    ScansAt before ('"' :: following) (scanText following) := by
  have head := (byteAt_size_eq_iff before '"' following (by decide)).mpr rfl
  have width : size ['"'] = 1 := rfl
  have closing := uniform_ne_quote.skipWhile_size (before ++ ['"']) following
  rw [List.append_assoc, List.singleton_append, size_append, width] at closing
  have found : scanAt? (before ++ '"' :: following) (size before) =
      if size (before ++ '"' :: following) ≤ size (before ++ '"' :: following.takeWhile (· ≠ '"'))
      then some (.illegal, ['"'], size (before ++ '"' :: following.takeWhile (· ≠ '"')))
      else scanAt?.cut (before ++ '"' :: following) (size before) .text
        (size (before ++ '"' :: following.takeWhile (· ≠ '"')) + 1) := by
    rw [scanAt?]
    dsimp only
    rw [if_pos head, closing, List.append_assoc, List.singleton_append]
    rfl
  have parts : following.takeWhile (· ≠ '"') ++ following.dropWhile (· ≠ '"') = following :=
    List.takeWhile_append_dropWhile
  have ended := List.head?_dropWhile_not (· ≠ '"') following
  unfold scanText
  generalize following.takeWhile (· ≠ '"') = content at parts found
  generalize following.dropWhile (· ≠ '"') = remaining at parts ended
  subst parts
  cases remaining with
  | nil =>
      refine ⟨'"' :: content, by simp, .inr rfl, ?_⟩
      rw [found, if_pos (by simp)]
  | cons quote rest =>
      have quoted : quote = '"' := by simpa using ended
      subst quoted
      have stop : size (before ++ '"' :: content) + 1 =
          size (before ++ ('"' :: content ++ ['"'])) := by
        rw [← List.append_assoc, size_append (before ++ '"' :: content), width]
      apply scansAt_of_cut (by simp)
      rw [found, stop, if_neg]
      have positive := '"'.utf8Size_pos
      simp
      omega

def beginsPair (c : Char) : List Char → Bool
  | second :: _ => operatorPairs.contains (c, second)
  | [] => false

section Marks

variable (before following : List Char) {c : Char} (unquoted : c ≠ '"')
include unquoted

theorem scansAt_word (letter : isLetter c = true) :
    ScansAt before (c :: following) (scanWord (c :: following)) := by
  have quote := mt (byteAt_size_eq_iff before c following (by decide)).mp unquoted
  have head := narrow_isLetter.uniform.byteAt_size before c following
  have stop := narrow_isLetter.uniform.skipWhile_size before (c :: following)
  have parts : c :: following = (c :: following).takeWhile isLetter ++
      (c :: following).dropWhile isLetter := List.takeWhile_append_dropWhile.symm
  have word := slice?_append before ((c :: following).takeWhile isLetter)
    ((c :: following).dropWhile isLetter)
  rw [List.append_assoc, ← parts] at word
  apply scansAt_of_cut parts
  rw [scanAt?]
  dsimp only
  rw [if_neg quote, head, if_pos letter, stop, word]
  rfl

variable (unlettered : isLetter c = false)
include unlettered

theorem scansAt_number (digit : c.isDigit = true) :
    ScansAt before (c :: following) (scanNumber (c :: following)) := by
  have quote := mt (byteAt_size_eq_iff before c following (by decide)).mp unquoted
  have letter := narrow_isLetter.uniform.byteAt_size before c following
  have head := narrow_isDigit.uniform.byteAt_size before c following
  have stop := narrow_isDigit.uniform.skipWhile_size before (c :: following)
  have parts : (c :: following).takeWhile Char.isDigit ++ (c :: following).dropWhile Char.isDigit =
      c :: following := List.takeWhile_append_dropWhile
  have found : scanAt? (before ++ c :: following) (size before) =
      let text := bytes (before ++ c :: following)
      let whole := size (before ++ (c :: following).takeWhile Char.isDigit)
      if whole < text.length ∧ byteAt text whole = '.' then
        scanAt?.cut (before ++ c :: following) (size before) .number
          (skipWhile Char.isDigit text (whole + 1))
      else scanAt?.cut (before ++ c :: following) (size before) .number whole := by
    rw [scanAt?]
    dsimp only
    rw [if_neg quote, letter, if_neg (by simp [unlettered]), head, if_pos digit, stop]
  unfold scanNumber
  dsimp only at found ⊢
  generalize (c :: following).takeWhile Char.isDigit = whole at parts found
  generalize (c :: following).dropWhile Char.isDigit = remaining at parts
  rw [← parts] at found ⊢
  rw [← List.append_assoc] at found
  split
  · next rest =>
      have point := (byteAt_size_eq_iff (before ++ whole) '.' rest (by decide)).mpr rfl
      have inside : size (before ++ whole) < (bytes (before ++ whole ++ '.' :: rest)).length := by
        have positive := '.'.utf8Size_pos
        change _ < size _
        rw [size_append (before ++ whole), size_cons]
        omega
      have width : size ['.'] = 1 := rfl
      have places := narrow_isDigit.uniform.skipWhile_size (before ++ whole ++ ['.']) rest
      rw [size_append (before ++ whole), width, List.append_assoc (before ++ whole),
        List.singleton_append] at places
      apply scansAt_of_cut (by simp)
      rw [← List.append_assoc, found, if_pos ⟨inside, point⟩, places]
      simp
  · next unpointed =>
      have ended : ¬(size (before ++ whole) < (bytes (before ++ whole ++ remaining)).length ∧
          byteAt (bytes (before ++ whole ++ remaining)) (size (before ++ whole)) = '.') := by
        rintro ⟨inside, point⟩
        cases remaining with
        | nil =>
            rw [List.append_nil] at inside
            exact Nat.lt_irrefl _ inside
        | cons d rest =>
            rw [byteAt_size_eq_iff (before ++ whole) d rest (by decide)] at point
            exact unpointed rest (congrArg (· :: rest) point)
      apply scansAt_of_cut rfl
      rw [← List.append_assoc, found, if_neg ended]

omit unquoted unlettered in
/-- The next byte stands for the next character, if it matters which one that is. -/
theorem contains_operatorPair (c : Char) :
    operatorPairs.contains (byteAt (bytes (before ++ c :: following)) (size before),
        byteAt (bytes (before ++ c :: following)) (size before + 1)) =
      beginsPair c following := by
  have first : ∀ second, Narrow (fun c => operatorPairs.contains (c, second)) :=
    fun _ _ operator => (narrow_of_operatorPair operator).1
  have second : Narrow (fun second => operatorPairs.contains (c, second)) :=
    fun _ operator => (narrow_of_operatorPair operator).2.1
  rw [(first _).uniform.byteAt_size before c following]
  by_cases narrow : c.toNat < 128
  · have next : size before + 1 = size (before ++ [c]) := by
      rw [size_append, size_singleton narrow]
    have moved : before ++ c :: following = (before ++ [c]) ++ following := by simp
    rw [next, moved]
    cases following with
    | nil =>
        rw [List.append_nil, byteAt_size_end, beginsPair, Bool.eq_false_iff]
        intro operator
        exact (narrow_of_operatorPair operator).2.2 rfl
    | cons d rest => exact second.uniform.byteAt_size (before ++ [c]) d rest
  · have wide := Nat.le_of_not_lt narrow
    rw [(first _).refuses wide]
    cases following with
    | nil => rfl
    | cons d rest => exact ((first d).refuses wide).symm

theorem scanAt?_mark (undigited : c.isDigit = false) :
    scanAt? (before ++ c :: following) (size before) =
      if beginsPair c following then
        scanAt?.cut (before ++ c :: following) (size before) .operator (size before + 2)
      else scanAt?.cut (before ++ c :: following) (size before) (scanMark.single c following).kind
        (size (before ++ [c])) := by
  have quote := mt (byteAt_size_eq_iff before c following (by decide)).mp unquoted
  have letter := narrow_isLetter.uniform.byteAt_size before c following
  have digit := narrow_isDigit.uniform.byteAt_size before c following
  have single := narrow_isSingleOperator.uniform.byteAt_size before c following
  have symbol := narrow_isSymbolCharacter.uniform.byteAt_size before c following
  have next : c.toNat < 128 → size before + 1 = size (before ++ [c]) := by
    intro narrow
    rw [size_append, size_singleton narrow]
  rw [scanAt?]
  dsimp only
  rw [if_neg quote, letter, if_neg (by simp [unlettered]), digit, if_neg (by simp [undigited]),
    contains_operatorPair, single, symbol, splitAt?_append]
  split
  · rfl
  · rw [scanMark.single]
    dsimp only
    split
    · next operator => rw [next (narrow_isSingleOperator c operator)]
    · split
      · next marked => rw [next (narrow_isSymbolCharacter c marked)]
      · simp

theorem scansAt_mark (undigited : c.isDigit = false) :
    ScansAt before (c :: following) (scanMark c following) := by
  have found := scanAt?_mark before following unquoted unlettered undigited
  cases following with
  | nil => exact scansAt_of_cut (rfl : [c] = [c] ++ []) found
  | cons second rest =>
      rw [beginsPair] at found
      rw [scanMark]
      split
      · next pair =>
          obtain ⟨narrow, narrowToo, -⟩ := narrow_of_operatorPair pair
          have width : size [c, second] = 2 := by
            rw [← List.singleton_append, size_append, size_singleton narrow,
              size_singleton narrowToo]
          have parts : c :: second :: rest = [c, second] ++ rest := rfl
          apply scansAt_of_cut parts
          rw [found, if_pos pair, size_append, width]
      · next single =>
          have parts : c :: second :: rest = [c] ++ second :: rest := rfl
          apply scansAt_of_cut parts
          rw [found, if_neg single]
          rfl

end Marks

theorem scansAt_scan (before : List Char) (c : Char) (following : List Char) :
    ScansAt before (c :: following) (scan c following) := by
  unfold scan
  split
  · next quote =>
      subst quote
      exact scansAt_text before following
  · next unquoted =>
      split
      · next letter => exact scansAt_word before following unquoted letter
      · next unlettered =>
          rw [Bool.not_eq_true] at unlettered
          split
          · next digit => exact scansAt_number before following unquoted unlettered digit
          · next undigited =>
              rw [Bool.not_eq_true] at undigited
              exact scansAt_mark before following unquoted unlettered undigited

theorem advanceBytes_append (place : Position) (first second : List UInt8) :
    advanceBytes place (first ++ second) = advanceBytes (advanceBytes place first) second :=
  List.foldl_append

theorem advanceBytes_utf8EncodeChar (place : Position) (c : Char) :
    advanceBytes place (String.utf8EncodeChar c) = place.advance c := by
  by_cases newline : c = '\n'
  · subst newline
    rfl
  · have plain : ∀ byte ∈ String.utf8EncodeChar c, Char.ofUInt8 byte ≠ '\n' := by
      intro byte member same
      have uniform := (narrow_eq (by decide : '\n'.toNat < 128)).uniform
      exact newline (decide_eq_decide.mp (uniform.byte member) |>.mp same)
    have moved : ∀ (run : List UInt8) (place : Position),
        (∀ byte ∈ run, Char.ofUInt8 byte ≠ '\n') →
          advanceBytes place run = ⟨place.row, place.col + run.length⟩ := by
      intro run
      induction run with
      | nil => exact fun _ _ => rfl
      | cons byte run induction =>
          intro place plain
          obtain ⟨here, others⟩ := List.forall_mem_cons.mp plain
          rw [advanceBytes, List.foldl_cons, if_neg here]
          rw [← advanceBytes, induction _ others]
          simp [Nat.add_comm, Nat.add_left_comm]
    rw [moved _ _ plain, Position.advance, if_neg newline, String.length_utf8EncodeChar]

theorem advanceBytes_bytes (place : Position) (characters : List Char) :
    advanceBytes place (bytes characters) = place.advanceOver characters := by
  induction characters generalizing place with
  | nil => rfl
  | cons c rest induction =>
      rw [bytes_cons, advanceBytes_append, advanceBytes_utf8EncodeChar, induction]
      rfl

theorem bytes_between (before between behind : List Char) :
    ((bytes (before ++ (between ++ behind))).drop (size before)).take
        (size (before ++ between) - size before) = bytes between := by
  rw [size_append, Nat.add_sub_cancel_left, bytes_append, bytes_append]
  change ((bytes before ++ (bytes between ++ bytes behind)).drop (bytes before).length).take
    (bytes between).length = bytes between
  rw [List.drop_left, List.take_left]

theorem scanAll_blanks (found : List Token) (place : Position) (characters : List Char) :
    scanAll found place characters =
      scanAll found (place.advanceOver (characters.takeWhile isBlank))
        (characters.dropWhile isBlank) := by
  induction characters generalizing place with
  | nil => rfl
  | cons c rest induction =>
      by_cases blank : isBlank c = true
      · rw [scanAll, if_pos blank, List.takeWhile_cons, if_pos blank, List.dropWhile_cons,
          if_pos blank]
        exact induction (place.advance c)
      · rw [List.takeWhile_cons, if_neg blank, List.dropWhile_cons, if_neg blank]
        rfl

theorem scanAll_cons (found : List Token) (place : Position) {c : Char} (mark : isBlank c = false)
    (following : List Char) :
    scanAll found place (c :: following) =
      scanAll (⟨(scan c following).kind, String.ofList (scan c following).lexeme, place⟩ :: found)
        (place.advanceOver (scan c following).lexeme) (scan c following).rest := by
  rw [scanAll, if_neg (by simp [mark])]

theorem scanAll_nil (found : List Token) (place : Position) :
    scanAll found place [] = found.reverse := by
  rw [scanAll]

theorem size_rest_scan_lt {c : Char} {following taken : List Char}
    (parts : c :: following = taken ++ (scan c following).rest) :
    size (scan c following).rest < size (c :: following) := by
  have shorter := length_rest_scan_le c following
  cases taken with
  | nil =>
      rw [List.nil_append] at parts
      rw [← parts, List.length_cons] at shorter
      exact absurd shorter (Nat.not_succ_le_self _)
  | cons d taken =>
      have positive := d.utf8Size_pos
      rw [parts, List.cons_append, size_cons, size_append]
      omega

theorem tokensAt?_eq (before rest : List Char) {rounds : Nat} (enough : size rest < rounds)
    (place : Position) (found : List Token) :
    tokensAt? (before ++ rest) rounds (size before) place found =
      some (scanAll found place rest) := by
  induction rounds generalizing before rest place found with
  | zero => exact absurd enough (Nat.not_lt_zero _)
  | succ rounds induction =>
      have start := narrow_isBlank.uniform.skipWhile_size before rest
      have parts : rest.takeWhile isBlank ++ rest.dropWhile isBlank = rest :=
        List.takeWhile_append_dropWhile
      have ended := List.head?_dropWhile_not isBlank rest
      rw [scanAll_blanks, tokensAt?]
      dsimp only
      rw [start]
      generalize rest.takeWhile isBlank = blanks at parts
      generalize rest.dropWhile isBlank = remaining at parts ended
      subst parts
      rw [bytes_between, advanceBytes_bytes]
      cases remaining with
      | nil =>
          rw [if_pos (by simp [size]), scanAll_nil]
      | cons c following =>
          have mark : isBlank c = false := by simpa using ended
          obtain ⟨taken, taking, exactly, scanned⟩ := scansAt_scan (before ++ blanks) c following
          have inside : ¬(bytes (before ++ (blanks ++ c :: following))).length ≤
              size (before ++ blanks) := by
            have positive := c.utf8Size_pos
            change ¬size _ ≤ _
            rw [← List.append_assoc, size_append (before ++ blanks), size_cons]
            omega
          have fewer : size (scan c following).rest < rounds := by
            have shrinks := size_rest_scan_lt taking
            rw [size_append] at enough
            omega
          have whole : before ++ blanks ++ c :: following =
              before ++ blanks ++ taken ++ (scan c following).rest := by
            rw [List.append_assoc (before ++ blanks), ← taking]
          have between := bytes_between (before ++ blanks) taken (scan c following).rest
          rw [← taking] at between
          rw [scanAll_cons _ _ mark, if_neg inside, ← List.append_assoc, scanned]
          dsimp only [Option.bind_eq_bind, Option.bind_some]
          rw [between, advanceBytes_bytes, whole, induction _ _ fewer]
          rcases exactly with rfl | nothing
          · rfl
          · rw [nothing, scanAll_nil, scanAll_nil]

/-- The tokens of a text can be read byte by byte: no cut fails. -/
theorem tokenizeBytes?_eq (source : String) : tokenizeBytes? source = some (tokenize source) :=
  tokensAt?_eq [] source.toList (Nat.lt_succ_self _) .start []

end Bytes

end Token

end Easel
