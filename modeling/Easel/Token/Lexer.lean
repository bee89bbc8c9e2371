import Easel.Token

/-!
Reading a source text as tokens. One step splits the lexeme at the head of the
text from what follows it; the loop skips blanks, takes one lexeme after
another and keeps count of the place. The longest lexeme wins: `>=` is one
operator, `1.5` one number and `iffy` one identifier.
-/

namespace Easel.Token

/-- The characters that separate lexemes and have no other meaning: space, tab,
newline, carriage return and form feed. A vertical tab is not among them. -/
def isBlank (c : Char) : Bool :=
  c = ' ' || c = '\t' || c = '\n' || c = '\r' || c = '\x0c'

def isLetter (c : Char) : Bool :=
  c.isAlpha || c = '_' || c = '@'

def operatorPairs : List (Char × Char) :=
  [('=', '='), ('!', '='), ('>', '='), ('<', '='), ('&', '&'), ('|', '|'), ('+', '='),
    ('-', '='), ('*', '='), ('/', '='), ('%', '='), ('^', '='), ('+', '+'), ('-', '-')]

def isSingleOperator (c : Char) : Bool :=
  ['+', '-', '*', '/', '%', '^', '=', '<', '>', '!', '.'].contains c

def isSymbolCharacter (c : Char) : Bool :=
  ['{', '}', '(', ')', '[', ']', ';', ':', ','].contains c

structure Scan where
  kind : Kind
  lexeme : List Char
  rest : List Char
deriving DecidableEq, Repr

/-- A text literal whose opening quote has been read. Without a closing quote
the literal is refused as a whole: the token is the opening quote alone and
nothing of the text is left. -/
def scanText (following : List Char) : Scan :=
  match following.dropWhile (· ≠ '"') with
  | quote :: rest => ⟨.text, '"' :: following.takeWhile (· ≠ '"') ++ [quote], rest⟩
  | [] => ⟨.illegal, ['"'], []⟩

def scanWord (characters : List Char) : Scan :=
  let word := characters.takeWhile isLetter
  ⟨if keywords.contains (String.ofList word) then .keyword else .identifier, word,
    characters.dropWhile isLetter⟩

def scanNumber (characters : List Char) : Scan :=
  let whole := characters.takeWhile Char.isDigit
  match characters.dropWhile Char.isDigit with
  | '.' :: rest =>
      ⟨.number, whole ++ '.' :: rest.takeWhile Char.isDigit, rest.dropWhile Char.isDigit⟩
  | rest => ⟨.number, whole, rest⟩

def scanMark (c : Char) (following : List Char) : Scan :=
  match following with
  | second :: rest =>
      if operatorPairs.contains (c, second) then ⟨.operator, [c, second], rest⟩
      else single following
  | [] => single []
where
  single (rest : List Char) : Scan :=
    ⟨if isSingleOperator c then .operator else if isSymbolCharacter c then .symbol else .illegal,
      [c], rest⟩

def scan (c : Char) (following : List Char) : Scan :=
  if c = '"' then scanText following
  else if isLetter c then scanWord (c :: following)
  else if c.isDigit then scanNumber (c :: following)
  else scanMark c following

theorem length_dropWhile_le (p : Char → Bool) (characters : List Char) :
    (characters.dropWhile p).length ≤ characters.length :=
  (List.dropWhile_sublist p).length_le

theorem length_rest_scan_le (c : Char) (following : List Char) :
    (scan c following).rest.length ≤ following.length := by
  unfold scan
  split
  · have shrinks := length_dropWhile_le (· ≠ '"') following
    unfold scanText
    split
    · next rest found =>
        rw [found] at shrinks
        simp only [List.length_cons] at shrinks
        exact Nat.le_of_succ_le shrinks
    · simp
  · split
    · next letter =>
        simp only [scanWord, List.dropWhile_cons, letter, if_true]
        exact length_dropWhile_le isLetter following
    · split
      · next digit =>
          have shrinks := length_dropWhile_le Char.isDigit following
          unfold scanNumber
          simp only [List.dropWhile_cons, digit, if_true]
          split
          · next rest found =>
              rw [found] at shrinks
              simp only [List.length_cons] at shrinks
              exact Nat.le_trans (length_dropWhile_le Char.isDigit rest) (Nat.le_of_succ_le shrinks)
          · exact shrinks
      · unfold scanMark
        split
        · split
          · simp
          · simp [scanMark.single]
        · simp [scanMark.single]

/-- The tokens of a text that stands at `position`, after the tokens `found` so
far, newest first. -/
def scanAll (found : List Token) (position : Position) (characters : List Char) : List Token :=
  match characters with
  | [] => found.reverse
  | c :: following =>
      if isBlank c then scanAll found (position.advance c) following
      else
        let next := scan c following
        scanAll (⟨next.kind, String.ofList next.lexeme, position⟩ :: found)
          (position.advanceOver next.lexeme) next.rest
termination_by characters.length
decreasing_by
  · simp
  · exact Nat.lt_succ_of_le (length_rest_scan_le c following)

def tokenize (source : String) : List Token :=
  scanAll [] .start source.toList

end Easel.Token
