/-!
Tokens of the canvas language. A token keeps the exact characters it was read
from, so that a diagnostic can quote them, and the place where they begin. Rows
and columns start at one. A column counts the bytes of the text's UTF-8 form,
not its characters.
-/

namespace Easel

structure Position where
  row : Nat
  col : Nat
deriving DecidableEq, Repr, Inhabited

namespace Position

def start : Position := ⟨1, 1⟩

/-- The place just after one character. Only a newline begins a row; every
other character, carriage return included, moves by its width in bytes. -/
def advance (position : Position) (c : Char) : Position :=
  if c = '\n' then ⟨position.row + 1, 1⟩ else ⟨position.row, position.col + c.utf8Size⟩

def advanceOver (position : Position) (characters : List Char) : Position :=
  characters.foldl advance position

end Position

namespace Token

/-- The lexical classes. Characters outside every class are tokens of their
own, marked `illegal`, and left to the parser to refuse. -/
inductive Kind where
  | illegal
  | identifier
  | operator
  | symbol
  | keyword
  | number
  | text
deriving DecidableEq, Repr, Inhabited

def keywords : List String :=
  ["if", "elif", "else", "while", "for", "repeat", "def", "ret", "break", "continue"]

end Token

structure Token where
  kind : Token.Kind
  lexeme : String
  position : Position
deriving DecidableEq, Repr, Inhabited

namespace Token

/-- Class and spelling are compared together: an operator is never taken for a
symbol that is spelled alike. -/
def isExactly (token : Token) (kind : Kind) (lexeme : String) : Bool :=
  token.kind = kind && token.lexeme = lexeme

def isSymbol (token : Token) (lexeme : String) : Bool :=
  token.isExactly .symbol lexeme

def isKeyword (token : Token) (lexeme : String) : Bool :=
  token.isExactly .keyword lexeme

def isIdentifier (token : Token) : Bool :=
  token.kind = .identifier

end Token

end Easel
