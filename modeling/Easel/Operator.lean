/-!
The operators of the language: their spellings, the tables that read a lexeme
as an operator, and the precedences that decide how far an operand extends.
One lexeme may stand in several tables: `-` is a binary and a prefix operator,
`++` a prefix and a postfix one.
-/

namespace Easel

/-- Operators with two operands. Indexing is written with brackets around its
right operand, so no lexeme reads as `index`. -/
inductive BinaryOperator where
  | and
  | or
  | equal
  | notEqual
  | greaterEqual
  | greater
  | lessEqual
  | less
  | plus
  | minus
  | times
  | divide
  | remainder
  | power
  | member
  | index
deriving DecidableEq, Repr, Inhabited

/-- Operators with one operand. The increments are told apart by the side of
their operand on which they stand. -/
inductive UnaryOperator where
  | not
  | negate
  | preIncrement
  | preDecrement
  | postIncrement
  | postDecrement
deriving DecidableEq, Repr, Inhabited

inductive AssignOperator where
  | assign
  | plusAssign
  | minusAssign
  | timesAssign
  | divideAssign
  | remainderAssign
  | powerAssign
deriving DecidableEq, Repr, Inhabited

namespace BinaryOperator

def spelling : BinaryOperator → String
  | .and => "&&"
  | .or => "||"
  | .equal => "=="
  | .notEqual => "!="
  | .greaterEqual => ">="
  | .greater => ">"
  | .lessEqual => "<="
  | .less => "<"
  | .plus => "+"
  | .minus => "-"
  | .times => "*"
  | .divide => "/"
  | .remainder => "%"
  | .power => "^"
  | .member => "."
  | .index => "[]"

def ofLexeme? (lexeme : String) : Option BinaryOperator :=
  match lexeme with
  | "&&" => some .and
  | "||" => some .or
  | "==" => some .equal
  | "!=" => some .notEqual
  | ">=" => some .greaterEqual
  | ">" => some .greater
  | "<=" => some .lessEqual
  | "<" => some .less
  | "+" => some .plus
  | "-" => some .minus
  | "*" => some .times
  | "/" => some .divide
  | "%" => some .remainder
  | "^" => some .power
  | "." => some .member
  | _ => none

theorem ofLexeme?_spelling (operator : BinaryOperator) (written : operator ≠ .index) :
    ofLexeme? operator.spelling = some operator := by
  cases operator with
  | index => exact absurd rfl written
  | _ => rfl

theorem spelling_of_ofLexeme? {lexeme : String} {operator : BinaryOperator}
    (found : ofLexeme? lexeme = some operator) : operator.spelling = lexeme := by
  unfold ofLexeme? at found
  split at found <;> cases found <;> rfl

end BinaryOperator

namespace UnaryOperator

def spelling : UnaryOperator → String
  | .not => "!"
  | .negate => "-"
  | .preIncrement | .postIncrement => "++"
  | .preDecrement | .postDecrement => "--"

def beforeOperand? (lexeme : String) : Option UnaryOperator :=
  match lexeme with
  | "!" => some .not
  | "-" => some .negate
  | "++" => some .preIncrement
  | "--" => some .preDecrement
  | _ => none

def afterOperand? (lexeme : String) : Option UnaryOperator :=
  match lexeme with
  | "++" => some .postIncrement
  | "--" => some .postDecrement
  | _ => none

def step? : UnaryOperator → Option Int
  | .preIncrement | .postIncrement => some 1
  | .preDecrement | .postDecrement => some (-1)
  | .not | .negate => none

def isAfterOperand : UnaryOperator → Bool
  | .postIncrement | .postDecrement => true
  | _ => false

theorem beforeOperand?_spelling (operator : UnaryOperator)
    (before : operator.isAfterOperand = false) :
    beforeOperand? operator.spelling = some operator := by
  cases operator with
  | postIncrement | postDecrement => cases before
  | _ => rfl

theorem spelling_of_beforeOperand? {lexeme : String} {operator : UnaryOperator}
    (found : beforeOperand? lexeme = some operator) :
    operator.isAfterOperand = false ∧ operator.spelling = lexeme := by
  unfold beforeOperand? at found
  split at found <;> cases found <;> exact ⟨rfl, rfl⟩

theorem afterOperand?_spelling (operator : UnaryOperator)
    (after : operator.isAfterOperand = true) :
    afterOperand? operator.spelling = some operator := by
  cases operator with
  | postIncrement | postDecrement => rfl
  | _ => cases after

theorem spelling_of_afterOperand? {lexeme : String} {operator : UnaryOperator}
    (found : afterOperand? lexeme = some operator) :
    operator.isAfterOperand = true ∧ operator.spelling = lexeme := by
  unfold afterOperand? at found
  split at found <;> cases found <;> exact ⟨rfl, rfl⟩

end UnaryOperator

namespace AssignOperator

def spelling : AssignOperator → String
  | .assign => "="
  | .plusAssign => "+="
  | .minusAssign => "-="
  | .timesAssign => "*="
  | .divideAssign => "/="
  | .remainderAssign => "%="
  | .powerAssign => "^="

def ofLexeme? (lexeme : String) : Option AssignOperator :=
  match lexeme with
  | "=" => some .assign
  | "+=" => some .plusAssign
  | "-=" => some .minusAssign
  | "*=" => some .timesAssign
  | "/=" => some .divideAssign
  | "%=" => some .remainderAssign
  | "^=" => some .powerAssign
  | _ => none

/-- The operator that a compound assignment applies. Plain assignment applies
none. -/
def binary? : AssignOperator → Option BinaryOperator
  | .assign => none
  | .plusAssign => some .plus
  | .minusAssign => some .minus
  | .timesAssign => some .times
  | .divideAssign => some .divide
  | .remainderAssign => some .remainder
  | .powerAssign => some .power

theorem ofLexeme?_spelling (operator : AssignOperator) :
    ofLexeme? operator.spelling = some operator := by
  cases operator <;> rfl

theorem spelling_of_ofLexeme? {lexeme : String} {operator : AssignOperator}
    (found : ofLexeme? lexeme = some operator) : operator.spelling = lexeme := by
  unfold ofLexeme? at found
  split at found <;> cases found <;> rfl

end AssignOperator

inductive Precedence where
  | lowest
  | logical
  | comparison
  | sum
  | product
  | power
  | member
  | index
  | unary
deriving DecidableEq, Repr, Inhabited

namespace Precedence

def rank : Precedence → Nat
  | .lowest => 0
  | .logical => 1
  | .comparison => 2
  | .sum => 3
  | .product => 4
  | .power => 5
  | .member => 6
  | .index => 7
  | .unary => 8

end Precedence

/-- Conjunction and disjunction share one level, as do all comparisons. -/
def BinaryOperator.precedence : BinaryOperator → Precedence
  | .and | .or => .logical
  | .equal | .notEqual | .greaterEqual | .greater | .lessEqual | .less => .comparison
  | .plus | .minus => .sum
  | .times | .divide | .remainder => .product
  | .power => .power
  | .member => .member
  | .index => .index

end Easel
