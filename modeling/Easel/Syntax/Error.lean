import Easel.Token

/-!
Why a text is no program. An error points at the token that could not be
accepted, and says what would have been.
-/

namespace Easel

inductive Expectation where
  | symbol (lexeme : String)
  | separatorOr (closing : String)
  | identifier
  | statement
  | expression
  | operator
  | binaryOperator
deriving DecidableEq, Repr

def Expectation.text : Expectation → String
  | .symbol lexeme => "`" ++ lexeme ++ "`"
  | .separatorOr closing => "`,` or `" ++ closing ++ "`"
  | .identifier => "an identifier"
  | .statement => "a statement"
  | .expression => "an expression"
  | .operator => "an operator"
  | .binaryOperator => "a binary operator"

inductive SyntaxError where
  | unexpected (position : Position) (lexeme : String) (expected : Expectation)
  | illegal (position : Position) (lexeme : String)
  | invalidNumber (position : Position) (lexeme : String)
  | unexpectedEnd (expected : Expectation)
  | tooDeep (position : Position) (limit : Nat)
deriving DecidableEq, Repr

namespace SyntaxError

/-- The complaint about a token that stands where something else was expected. A
token of no lexical class is never merely out of place. -/
def atToken (token : Token) (expected : Expectation) : SyntaxError :=
  if token.kind = .illegal then .illegal token.position token.lexeme
  else .unexpected token.position token.lexeme expected

def locate (position : Position) : String :=
  "syntax error at " ++ toString position.row ++ ":" ++ toString position.col ++ ": "

def message : SyntaxError → String
  | .unexpected position lexeme expected =>
      locate position ++ "expected " ++ expected.text ++ ", found `" ++ lexeme ++ "`"
  | .illegal position lexeme => locate position ++ "unrecognized input `" ++ lexeme ++ "`"
  | .invalidNumber position lexeme => locate position ++ "invalid number `" ++ lexeme ++ "`"
  | .unexpectedEnd expected =>
      "syntax error: unexpected end of input, expected " ++ expected.text
  | .tooDeep position limit =>
      locate position ++ "nesting deeper than " ++ toString limit ++ " levels"

end SyntaxError

end Easel
