import Easel.Builtin
import Easel.Channel
import Easel.Source.Fault
import Easel.Syntax.Error
import Easel.Value

/-!
Why a program fails. Each cause is a constructor with what its message needs, and the
wording of all messages is in one function. An operator, a builtin, a construct and a signal
are named in an error by their texts, since a host may word errors of its own.
-/

namespace Easel

inductive RuntimeError where
  | undefinedIdentifier (name : String)
  | unknownUnary (operator : String) (operand : Value.Kind)
  | unknownBinary (left : Value.Kind) (operator : String) (right : Value.Kind)
  | typeMismatch (left : Value.Kind) (operator : String) (right : Value.Kind)
  | notAFunction (name : String) (kind : Value.Kind)
  | notIndexable (kind : Value.Kind)
  | unsupportedArgument (builtin : String) (kind : Value.Kind)
  | incorrectArity (name : String) (got want : Nat)
  | outOfBounds (index : Int) (length : Nat)
  | invalidRepeatCount (count : String)
  | divisionByZero
  | invalidIncrementTarget (operator : String)
  | conversionFailed (text : String)
  | recursiveImport (name : String)
  | unknownImportKind (kind : String)
  | importFailed (name : String) (fault : Source.LoadFault)
  | unsupported (construct : String)
  | signalOutsideLoop (signal : String)
  | callDepthExceeded (limit : Nat)
  | evaluationDepthExceeded (limit : Nat)
  | channel (fault : ChannelFault)
deriving DecidableEq, Repr

namespace RuntimeError

/-- The complaint about operands that an operator does not take. Operands of one kind
are called an unknown combination, operands of two kinds a mismatch. -/
def operands (left : Value.Kind) (operator : BinaryOperator) (right : Value.Kind) :
    RuntimeError :=
  if left = right then .unknownBinary left operator.spelling right
  else .typeMismatch left operator.spelling right

def message : RuntimeError → String
  | .undefinedIdentifier name => "undefined identifier: " ++ name
  | .unknownUnary operator operand => "unknown operator: " ++ operator ++ operand.name
  | .unknownBinary left operator right =>
      "unknown operator: " ++ left.name ++ " " ++ operator ++ " " ++ right.name
  | .typeMismatch left operator right =>
      "type mismatch: " ++ left.name ++ " " ++ operator ++ " " ++ right.name
  | .notAFunction name kind => "not a function: " ++ name ++ " is " ++ kind.name
  | .notIndexable kind => "index operator not supported: " ++ kind.name
  | .unsupportedArgument builtin kind =>
      "argument to `" ++ builtin ++ "` not supported, got " ++ kind.name
  | .incorrectArity name got want =>
      "wrong number of arguments to `" ++ name ++ "`. got=" ++ toString got ++ ", want=" ++
        toString want
  | .outOfBounds index length =>
      "index " ++ toString index ++ " out of bounds for length " ++ toString length
  | .invalidRepeatCount count => "repeat count must be a number >= 0, got " ++ count
  | .divisionByZero => "division by zero in `%`"
  | .invalidIncrementTarget operator =>
      "operand of `" ++ operator ++ "` must be a variable"
  | .conversionFailed text => "cannot convert \"" ++ text ++ "\" to a number"
  | .recursiveImport name => "recursive import of '" ++ name ++ "'"
  | .unknownImportKind kind => "unknown import kind '" ++ kind ++ "', expected LIB or FILE"
  | .importFailed name fault => "cannot import '" ++ name ++ "': " ++ fault.message
  | .unsupported construct => "unsupported construct: " ++ construct
  | .signalOutsideLoop signal => "`" ++ signal ++ "` outside of a loop"
  | .callDepthExceeded limit => "maximum call depth of " ++ toString limit ++ " exceeded"
  | .evaluationDepthExceeded limit =>
      "maximum evaluation depth of " ++ toString limit ++ " exceeded"
  | .channel fault => "i/o error: " ++ fault.message

end RuntimeError

inductive Failure where
  | misread (error : SyntaxError)
  | runtime (error : RuntimeError)
  | raised (message : String)
deriving DecidableEq, Repr

def Failure.message : Failure → String
  | .misread error => error.message
  | .runtime error => error.message
  | .raised message => message

end Easel
