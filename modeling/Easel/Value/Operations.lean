import Easel.Error
import Easel.Number.Whole

/-!
What operators do to values. Both operands are always given: conjunction and
disjunction look at the truth of two values and do not spare the second one.
-/

namespace Easel

/-- How an operation can end without a value. A crash is no error that a host could
report: it ends the host. -/
inductive Mishap where
  | error (cause : RuntimeError)
  | crash
deriving DecidableEq, Repr

namespace Value

/-- The index that a position selects among `length` items. A negative zero, which is also
what is left of a small negative fraction, selects the first item. What is no number lies
outside neither bound and selects the first item too, whether there is one or not. -/
def selectIndex (position : Number.Whole) (length : Nat) : Except RuntimeError Nat :=
  match position with
  | .nan => .ok 0
  | .infinite _ => .error (.outOfBounds position.clamp length)
  | .whole negative magnitude =>
      if (negative && magnitude ≠ 0) || length ≤ magnitude then
        .error (.outOfBounds position.clamp length)
      else .ok magnitude

def select {α : Type} (items : List α) (position : Number.Whole) : Except Mishap α :=
  match selectIndex position items.length with
  | .error cause => .error (.error cause)
  | .ok index =>
      match items[index]? with
      | some item => .ok item
      | Option.none => .error .crash

/-- An item of a list, or a character of a text's content as a text. The kind of the
index is looked at before the kind of what is indexed. -/
def index (container position : Value) : Except Mishap Value :=
  match position with
  | .number n =>
      match container with
      | .list items => select items n.truncate
      | .text quoted => do
          let c ← select (Text.unquote quoted).toList n.truncate
          return ofContent (String.singleton c)
      | other => .error (.error (.notIndexable other.kind))
  | other => .error (.error (.operands container.kind .index other.kind))

def equality? : Value → Value → Option Bool
  | .number left, .number right => some (left == right)
  | .text left, .text right => some (Text.unquote left == Text.unquote right)
  | _, _ => Option.none

def sum? : Value → Value → Option Value
  | .number left, .number right => some (.number (left + right))
  | .text left, .text right => some (ofContent (Text.unquote left ++ Text.unquote right))
  | _, _ => Option.none

def arithmetic (operator : BinaryOperator) (left right : Number) : Except RuntimeError Value :=
  match operator with
  | .plus => .ok (.number (left + right))
  | .minus => .ok (.number (left - right))
  | .times => .ok (.number (left * right))
  -- Division by zero follows IEEE arithmetic; only a remainder by zero is an error.
  | .divide => .ok (.number (left / right))
  | .power => .ok (.number (Float.pow left right))
  | .remainder =>
      match Number.remainder? left right with
      | some value => .ok (.number value)
      | Option.none => .error .divisionByZero
  | .less => .ok (ofBool (left < right))
  | .lessEqual => .ok (ofBool (left ≤ right))
  | .greater => .ok (ofBool (left > right))
  | .greaterEqual => .ok (ofBool (left ≥ right))
  | _ => .error (.unknownBinary .number operator.spelling .number)

def binary (operator : BinaryOperator) (left right : Value) : Except Mishap Value :=
  match operator with
  | .and => .ok (ofBool (left.isTruthy && right.isTruthy))
  | .or => .ok (ofBool (left.isTruthy || right.isTruthy))
  | .index => left.index right
  | .member => .error (.error (.unsupported "member access"))
  | .equal => orRefuse ((equality? left right).map ofBool)
  | .notEqual => orRefuse ((equality? left right).map fun equal => ofBool !equal)
  | .plus => orRefuse (sum? left right)
  | .minus | .times | .divide | .remainder | .power | .less | .lessEqual | .greater
  | .greaterEqual =>
      match left, right with
      | .number x, .number y => (arithmetic operator x y).mapError .error
      | _, _ => orRefuse Option.none
where
  orRefuse (result : Option Value) : Except Mishap Value :=
    match result with
    | some value => .ok value
    | Option.none => .error (.error (.operands left.kind operator right.kind))

def unary (operator : UnaryOperator) (operand : Value) : Except RuntimeError Value :=
  match operator, operand with
  | .not, .number n => .ok (ofBool (n == 0))
  | .negate, .number n => .ok (.number (-n))
  | _, _ => .error (.unknownUnary operator.spelling operand.kind)

end Value

end Easel
