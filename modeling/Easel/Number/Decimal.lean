import Easel.Number.Double

/-!
Decimal notation as the language reads it: digits, then perhaps a point and more
digits. There are no exponents, and a sign is the reader's own business: literals
have none, and texts converted to numbers may have a leading minus.
-/

namespace Easel

/-- The number `digits / 10 ^ places`. -/
structure Decimal where
  digits : Nat
  places : Nat
deriving DecidableEq, Repr

namespace Decimal

def digitValue (c : Char) : Nat :=
  c.toNat - '0'.toNat

def naturalOf (digits : List Char) : Nat :=
  digits.foldl (fun value c => 10 * value + digitValue c) 0

/-- Digits with at most one point among or behind them. The point needs a digit before
it, and none after it. -/
def isUnsigned (characters : List Char) : Bool :=
  let whole := characters.takeWhile (· ≠ '.')
  let fraction := (characters.dropWhile (· ≠ '.')).drop 1
  !whole.isEmpty && whole.all Char.isDigit && fraction.all Char.isDigit

def ofDigits (characters : List Char) : Decimal :=
  let whole := characters.takeWhile (· ≠ '.')
  let fraction := (characters.dropWhile (· ≠ '.')).drop 1
  ⟨naturalOf (whole ++ fraction), fraction.length⟩

def read? (characters : List Char) : Option Decimal :=
  if isUnsigned characters then some (ofDigits characters) else none

def splitSign : List Char → Bool × List Char
  | '-' :: rest => (true, rest)
  | characters => (false, characters)

def isSigned (characters : List Char) : Bool :=
  isUnsigned (splitSign characters).2

def toNumber (decimal : Decimal) (negative : Bool) : Number :=
  Number.nearest negative decimal.digits (Nat.pow 10 decimal.places)

end Decimal

end Easel
