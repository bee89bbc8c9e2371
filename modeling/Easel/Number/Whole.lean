import Easel.Number.Double

/-!
Whole numbers from doubles: cutting off the fraction, remainders of whole parts,
and the counts and indices that the language derives from its numbers. All of it
is exact, at any size.
-/

namespace Easel.Number

inductive Whole where
  | nan
  | infinite (negative : Bool)
  | whole (negative : Bool) (magnitude : Nat)
deriving DecidableEq, Repr

def truncate (x : Number) : Whole :=
  match x.parts with
  | .nan => .nan
  | .infinite negative => .infinite negative
  | .finite negative significand exponent =>
      .whole negative
        (if exponent < 0 then significand >>> exponent.natAbs
        else significand <<< exponent.natAbs)

namespace Whole

def toNumber : Whole → Number
  | .nan => Number.nan
  | .infinite negative => Number.infinity negative
  | .whole negative magnitude => Number.nearest negative magnitude 1

/-- The remainder has the sign of the left operand, so it can be a negative zero.
Nothing is left of an infinity, and an infinite divisor leaves the operand as it
is. -/
def remainder : Whole → Whole → Whole
  | .nan, _ | _, .nan | .infinite _, _ => .nan
  | .whole negative magnitude, .infinite _ => .whole negative magnitude
  | .whole negative magnitude, .whole _ divisor => .whole negative (magnitude % divisor)

def isZero : Whole → Bool
  | .whole _ 0 => true
  | _ => false

/-- The nearest signed 64-bit integer; what is no number counts as zero. -/
def clamp : Whole → Int
  | .nan => 0
  | .infinite true => Int64.minValue.toInt
  | .infinite false => Int64.maxValue.toInt
  | .whole true magnitude => max Int64.minValue.toInt (-(magnitude : Int))
  | .whole false magnitude => min Int64.maxValue.toInt magnitude

end Whole

def remainder? (left right : Number) : Option Number :=
  if right.truncate.isZero then none
  else some (left.truncate.remainder right.truncate).toNumber

/-- How often a body is repeated: the number without its fraction, at most the
greatest unsigned 64-bit integer. Negative zero repeats nothing; other negative
numbers, and what is no number, are no counts. -/
def repeatCount? (x : Number) : Option Nat :=
  if x ≥ 0 then
    match x.truncate with
    | .nan => none
    | .infinite _ => some (UInt64.size - 1)
    | .whole _ magnitude => some (min magnitude (UInt64.size - 1))
  else none

end Easel.Number
