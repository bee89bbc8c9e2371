/-!
Numbers of the language are IEEE doubles. This module opens a double into sign,
significand and power of two, and builds the double nearest to a ratio of two
naturals. Both directions are exact `Nat` arithmetic on the bit pattern, so that
truncation, remainders, reading and printing can be decided without rounding.
-/

namespace Easel

abbrev Number := Float

namespace Number

/-- A double as a value. A finite one is `significand * 2 ^ exponent` with its
sign; zero keeps its sign too. -/
inductive Parts where
  | nan
  | infinite (negative : Bool)
  | finite (negative : Bool) (significand : Nat) (exponent : Int)
deriving DecidableEq, Repr

def leastExponent : Int := -1074

def hiddenBit : Nat := 0x10000000000000

def signBit : Nat := 0x8000000000000000

def infinityBits : Nat := 2047 * hiddenBit

/-- Patterns below the hidden bit are the subnormal doubles. Above it the field
over the fraction counts powers of two. -/
def parts (x : Number) : Parts :=
  let bits := x.toBits.toNat
  let negative := decide (signBit ≤ bits)
  let magnitude := bits % signBit
  if infinityBits < magnitude then .nan
  else if magnitude = infinityBits then .infinite negative
  else if magnitude < hiddenBit then .finite negative magnitude leastExponent
  else .finite negative (hiddenBit + magnitude % hiddenBit)
    (leastExponent + (magnitude / hiddenBit - 1 : Nat))

def ofMagnitude (negative : Bool) (magnitude : Nat) : Number :=
  Float.ofBits (UInt64.ofNat (if negative then signBit + magnitude else magnitude))

def nan : Number := ofMagnitude false (infinityBits + hiddenBit / 2)

def infinity (negative : Bool) : Number := ofMagnitude negative infinityBits

def roundHalfEven (numerator denominator : Nat) : Nat :=
  let quotient := numerator / denominator
  let twice := 2 * (numerator % denominator)
  if twice < denominator then quotient
  else if denominator < twice then quotient + 1
  else if quotient % 2 = 0 then quotient else quotient + 1

def scaleRatio (numerator denominator : Nat) (exponent : Int) : Nat × Nat :=
  if exponent < 0 then (numerator <<< exponent.natAbs, denominator)
  else (numerator, denominator <<< exponent.natAbs)

def binaryOrder (numerator denominator : Nat) : Int :=
  let estimate : Int := (Nat.log2 numerator : Int) - (Nat.log2 denominator : Int)
  let scaled := scaleRatio numerator denominator estimate
  if scaled.2 ≤ scaled.1 then estimate else estimate - 1

/-- The double nearest to a quotient with a positive denominator, half to the
even neighbour, and infinity from half a step above the greatest double on. A
significand that rounds up to the next power of two carries into the exponent
field by the addition alone. -/
def nearest (negative : Bool) (numerator denominator : Nat) : Number :=
  if numerator = 0 then ofMagnitude negative 0
  else
    let exponent := max leastExponent (binaryOrder numerator denominator - 52)
    let scaled := scaleRatio numerator denominator exponent
    let magnitude :=
      (exponent - leastExponent).toNat * hiddenBit + roundHalfEven scaled.1 scaled.2
    ofMagnitude negative (min magnitude infinityBits)

end Number

end Easel
