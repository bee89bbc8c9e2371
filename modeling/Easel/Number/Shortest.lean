import Easel.Number.Double

/-!
Numbers as text. A double is written with the fewest decimal digits that no other
double is nearest to, and among those with the digits nearest to its value. The
digits are always laid out in full: there is no exponent, however long the run of
zeros, and a whole number has no point.

A grid is the set of multiples of a power of ten. The search goes from a grid too
coarse to meet the interval of reals that round to the double towards finer ones
and takes the first that meets it.
-/

namespace Easel.Number

/-- The reals that round to a positive double, counted in units of
`2 ^ exponent`. The ends belong to it when the double's significand is even. -/
structure Interval where
  lower : Nat
  value : Nat
  upper : Nat
  exponent : Int
  closed : Bool
deriving DecidableEq, Repr

namespace Interval

/-- In quarter steps of the double. Below a power of two the neighbouring double
is only half as far away as above it, except among the subnormal doubles. -/
def around (significand : Nat) (exponent : Int) : Interval :=
  let narrow := significand = hiddenBit && exponent ≠ leastExponent
  { lower := 4 * significand - (if narrow then 1 else 2)
    value := 4 * significand
    upper := 4 * significand + 2
    exponent := exponent - 2
    closed := significand % 2 = 0 }

/-- Factors that bring counts of units and multiples of `10 ^ grid` to one scale:
`units * first` stands to `multiple * second` as the two reals do. -/
def factors (interval : Interval) (grid : Int) : Nat × Nat :=
  ((if interval.exponent < 0 then 1 else Nat.pow 2 interval.exponent.natAbs) *
      (if grid < 0 then Nat.pow 10 grid.natAbs else 1),
    (if interval.exponent < 0 then Nat.pow 2 interval.exponent.natAbs else 1) *
      (if grid < 0 then 1 else Nat.pow 10 grid.natAbs))

def contains (interval : Interval) (grid : Int) (multiple : Nat) : Bool :=
  let (unit, step) := interval.factors grid
  if interval.closed then
    interval.lower * unit ≤ multiple * step && multiple * step ≤ interval.upper * unit
  else
    interval.lower * unit < multiple * step && multiple * step < interval.upper * unit

def floorOn (interval : Interval) (grid : Int) : Nat :=
  let (unit, step) := interval.factors grid
  interval.value * unit / step

def nearerAbove (interval : Interval) (grid : Int) : Bool :=
  let (unit, step) := interval.factors grid
  step ≤ 2 * (interval.value * unit % step)

def multipleOn? (interval : Interval) (grid : Int) : Option Nat :=
  let below := interval.floorOn grid
  match interval.contains grid below, interval.contains grid (below + 1) with
  | true, true => some (if interval.nearerAbove grid then below + 1 else below)
  | true, false => some below
  | false, true => some (below + 1)
  | false, false => none

/-- A grid whose steps are longer than the whole interval and its distance from
zero, by `8 ≤ 10 ≤ 16`. -/
def coarseGrid (interval : Interval) : Int :=
  let order : Int := (Nat.log2 interval.upper : Int) + 1 + interval.exponent
  if order < 0 then -(order.natAbs / 4 : Nat) else order.natAbs / 3 + 1

def descend (interval : Interval) : Nat → Int → Nat × Int
  | 0, grid => (interval.floorOn grid, grid)
  | steps + 1, grid =>
      match interval.multipleOn? grid with
      | some multiple => (multiple, grid)
      | none => descend interval steps (grid - 1)

def shortest (interval : Interval) : Nat × Int :=
  let start := interval.coarseGrid
  interval.descend (start - min 0 interval.exponent).toNat start

end Interval

def positional (digits : Nat) (grid : Int) : String :=
  let written := Nat.toDigits 10 digits
  let places := grid.natAbs
  if 0 ≤ grid then String.ofList (written ++ List.replicate places '0')
  else
    let padded := List.replicate (places + 1 - written.length) '0' ++ written
    String.ofList (padded.take (padded.length - places) ++ '.' :: padded.drop (padded.length - places))

def render (x : Number) : String :=
  match x.parts with
  | .nan => "NaN"
  | .infinite negative => if negative then "-inf" else "inf"
  | .finite negative significand exponent =>
      let magnitude :=
        if significand = 0 then "0"
        else
          let (digits, grid) := (Interval.around significand exponent).shortest
          positional digits grid
      if negative then "-" ++ magnitude else magnitude

end Easel.Number
