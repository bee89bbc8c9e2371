import Easel.Number.Double
import Mathlib.Algebra.Order.Field.Power
import Mathlib.Data.Rat.Cast.Order
import Mathlib.Tactic.FieldSimp
import Mathlib.Tactic.Linarith
import Mathlib.Tactic.NormNum
import Mathlib.Tactic.Ring

/-!
The double nearest to a ratio, in rational arithmetic. Around each positive double there is an
interval of rationals, which ends half way to the doubles on both sides, and every ratio in it
is rounded to that double. The ends belong to the interval if the double's significand is even.
-/

namespace Easel.Number

def Between (closed : Bool) (lower middle upper : ℚ) : Prop :=
  if closed then lower ≤ middle ∧ middle ≤ upper else lower < middle ∧ middle < upper

namespace Between

variable {closed : Bool} {lower middle upper : ℚ}

theorem le (between : Between closed lower middle upper) : lower ≤ middle ∧ middle ≤ upper := by
  cases closed with
  | true => exact between
  | false => exact ⟨le_of_lt between.1, le_of_lt between.2⟩

theorem of_lt (above : lower < middle) (below : middle < upper) :
    Between closed lower middle upper := by
  cases closed with
  | true => exact ⟨le_of_lt above, le_of_lt below⟩
  | false => exact ⟨above, below⟩

theorem mul_right_iff {factor : ℚ} (positive : 0 < factor) :
    Between closed (lower * factor) (middle * factor) (upper * factor) ↔
      Between closed lower middle upper := by
  cases closed with
  | true =>
      simp only [Between, if_true]
      rw [mul_le_mul_iff_of_pos_right positive, mul_le_mul_iff_of_pos_right positive]
  | false =>
      simp only [Between, Bool.false_eq_true, if_false]
      rw [mul_lt_mul_iff_of_pos_right positive, mul_lt_mul_iff_of_pos_right positive]

end Between

section Ratios

variable {numerator denominator : Nat}

theorem scaleRatio_denominator_pos (positive : 0 < denominator) (exponent : Int) :
    0 < (scaleRatio numerator denominator exponent).2 := by
  unfold scaleRatio
  split
  · exact positive
  · rw [Nat.shiftLeft_eq]
    exact Nat.mul_pos positive (Nat.two_pow_pos _)

theorem scaleRatio_div (numerator denominator : Nat) (exponent : Int) :
    ((scaleRatio numerator denominator exponent).1 : ℚ) /
        (scaleRatio numerator denominator exponent).2 =
      numerator / denominator / 2 ^ exponent := by
  unfold scaleRatio
  split
  · next negative =>
      have power : (2 : ℚ) ^ exponent = ((2 : ℚ) ^ exponent.natAbs)⁻¹ := by
        rw [← zpow_natCast, ← zpow_neg]
        congr 1
        omega
      rw [power, Nat.shiftLeft_eq]
      push_cast
      field_simp
  · next nonnegative =>
      have power : (2 : ℚ) ^ exponent = (2 : ℚ) ^ exponent.natAbs := by
        rw [← zpow_natCast]
        congr 1
        omega
      rw [power, Nat.shiftLeft_eq]
      push_cast
      field_simp

theorem log2_bounds (some : 0 < numerator) :
    (2 : ℚ) ^ (Nat.log2 numerator : Int) ≤ numerator ∧
      (numerator : ℚ) < 2 ^ ((Nat.log2 numerator : Int) + 1) := by
  have bounds := (Nat.log2_eq_iff (Nat.ne_of_gt some)).mp (rfl : numerator.log2 = numerator.log2)
  constructor
  · rw [zpow_natCast]
    exact_mod_cast bounds.1
  · rw [← Nat.cast_succ, zpow_natCast]
    exact_mod_cast bounds.2

theorem binaryOrder_bounds (some : 0 < numerator) (positive : 0 < denominator) :
    (2 : ℚ) ^ binaryOrder numerator denominator ≤ numerator / denominator ∧
      (numerator / denominator : ℚ) < 2 ^ (binaryOrder numerator denominator + 1) := by
  have divisor : (0 : ℚ) < denominator := by exact_mod_cast positive
  have ⟨above, below⟩ := log2_bounds some
  have ⟨divisorAbove, divisorBelow⟩ := log2_bounds positive
  generalize estimated : (Nat.log2 numerator : Int) - (Nat.log2 denominator : Int) = estimate
  have tooHigh : (numerator / denominator : ℚ) < 2 ^ (estimate + 1) := by
    rw [div_lt_iff₀ divisor]
    calc (numerator : ℚ)
        _ < 2 ^ ((Nat.log2 numerator : Int) + 1) := below
        _ = 2 ^ (estimate + 1) * 2 ^ (Nat.log2 denominator : Int) := by
          rw [← zpow_add₀ two_ne_zero]
          congr 1
          omega
        _ ≤ 2 ^ (estimate + 1) * denominator :=
          mul_le_mul_of_nonneg_left divisorAbove (by positivity)
  have tooLow : (2 : ℚ) ^ (estimate - 1) ≤ numerator / denominator := by
    rw [le_div_iff₀ divisor]
    calc (2 : ℚ) ^ (estimate - 1) * denominator
        _ ≤ 2 ^ (estimate - 1) * 2 ^ ((Nat.log2 denominator : Int) + 1) :=
          mul_le_mul_of_nonneg_left (le_of_lt divisorBelow) (by positivity)
        _ = 2 ^ (Nat.log2 numerator : Int) := by
          rw [← zpow_add₀ two_ne_zero]
          congr 1
          omega
        _ ≤ numerator := above
  have scaled := scaleRatio_div numerator denominator estimate
  have scaledDivisor : (0 : ℚ) < (scaleRatio numerator denominator estimate).2 := by
    exact_mod_cast scaleRatio_denominator_pos positive estimate
  have power : (0 : ℚ) < 2 ^ estimate := by positivity
  -- The estimate is right if the quotient is at least one at its scale, else it is one too high.
  have compared : (scaleRatio numerator denominator estimate).2 ≤
      (scaleRatio numerator denominator estimate).1 ↔
        (2 : ℚ) ^ estimate ≤ numerator / denominator := by
    rw [← one_mul ((2 : ℚ) ^ estimate), ← le_div_iff₀ power, ← scaled, le_div_iff₀ scaledDivisor,
      one_mul, Nat.cast_le]
  simp only [binaryOrder, estimated]
  split
  · next enough => exact ⟨compared.mp enough, tooHigh⟩
  · next short =>
      refine ⟨tooLow, ?_⟩
      rw [compared, not_le] at short
      rwa [sub_add_cancel]

theorem cross_bounds_of_between {rounded : Nat} {closed : Bool} (positive : 0 < denominator)
    (near : Between closed (rounded - 1 / 2) (numerator / denominator) (rounded + 1 / 2)) :
    if closed then
      2 * (rounded * denominator) ≤ 2 * numerator + denominator ∧
        2 * numerator ≤ 2 * (rounded * denominator) + denominator
    else
      2 * (rounded * denominator) < 2 * numerator + denominator ∧
        2 * numerator < 2 * (rounded * denominator) + denominator := by
  have divisor : (0 : ℚ) < denominator := by exact_mod_cast positive
  cases closed with
  | true =>
      obtain ⟨above, below⟩ := near
      rw [le_div_iff₀ divisor] at above
      rw [div_le_iff₀ divisor] at below
      constructor
      · have cast : (2 * (rounded * denominator) : ℚ) ≤ 2 * numerator + denominator := by linarith
        exact_mod_cast cast
      · have cast : (2 * numerator : ℚ) ≤ 2 * (rounded * denominator) + denominator := by linarith
        exact_mod_cast cast
  | false =>
      obtain ⟨above, below⟩ := near
      rw [lt_div_iff₀ divisor] at above
      rw [div_lt_iff₀ divisor] at below
      constructor
      · have cast : (2 * (rounded * denominator) : ℚ) < 2 * numerator + denominator := by linarith
        exact_mod_cast cast
      · have cast : (2 * numerator : ℚ) < 2 * (rounded * denominator) + denominator := by linarith
        exact_mod_cast cast

/-- A ratio within half a step of a natural is rounded to it; at exactly half a step the
natural has to be even. -/
theorem roundHalfEven_eq (positive : 0 < denominator) {rounded : Nat}
    (near : Between (rounded % 2 = 0) (rounded - 1 / 2) (numerator / denominator)
      (rounded + 1 / 2)) :
    roundHalfEven numerator denominator = rounded := by
  have bounds := cross_bounds_of_between positive near
  have divided := Nat.div_add_mod' numerator denominator
  have remainder := Nat.mod_lt numerator positive
  unfold roundHalfEven
  generalize numerator / denominator = quotient at *
  generalize numerator % denominator = rest at *
  have closed : 2 * (rounded * denominator) ≤ 2 * numerator + denominator ∧
      2 * numerator ≤ 2 * (rounded * denominator) + denominator := by
    split at bounds
    · exact bounds
    · omega
  have notAbove : quotient ≤ rounded := by
    by_contra above
    have product := Nat.mul_le_mul_right denominator (Nat.lt_of_not_le above)
    rw [Nat.succ_mul] at product
    omega
  have notBelow : rounded ≤ quotient + 1 := by
    by_contra below
    have product := Nat.mul_le_mul_right denominator (Nat.lt_of_not_le below)
    rw [Nat.succ_mul, Nat.succ_mul] at product
    omega
  -- The quotient is the natural itself, or the one before it and the remainder is large.
  rcases Nat.eq_or_lt_of_le notAbove with same | before
  · subst same
    split at bounds <;> simp only [decide_eq_true_eq] at * <;> split_ifs <;> omega
  · have next : rounded = quotient + 1 := by omega
    subst next
    have product := Nat.add_one_mul quotient denominator
    split at bounds <;> simp only [decide_eq_true_eq] at * <;> split_ifs <;> omega

end Ratios

section Nearest

variable {numerator denominator significand step : Nat}

/-- The part of the interval around a double that is below it, in units of its last place.
Below a power of two the next double is only half as far away, except among the least. -/
def gapBelow (significand step : Nat) : ℚ :=
  if significand = hiddenBit ∧ step ≠ 0 then 1 / 4 else 1 / 2

theorem cast_hiddenBit : (hiddenBit : ℚ) = 2 ^ (52 : Int) := by norm_num [hiddenBit]

theorem lt_binaryOrder_add_one (some : 0 < numerator) (positive : 0 < denominator) {order : Int}
    (above : (2 : ℚ) ^ order ≤ numerator / denominator) :
    order < binaryOrder numerator denominator + 1 := by
  have bounds := binaryOrder_bounds some positive
  exact (zpow_lt_zpow_iff_right₀ one_lt_two).mp (lt_of_le_of_lt above bounds.2)

theorem binaryOrder_lt (some : 0 < numerator) (positive : 0 < denominator) {order : Int}
    (below : (numerator / denominator : ℚ) < 2 ^ order) :
    binaryOrder numerator denominator < order := by
  have bounds := binaryOrder_bounds some positive
  exact (zpow_lt_zpow_iff_right₀ one_lt_two).mp (lt_of_le_of_lt bounds.1 below)

/-- The scale of the rounding follows from where the scaled ratio lies. -/
theorem scale_of_bounds (some : 0 < numerator) (positive : 0 < denominator)
    (upper : (numerator / denominator / 2 ^ (leastExponent + step) : ℚ) < 2 * hiddenBit)
    (lower : step ≠ 0 → (hiddenBit : ℚ) ≤ numerator / denominator / 2 ^ (leastExponent + step)) :
    max leastExponent (binaryOrder numerator denominator - 52) = leastExponent + step := by
  have power : (0 : ℚ) < 2 ^ (leastExponent + step) := by positivity
  have tooHigh : binaryOrder numerator denominator < 53 + (leastExponent + step) := by
    apply binaryOrder_lt some positive
    rw [zpow_add₀ two_ne_zero, ← div_lt_iff₀ power]
    refine lt_of_lt_of_eq upper ?_
    norm_num [hiddenBit]
  by_cases least : step = 0
  · subst least
    omega
  · have tooLow : 52 + (leastExponent + step) < binaryOrder numerator denominator + 1 := by
      apply lt_binaryOrder_add_one some positive
      rw [zpow_add₀ two_ne_zero, ← cast_hiddenBit, ← le_div_iff₀ power]
      exact lower least
    omega

theorem nearest_eq_of_scale {rounded : Nat} (some : 0 < numerator) (positive : 0 < denominator)
    (scale : max leastExponent (binaryOrder numerator denominator - 52) = leastExponent + step)
    (isFinite : step * hiddenBit + rounded < infinityBits)
    (near : Between (rounded % 2 = 0) (rounded - 1 / 2)
      (numerator / denominator / 2 ^ (leastExponent + step)) (rounded + 1 / 2)) :
    nearest false numerator denominator = ofMagnitude false (step * hiddenBit + rounded) := by
  have divisor : 0 < (scaleRatio numerator denominator (leastExponent + step)).2 :=
    scaleRatio_denominator_pos positive _
  rw [← scaleRatio_div] at near
  simp only [nearest, if_neg (Nat.ne_of_gt some), scale, roundHalfEven_eq divisor near]
  rw [add_sub_cancel_left, Int.toNat_natCast, Nat.min_eq_left (Nat.le_of_lt isFinite)]

theorem gapBelow_le (significand step : Nat) : gapBelow significand step ≤ 1 / 2 := by
  unfold gapBelow
  split <;> norm_num

/-- A ratio just below a power of two is rounded at the finer scale of the doubles below, and
carries up to that power. -/
theorem nearest_eq_of_carry (some : 0 < numerator) (positive : 0 < denominator)
    (isFinite : (step + 1) * hiddenBit + hiddenBit < infinityBits)
    (lower : (hiddenBit - 1 / 4 : ℚ) ≤ numerator / denominator / 2 ^ (leastExponent + (step + 1 : Nat)))
    (below : (numerator / denominator / 2 ^ (leastExponent + (step + 1 : Nat)) : ℚ) < hiddenBit) :
    nearest false numerator denominator =
      ofMagnitude false ((step + 1) * hiddenBit + hiddenBit) := by
  have finer : (numerator / denominator / 2 ^ (leastExponent + step) : ℚ) =
      numerator / denominator / 2 ^ (leastExponent + (step + 1 : Nat)) * 2 := by
    rw [Nat.cast_add_one, ← add_assoc, zpow_add_one₀ two_ne_zero]
    field_simp
  have one : (1 : ℚ) ≤ hiddenBit := by norm_num [hiddenBit]
  have scale : max leastExponent (binaryOrder numerator denominator - 52) =
      leastExponent + step := by
    apply scale_of_bounds some positive
    · rw [finer]
      linarith
    · intro _
      rw [finer]
      linarith
  have carried : step * hiddenBit + 2 * hiddenBit = (step + 1) * hiddenBit + hiddenBit := by ring
  rw [← carried] at isFinite ⊢
  refine nearest_eq_of_scale some positive scale isFinite ?_
  have even : decide (2 * hiddenBit % 2 = 0) = true := by decide
  rw [finer, even, Nat.cast_mul, Nat.cast_ofNat]
  constructor
  · linarith
  · linarith

theorem nearest_eq_ofMagnitude (positive : 0 < denominator) (some : 0 < significand)
    (short : significand < 2 * hiddenBit) (normal : step = 0 ∨ hiddenBit ≤ significand)
    (isFinite : step * hiddenBit + significand < infinityBits)
    (near : Between (significand % 2 = 0) (significand - gapBelow significand step)
      (numerator / denominator / 2 ^ (leastExponent + step)) (significand + 1 / 2)) :
    nearest false numerator denominator = ofMagnitude false (step * hiddenBit + significand) := by
  obtain ⟨lower, upper⟩ := near.le
  have gap := gapBelow_le significand step
  have one : (1 : ℚ) ≤ significand := by exact_mod_cast some
  have shortCast : (significand + 1 : ℚ) ≤ 2 * hiddenBit := by exact_mod_cast short
  have someRatio : 0 < numerator := by
    by_contra none
    have zero : numerator = 0 := by omega
    rw [zero, Nat.cast_zero, zero_div, zero_div] at lower
    linarith
  by_cases wide : step ≠ 0 → (hiddenBit : ℚ) ≤ numerator / denominator / 2 ^ (leastExponent + step)
  · have scale := scale_of_bounds someRatio positive (by linarith) wide
    refine nearest_eq_of_scale someRatio positive scale isFinite ?_
    unfold gapBelow at near
    split at near
    · next narrow =>
        have above := wide narrow.2
        rw [narrow.1] at near ⊢
        have even : decide (hiddenBit % 2 = 0) = true := by decide
        rw [even] at near ⊢
        exact ⟨by linarith, near.2⟩
    · exact near
  · push Not at wide
    obtain ⟨steps, below⟩ := wide
    have least : significand = hiddenBit := by
      by_contra different
      have more : hiddenBit + 1 ≤ significand := by omega
      have moreCast : (hiddenBit + 1 : ℚ) ≤ significand := by exact_mod_cast more
      linarith
    obtain ⟨before, rfl⟩ := Nat.exists_eq_succ_of_ne_zero steps
    subst least
    rw [gapBelow, if_pos ⟨rfl, steps⟩] at lower
    exact nearest_eq_of_carry someRatio positive isFinite lower below

end Nearest

end Easel.Number
