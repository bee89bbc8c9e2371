import Easel.Number.Shortest
import Easel.Proofs.Grammar
import Easel.Proofs.Number.Bits
import Easel.Proofs.Number.Rounding

/-!
A number that is written is read back. The shortest decimal lies in the interval of the double
it stands for, positional notation spells that decimal and nothing else, and the reader rounds
what lies in the interval to the double.
-/

namespace Easel.Number

namespace Interval

theorem zpow_eq_div (base : ℚ) (exponent : Int) :
    base ^ exponent =
      (if exponent < 0 then 1 else base ^ exponent.natAbs) /
        (if exponent < 0 then base ^ exponent.natAbs else 1) := by
  split
  · next negative =>
      have opposite : exponent = -(exponent.natAbs : Int) := by omega
      conv_lhs => rw [opposite, zpow_neg, zpow_natCast]
      rw [one_div]
  · next nonnegative =>
      have same : exponent = (exponent.natAbs : Int) := by omega
      conv_lhs => rw [same, zpow_natCast]
      rw [div_one]

theorem factors_scale (interval : Interval) (grid : Int) :
    ∃ scale : ℚ, 0 < scale ∧
      ((interval.factors grid).1 : ℚ) = 2 ^ interval.exponent * scale ∧
        ((interval.factors grid).2 : ℚ) = 10 ^ grid * scale := by
  have binary : (0 : ℚ) < if interval.exponent < 0 then 2 ^ interval.exponent.natAbs else 1 := by
    split <;> positivity
  have decimal : (0 : ℚ) < if grid < 0 then 10 ^ grid.natAbs else 1 := by
    split <;> positivity
  refine ⟨_, mul_pos binary decimal, ?_, ?_⟩
  · rw [zpow_eq_div, ← mul_assoc, div_mul_cancel₀ _ (ne_of_gt binary)]
    simp [factors]
  · rw [zpow_eq_div, mul_comm (ite (interval.exponent < 0) _ _), ← mul_assoc,
      div_mul_cancel₀ _ (ne_of_gt decimal), mul_comm]
    simp [factors]

theorem contains_iff (interval : Interval) (grid : Int) (multiple : Nat) :
    interval.contains grid multiple = true ↔
      Between interval.closed (interval.lower * 2 ^ interval.exponent) (multiple * 10 ^ grid)
        (interval.upper * 2 ^ interval.exponent) := by
  obtain ⟨scale, positive, unit, step⟩ := interval.factors_scale grid
  rw [← Between.mul_right_iff positive, mul_assoc, ← unit, mul_assoc, ← step, mul_assoc, ← unit]
  cases closed : interval.closed with
  | true =>
      simp only [contains, closed, Between, if_true, Bool.and_eq_true, decide_eq_true_eq]
      norm_cast
  | false =>
      simp only [contains, closed, Between, Bool.false_eq_true, if_false, Bool.and_eq_true,
        decide_eq_true_eq]
      norm_cast

theorem contains_of_multipleOn? {interval : Interval} {grid : Int} {multiple : Nat}
    (found : interval.multipleOn? grid = some multiple) :
    interval.contains grid multiple = true := by
  cases below : interval.contains grid (interval.floorOn grid) with
  | true =>
      cases above : interval.contains grid (interval.floorOn grid + 1) with
      | true =>
          simp only [multipleOn?, below, above, Option.some.injEq] at found
          split at found <;> rw [← found] <;> assumption
      | false =>
          simp only [multipleOn?, below, above, Option.some.injEq] at found
          rwa [← found]
  | false =>
      cases above : interval.contains grid (interval.floorOn grid + 1) with
      | true =>
          simp only [multipleOn?, below, above, Option.some.injEq] at found
          rwa [← found]
      | false => simp [multipleOn?, below, above] at found

/-- The search ends on a contained multiple or with the value on the last grid. -/
theorem descend_cases (interval : Interval) (steps : Nat) (grid : Int) :
    interval.contains (interval.descend steps grid).2 (interval.descend steps grid).1 = true ∨
      interval.descend steps grid = (interval.floorOn (grid - steps), grid - steps) := by
  induction steps generalizing grid with
  | zero =>
      right
      simp [descend]
  | succ steps induction =>
      unfold descend
      split
      · next found =>
          left
          exact contains_of_multipleOn? found
      · have further := induction (grid - 1)
        rw [sub_sub, add_comm (1 : Int)] at further
        exact further

theorem factors_dvd (interval : Interval) :
    (interval.factors (min 0 interval.exponent)).2 ∣
      (interval.factors (min 0 interval.exponent)).1 := by
  by_cases negative : interval.exponent < 0
  · rw [min_eq_right (le_of_lt negative)]
    simp only [factors, if_pos negative, one_mul, mul_one, Nat.pow_eq]
    exact pow_dvd_pow_of_dvd (by decide) _
  · rw [min_eq_left (by omega)]
    simp [factors, if_neg negative]

/-- On the last grid of the search the value is a multiple itself. -/
theorem floorOn_exact (interval : Interval) :
    (interval.floorOn (min 0 interval.exponent) * 10 ^ (min 0 interval.exponent) : ℚ) =
      interval.value * 2 ^ interval.exponent := by
  obtain ⟨scale, positive, unit, step⟩ := interval.factors_scale (min 0 interval.exponent)
  have divided := Nat.div_mul_cancel (interval.factors_dvd.mul_left interval.value)
  apply mul_right_cancel₀ (ne_of_gt positive)
  rw [mul_assoc, ← step, mul_assoc, ← unit]
  exact_mod_cast divided

theorem min_le_coarseGrid (interval : Interval) :
    min 0 interval.exponent ≤ interval.coarseGrid := by
  unfold coarseGrid
  simp only
  split <;> omega

theorem shortest_between (interval : Interval) (below : interval.lower < interval.value)
    (above : interval.value < interval.upper) :
    Between interval.closed (interval.lower * 2 ^ interval.exponent)
      (interval.shortest.1 * 10 ^ interval.shortest.2)
      (interval.upper * 2 ^ interval.exponent) := by
  have power : (0 : ℚ) < 2 ^ interval.exponent := by positivity
  have coarse := interval.min_le_coarseGrid
  rcases interval.descend_cases (interval.coarseGrid - min 0 interval.exponent).toNat
    interval.coarseGrid with found | last
  · exact (interval.contains_iff _ _).mp found
  · rw [Int.toNat_of_nonneg (by omega), sub_sub_cancel] at last
    simp only [shortest, last, floorOn_exact]
    rw [Between.mul_right_iff power]
    exact .of_lt (by exact_mod_cast below) (by exact_mod_cast above)

theorem around_between {significand step : Nat} (some : 0 < significand) {ratio : ℚ}
    (between : Between (around significand (leastExponent + step)).closed
      ((around significand (leastExponent + step)).lower *
        2 ^ (around significand (leastExponent + step)).exponent) ratio
      ((around significand (leastExponent + step)).upper *
        2 ^ (around significand (leastExponent + step)).exponent)) :
    Between (significand % 2 = 0) (significand - gapBelow significand step)
      (ratio / 2 ^ (leastExponent + step)) (significand + 1 / 2) := by
  have power : (0 : ℚ) < 2 ^ (leastExponent + step) := by positivity
  have quarter : (2 : ℚ) ^ (leastExponent + step - 2) = 2 ^ (leastExponent + step) / 4 := by
    rw [zpow_sub₀ two_ne_zero]
    norm_num
  rw [← Between.mul_right_iff power, div_mul_cancel₀ _ (ne_of_gt power)]
  have upper : ((around significand (leastExponent + step)).upper *
      2 ^ (around significand (leastExponent + step)).exponent : ℚ) =
        (significand + 1 / 2) * 2 ^ (leastExponent + step) := by
    simp only [around, quarter]
    push_cast
    ring
  have lower : ((around significand (leastExponent + step)).lower *
      2 ^ (around significand (leastExponent + step)).exponent : ℚ) =
        (significand - gapBelow significand step) * 2 ^ (leastExponent + step) := by
    have exponent : leastExponent + (step : Int) ≠ leastExponent ↔ step ≠ 0 := by omega
    have enough : 2 ≤ 4 * significand := by omega
    simp only [around, quarter, gapBelow, Bool.and_eq_true, decide_eq_true_eq, exponent]
    split
    · rw [Nat.cast_sub (by omega)]
      push_cast
      ring
    · rw [Nat.cast_sub enough]
      push_cast
      ring
  rw [upper, lower] at between
  exact between

end Interval

section Positional

variable {digits places : List Char}

theorem numeral_whole (all : ∀ c ∈ digits, c.isDigit = true) :
    Grammar.numeral (String.ofList digits) = nearest false (Nat.ofDigitChars 10 digits 0) 1 := by
  have points := Token.ne_point_of_isDigit all
  have taken : digits.takeWhile (· ≠ '.') = digits := List.takeWhile_eq_self_iff.mpr points
  have dropped : digits.dropWhile (· ≠ '.') = [] := List.dropWhile_eq_nil_iff.mpr points
  simp only [Grammar.numeral, String.toList_ofList, taken, dropped, List.drop_nil, List.append_nil]
  rfl

theorem numeral_fraction (all : ∀ c ∈ digits, c.isDigit = true) :
    Grammar.numeral (String.ofList (digits ++ '.' :: places)) =
      nearest false (Nat.ofDigitChars 10 (digits ++ places) 0) (10 ^ places.length) := by
  have points := Token.ne_point_of_isDigit all
  have taken : (digits ++ '.' :: places).takeWhile (· ≠ '.') = digits := by
    rw [List.takeWhile_append_of_pos points]
    simp
  have dropped : (digits ++ '.' :: places).dropWhile (· ≠ '.') = '.' :: places := by
    rw [List.dropWhile_append_of_pos points]
    simp
  simp only [Grammar.numeral, String.toList_ofList, taken, dropped, List.drop_one, List.tail_cons]
  rfl

theorem isDigit_of_mem_toDigits_append_zeros (digits zeros : Nat) :
    ∀ c ∈ Nat.toDigits 10 digits ++ List.replicate zeros '0', c.isDigit = true := by
  intro c member
  rcases List.mem_append.mp member with written | zero
  · exact Nat.isDigit_of_mem_toDigits (by decide) (by decide) written
  · rw [List.eq_of_mem_replicate zero]
    rfl

/-- The digits of a fraction with as many zeros in front as bring one before the point. -/
def paddedDigits (digits places : Nat) : List Char :=
  List.replicate (places + 1 - (Nat.toDigits 10 digits).length) '0' ++ Nat.toDigits 10 digits

theorem isDigit_of_mem_paddedDigits (digits places : Nat) :
    ∀ c ∈ paddedDigits digits places, c.isDigit = true := by
  intro c member
  apply isDigit_of_mem_toDigits_append_zeros digits
    (places + 1 - (Nat.toDigits 10 digits).length)
  exact List.mem_append.mpr (List.mem_append.mp member).symm

theorem lt_length_paddedDigits (digits places : Nat) :
    places < (paddedDigits digits places).length := by
  simp only [paddedDigits, List.length_append, List.length_replicate]
  omega

theorem positional_of_negative {digits : Nat} {grid : Int} (negative : ¬0 ≤ grid) :
    positional digits grid =
      String.ofList ((paddedDigits digits grid.natAbs).take
          ((paddedDigits digits grid.natAbs).length - grid.natAbs) ++
        '.' :: (paddedDigits digits grid.natAbs).drop
          ((paddedDigits digits grid.natAbs).length - grid.natAbs)) := by
  simp only [positional, if_neg negative, paddedDigits]

theorem isNumeral_positional (digits : Nat) (grid : Int) :
    Token.IsNumeral (positional digits grid).toList := by
  by_cases nonnegative : 0 ≤ grid
  · simp only [positional, if_pos nonnegative, String.toList_ofList]
    apply Token.IsNumeral.whole
    · simp [Nat.toDigits_ne_nil]
    · exact isDigit_of_mem_toDigits_append_zeros digits _
  · rw [positional_of_negative nonnegative, String.toList_ofList]
    have enough := lt_length_paddedDigits digits grid.natAbs
    have all := isDigit_of_mem_paddedDigits digits grid.natAbs
    apply Token.IsNumeral.fraction
    · apply List.ne_nil_of_length_pos
      rw [List.length_take]
      omega
    · exact fun c member => all c (List.mem_of_mem_take member)
    · exact fun c member => all c (List.mem_of_mem_drop member)

theorem numeral_positional (digits : Nat) (grid : Int) :
    ∃ numerator places : Nat, Grammar.numeral (positional digits grid) =
        nearest false numerator (10 ^ places) ∧
      (numerator / (10 ^ places : Nat) : ℚ) = digits * 10 ^ grid := by
  by_cases nonnegative : 0 ≤ grid
  · refine ⟨digits * 10 ^ grid.natAbs, 0, ?_, ?_⟩
    · simp only [positional, if_pos nonnegative]
      rw [numeral_whole (isDigit_of_mem_toDigits_append_zeros digits _), Nat.ofDigitChars_append,
        Nat.ofDigitChars_ten_toDigits, Nat.ofDigitChars_replicate_zero, Nat.mul_comm, pow_zero]
    · rw [Interval.zpow_eq_div, if_neg (by omega), if_neg (by omega)]
      push_cast
      ring
  · refine ⟨digits, grid.natAbs, ?_, ?_⟩
    · have enough := lt_length_paddedDigits digits grid.natAbs
      have all := isDigit_of_mem_paddedDigits digits grid.natAbs
      rw [positional_of_negative nonnegative,
        numeral_fraction (fun c member => all c (List.mem_of_mem_take member)),
        List.take_append_drop, List.length_drop, Nat.sub_sub_self (Nat.le_of_lt enough),
        paddedDigits, Nat.ofDigitChars_append, Nat.ofDigitChars_replicate_zero, Nat.mul_zero,
        Nat.ofDigitChars_ten_toDigits]
    · rw [Interval.zpow_eq_div, if_pos (by omega), if_pos (by omega)]
      push_cast
      ring

end Positional

theorem isNumeral_render {magnitude : Nat} (isFinite : magnitude < infinityBits) :
    Token.IsNumeral (ofMagnitude false magnitude).render.toList := by
  obtain ⟨significand, step, parts, -, -, -⟩ := parts_ofMagnitude isFinite
  simp only [render, parts, Bool.false_eq_true, if_false]
  split
  · exact .whole (by simp) (by simp)
  · exact isNumeral_positional _ _

/-- A finite number is read back from its text. -/
theorem numeral_render {magnitude : Nat} (isFinite : magnitude < infinityBits) :
    Grammar.numeral (ofMagnitude false magnitude).render = ofMagnitude false magnitude := by
  obtain ⟨significand, step, parts, sum, short, normal⟩ := parts_ofMagnitude isFinite
  simp only [render, parts, Bool.false_eq_true, if_false]
  split
  · next none =>
      have zero : magnitude = 0 := by
        simp only [hiddenBit] at *
        omega
      rw [zero]
      rfl
  · next some =>
      have positive : 0 < significand := Nat.pos_of_ne_zero some
      obtain ⟨numerator, places, read, ratio⟩ := numeral_positional
        (Interval.around significand (leastExponent + step)).shortest.1
        (Interval.around significand (leastExponent + step)).shortest.2
      rw [read, sum]
      apply nearest_eq_ofMagnitude (Nat.pow_pos (by decide)) positive short normal (by omega)
      rw [ratio]
      apply Interval.around_between positive
      apply Interval.shortest_between
      · simp only [Interval.around]
        split <;> omega
      · simp only [Interval.around]
        omega

end Easel.Number
