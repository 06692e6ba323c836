import Reckon.Decimal
import Reckon.Proofs.Doubles

/-!
Numbers that are doubles are not rounded. A fraction is brought to the exponent that a double of its
size has; where it is a double, it is then a whole number, which is the mantissa. So a fraction or a
decimal with the value of a double becomes that double.
-/

namespace Reckon

open Double

namespace Ratio

variable {r : Ratio} {m : Nat} {e : Int}

/-- The number that the fraction is. -/
def value (r : Ratio) : ℚ := r.num / r.den

theorem value_pos (num : 0 < r.num) (den : 0 < r.den) : 0 < r.value := by
  rw [value]
  positivity

theorem num_pos (positive : 0 < r.value) : 0 < r.num := by
  rw [Nat.pos_iff_ne_zero]
  intro zero
  rw [value, zero, Nat.cast_zero, zero_div] at positive
  exact lt_irrefl _ positive

theorem natCast_toNat_zpow {b : ℚ} (ne : b ≠ 0) (e : Int) :
    b ^ e.toNat / b ^ (-e).toNat = b ^ e := by
  rw [← zpow_natCast, ← zpow_natCast, ← zpow_sub₀ ne]
  congr 1
  omega

theorem value_unscale (r : Ratio) {b : Nat} (pos : 0 < b) (e : Int) :
    (r.unscale b e).value = r.value / (b : ℚ) ^ e := by
  have ne : (b : ℚ) ≠ 0 := by positivity
  rw [unscale, value, value, ← natCast_toNat_zpow ne]
  push_cast [Nat.pow_eq]
  field_simp

theorem den_unscale_pos {b : Nat} (den : 0 < r.den) (pos : 0 < b) (e : Int) :
    0 < (r.unscale b e).den :=
  Nat.mul_pos den (Nat.pow_pos pos)

theorem num_lt_den_iff (den : 0 < r.den) : r.num < r.den ↔ r.value < 1 := by
  rw [value, div_lt_one (by positivity)]
  exact_mod_cast Iff.rfl

theorem two_pow_log2_le {n : Nat} (pos : 0 < n) : (2 : ℚ) ^ (n.log2 : ℤ) ≤ n := by
  rw [zpow_natCast]
  exact_mod_cast Nat.log2_self_le (Nat.ne_of_gt pos)

theorem lt_two_pow_log2 (n : Nat) : (n : ℚ) < 2 ^ (n.log2 + 1 : ℤ) := by
  rw [← Nat.cast_succ, zpow_natCast]
  exact_mod_cast Nat.lt_log2_self

/-- The highest place of a number with a factor that is a power of the base. -/
theorem log_scaled {b p : Nat} (base : 1 < b) (low : b ^ p ≤ m) (high : m < b ^ (p + 1)) (e : Int) :
    Int.log b ((m : ℚ) * b ^ e) = p + e := by
  have ne : (b : ℚ) ≠ 0 := by positivity
  have some : 0 < m := Nat.lt_of_lt_of_le (Nat.pow_pos (Nat.zero_lt_of_lt base)) low
  have positive : (0 : ℚ) < m * b ^ e := by positivity
  refine le_antisymm (Int.lt_add_one_iff.1 ?_) ?_
  · rw [← Int.lt_zpow_iff_log_lt base positive, add_right_comm, zpow_add₀ ne]
    gcongr
    exact_mod_cast high
  · rw [← Int.zpow_le_iff_le_log base positive, zpow_add₀ ne]
    gcongr
    exact_mod_cast low

/-- The highest binary place is told by the lengths of the two numbers, up to one place. -/
theorem log_value (num : 0 < r.num) (den : 0 < r.den) :
    (r.num.log2 - r.den.log2 - 1 : ℤ) ≤ Int.log 2 r.value ∧
      Int.log 2 r.value < (r.num.log2 - r.den.log2 + 1 : ℤ) := by
  have two : (2 : ℚ) ≠ 0 := by norm_num
  have positive : (0 : ℚ) < r.den := by exact_mod_cast den
  rw [← Int.zpow_le_iff_le_log (by norm_num) (value_pos num den),
    ← Int.lt_zpow_iff_log_lt (by norm_num) (value_pos num den), value, le_div_iff₀ positive,
    div_lt_iff₀ positive]
  push_cast
  constructor
  · calc (2 : ℚ) ^ (r.num.log2 - r.den.log2 - 1 : ℤ) * r.den
        ≤ 2 ^ (r.num.log2 - r.den.log2 - 1 : ℤ) * 2 ^ (r.den.log2 + 1 : ℤ) := by
          gcongr
          exact (lt_two_pow_log2 _).le
      _ = 2 ^ (r.num.log2 : ℤ) := by
          rw [← zpow_add₀ two]
          congr 1
          omega
      _ ≤ r.num := two_pow_log2_le num
  · calc (r.num : ℚ) < 2 ^ (r.num.log2 + 1 : ℤ) := lt_two_pow_log2 _
      _ = 2 ^ (r.num.log2 - r.den.log2 + 1 : ℤ) * 2 ^ (r.den.log2 : ℤ) := by
          rw [← zpow_add₀ two]
          congr 1
          omega
      _ ≤ 2 ^ (r.num.log2 - r.den.log2 + 1 : ℤ) * r.den := by
          gcongr
          exact two_pow_log2_le den

/-- The exponent follows from where the highest binary place of the fraction is. -/
theorem exponent_eq (num : 0 < r.num) (den : 0 < r.den) :
    r.exponent = max (Int.log 2 r.value - 52) (-1074) := by
  obtain ⟨above, below⟩ := log_value num den
  have short (top : Int) : (r.unscale 2 top).num < (r.unscale 2 top).den ↔
      Int.log 2 r.value < top := by
    rw [num_lt_den_iff (den_unscale_pos den (by decide) _), value_unscale r (by decide),
      div_lt_one (by positivity), ← Int.lt_zpow_iff_log_lt (by norm_num) (value_pos num den)]
  rw [exponent]
  simp only [short, mantissaBits, leastExponent]
  congr 1
  split <;> push_cast <;> omega

theorem round_eq (den : 0 < r.den) (whole : r.value = m) : r.round = m := by
  have num : r.num = m * r.den := by
    rw [value, div_eq_iff (by positivity)] at whole
    exact_mod_cast whole
  rw [round, num, Nat.mul_mod_left, Nat.mul_div_cancel _ den]
  exact if_pos (.inl den)

/-- A fraction that is a double becomes that double. -/
theorem toFloat_eq {pos : 0 < m} (den : 0 < r.den)
    (canonical : Canonical (.finite .positive m e pos)) (value : r.value = m * 2 ^ e) :
    r.toFloat = .ofModel (.pack (.finite .positive m e pos)) := by
  cases canonical with
  | finite _ fits low high full =>
  have positive : 0 < r.value := by
    rw [value]
    positivity
  have exponent : r.exponent = e := by
    have short : m.log2 < 53 := (Nat.log2_lt (Nat.ne_of_gt pos)).2 fits
    have long : e = -1074 ∨ 52 ≤ m.log2 := full.imp_right (Nat.le_log2 (Nat.ne_of_gt pos)).2
    have log := log_scaled (by decide) (Nat.log2_self_le (Nat.ne_of_gt pos)) Nat.lt_log2_self e
    rw [Nat.cast_ofNat] at log
    rw [exponent_eq (num_pos positive) den, value, log]
    omega
  have round : (r.unscale 2 e).round = m := by
    refine round_eq (den_unscale_pos den (by decide) _) ?_
    rw [value_unscale r (by decide), value, Nat.cast_ofNat, mul_div_cancel_right₀]
    positivity
  have notCarried : m ≠ Nat.pow 2 mantissaBits := Nat.ne_of_lt fits
  rw [toFloat, exponent, round, if_neg notCarried, unpacked, dif_neg (Nat.ne_of_gt pos)]

end Ratio

namespace Decimal

variable {d : Decimal} {m : Nat} {e : Int}

/-- The number that the decimal is. -/
def value (d : Decimal) : ℚ := d.coefficient * 10 ^ d.exponent

theorem value_toRatio (d : Decimal) : d.toRatio.value = d.value := by
  rw [toRatio, Ratio.value, value, ← Ratio.natCast_toNat_zpow (by norm_num)]
  push_cast [Nat.pow_eq]
  exact mul_div_assoc ..

theorem ten_zpow_le {k : Int} (nonpos : k ≤ 0) : (10 : ℚ) ^ k ≤ 2 ^ k := by
  have five : (5 : ℚ) ^ k ≤ 1 := zpow_le_one_of_nonpos₀ (by norm_num) nonpos
  calc (10 : ℚ) ^ k = 2 ^ k * 5 ^ k := by
        rw [← mul_zpow]
        norm_num
    _ ≤ 2 ^ k := mul_le_of_le_one_right (by positivity) five

/-- A number this large is no number too small for a double. -/
theorem leastReach_le (positive : 0 < d.coefficient) (large : 2 ^ (-1074 : ℤ) ≤ d.value) :
    leastReach ≤ d.exponent + d.coefficient.log2 := by
  by_contra small
  rw [leastReach, not_le] at small
  have less : d.value < 2 ^ (-1074 : ℤ) := calc
    d.value ≤ d.coefficient * 2 ^ d.exponent := by
      rw [value]
      gcongr
      exact ten_zpow_le (by omega)
    _ < 2 ^ (d.coefficient.log2 + 1 : ℤ) * 2 ^ d.exponent := by
      gcongr
      exact Ratio.lt_two_pow_log2 _
    _ = 2 ^ (d.coefficient.log2 + 1 + d.exponent) := (zpow_add₀ (by norm_num) _ _).symm
    _ ≤ 2 ^ (-1074 : ℤ) := zpow_le_zpow_right₀ (by norm_num) (by omega)
  exact absurd large (not_le.2 less)

/-- A number this small is no number too large for a double. -/
theorem le_greatestExponent (positive : 0 < d.coefficient) (small : d.value < 2 ^ (1024 : ℤ)) :
    d.exponent ≤ greatestExponent := by
  by_contra large
  rw [greatestExponent, not_le] at large
  have one : (1 : ℚ) ≤ d.coefficient := by exact_mod_cast positive
  have more : (2 : ℚ) ^ (1024 : ℤ) ≤ d.value := calc
    (2 : ℚ) ^ (1024 : ℤ) ≤ 2 ^ (3 * d.exponent) := zpow_le_zpow_right₀ (by norm_num) (by omega)
    _ = (2 ^ (3 : ℤ)) ^ d.exponent := zpow_mul ..
    _ ≤ 10 ^ d.exponent := zpow_le_zpow_left₀ (by omega) (by norm_num) (by norm_num)
    _ ≤ d.coefficient * 10 ^ d.exponent := le_mul_of_one_le_left (by positivity) one
  exact absurd small (not_lt.2 more)

theorem coefficient_pos (positive : 0 < d.value) : 0 < d.coefficient := by
  rw [Nat.pos_iff_ne_zero]
  intro zero
  rw [value, zero, Nat.cast_zero, zero_mul] at positive
  exact lt_irrefl _ positive

/-- The range of the finite doubles. -/
theorem value_bounds {pos : 0 < m} (canonical : Canonical (.finite .positive m e pos)) :
    (2 : ℚ) ^ (-1074 : ℤ) ≤ m * 2 ^ e ∧ (m : ℚ) * 2 ^ e < 2 ^ (1024 : ℤ) := by
  cases canonical with
  | finite _ fits low high full =>
  have one : (1 : ℚ) ≤ m := by exact_mod_cast pos
  have most : (m : ℚ) < 2 ^ (53 : ℤ) := by exact_mod_cast fits
  constructor
  · calc (2 : ℚ) ^ (-1074 : ℤ) ≤ 2 ^ e := zpow_le_zpow_right₀ (by norm_num) low
      _ ≤ m * 2 ^ e := le_mul_of_one_le_left (by positivity) one
  · calc (m : ℚ) * 2 ^ e < 2 ^ (53 : ℤ) * 2 ^ e := by gcongr
      _ ≤ 2 ^ (53 : ℤ) * 2 ^ (971 : ℤ) := by
          gcongr
          norm_num
      _ = 2 ^ (1024 : ℤ) := by rw [← zpow_add₀ (by norm_num)]; norm_num

/-- A decimal that is a double becomes that double. -/
theorem toFloat_eq {pos : 0 < m} (canonical : Canonical (.finite .positive m e pos))
    (value : d.value = m * 2 ^ e) :
    d.toFloat = .ofModel (.pack (.finite .positive m e pos)) := by
  obtain ⟨large, small⟩ := value_bounds canonical
  rw [← value] at large small
  have positive : 0 < d.coefficient := coefficient_pos (lt_of_lt_of_le (by positivity) large)
  have near : ¬(d.coefficient = 0 ∨ d.exponent + d.coefficient.log2 < leastReach) :=
    not_or.2 ⟨Nat.ne_of_gt positive, Int.not_lt.2 (leastReach_le positive large)⟩
  rw [toFloat, if_neg near, if_neg (Int.not_lt.2 (le_greatestExponent positive small))]
  exact Ratio.toFloat_eq (Nat.pow_pos (by decide)) canonical (d.value_toRatio.trans value)

end Decimal

end Reckon
