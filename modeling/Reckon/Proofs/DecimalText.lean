import Reckon.Numeral
import Reckon.Proofs.ExactRounding
import Reckon.Proofs.Numerals

/-!
What is written of a decimal is read as a decimal with the same value. Trailing zeros may go and a
point may move, so it need not be the same coefficient and exponent. Exponents are read up to a
cap, and no exponent of a double comes near it. So a decimal that is a double is read back as that
double.
-/

namespace Reckon

open Token Double

namespace Decimal

section
variable {digits : List Char} {d : Decimal} {n : Nat}

/-- The number with these digits, `exponent` places up. -/
def valueOf (digits : List Char) (exponent : Int) : ℚ :=
  (Nat.ofDigitChars 10 digits 0 : ℚ) * 10 ^ exponent

theorem value_mk (digits : List Char) (exponent : Int) :
    Decimal.value ⟨ofDigits digits, exponent⟩ = valueOf digits exponent := by
  rw [value, valueOf, ofDigits_eq_ofDigitChars]

theorem valueOf_toDigits (coefficient : Nat) (exponent : Int) :
    valueOf (Nat.toDigits 10 coefficient) exponent = Decimal.value ⟨coefficient, exponent⟩ := by
  rw [value, valueOf, Nat.ofDigitChars_ten_toDigits]

theorem valueOf_append_zeros (digits : List Char) (zeros : Nat) (exponent : Int) :
    valueOf (digits ++ List.replicate zeros '0') exponent = valueOf digits (exponent + zeros) := by
  rw [valueOf, valueOf, Nat.ofDigitChars_append, Nat.ofDigitChars_replicate_zero,
    zpow_add₀ (by norm_num), zpow_natCast]
  push_cast
  ring

theorem valueOf_zeros_append (zeros : Nat) (digits : List Char) (exponent : Int) :
    valueOf (List.replicate zeros '0' ++ digits) exponent = valueOf digits exponent := by
  rw [valueOf, valueOf, Nat.ofDigitChars_append, Nat.ofDigitChars_replicate_zero, Nat.mul_zero]

/-- The coefficient has the trailing zeros that are taken off it. -/
theorem exists_trim (d : Decimal) :
    ∃ digits zeros, Nat.toDigits 10 d.coefficient = digits ++ List.replicate zeros '0' ∧
      d.trim = ⟨Nat.ofDigitChars 10 digits 0, d.exponent + zeros⟩ := by
  let digits := (Nat.toDigits 10 d.coefficient).reverse
  have zeros : digits.takeWhile (· == '0') =
      List.replicate (digits.takeWhile (· == '0')).length '0' :=
    List.eq_replicate_of_mem fun c mem => by simpa using List.mem_takeWhile_imp mem
  have split := congrArg List.reverse
    (List.takeWhile_append_dropWhile (p := (· == '0')) (l := digits))
  rw [List.reverse_append, List.reverse_reverse, zeros, List.reverse_replicate] at split
  refine ⟨_, _, split.symm, congrArg₂ Decimal.mk (Nat.div_eq_of_eq_mul_right ?_ ?_) rfl⟩
  · exact Nat.pow_pos (by decide)
  · have value := Nat.ofDigitChars_ten_toDigits (n := d.coefficient)
    rw [← split, Nat.ofDigitChars_append, Nat.ofDigitChars_replicate_zero] at value
    exact value.symm

theorem value_trim (d : Decimal) : d.trim.value = d.value := by
  obtain ⟨digits, zeros, split, trimmed⟩ := exists_trim d
  have value := valueOf_toDigits d.coefficient d.exponent
  rw [split, valueOf_append_zeros] at value
  rw [trimmed, ← ofDigits_eq_ofDigitChars, value_mk, value]

/-- Exponents up to the cap are read in full. -/
theorem cappedOfDigits_eq (small : Nat.ofDigitChars 10 digits 0 < exponentCap) :
    cappedOfDigits digits = Nat.ofDigitChars 10 digits 0 := by
  have grows (digits : List Char) (n : Nat) : n ≤ digits.foldl withDigit n := by
    induction digits generalizing n with
    | nil => exact Nat.le_refl n
    | cons c digits ih =>
      have one : n ≤ withDigit n c := by
        rw [withDigit]
        omega
      exact one.trans (ih _)
  have capped (digits : List Char) (n : Nat) (small : digits.foldl withDigit n < exponentCap) :
      digits.foldl (fun n c => if n < exponentCap then withDigit n c else n) n =
        digits.foldl withDigit n := by
    induction digits generalizing n with
    | nil => rfl
    | cons c digits ih =>
      rw [List.foldl_cons, if_pos ((grows (c :: digits) n).trans_lt small)]
      exact ih _ small
  exact capped digits 0 small

theorem isExponent_toString (k : Int) : IsExponent ('e' :: (toString k).toList) := by
  rcases Int.lt_or_le k 0 with negative | nonneg
  · rw [Numeral.toList_toString_of_neg negative]
    exact .signed (.inl rfl) (.inr rfl) (Numeral.isDigits_toDigits _)
  · rw [Numeral.toList_toString_of_nonneg nonneg]
    exact .plain (.inl rfl) (Numeral.isDigits_toDigits _)

theorem exponent?_toString {k : Int} (small : k.natAbs < exponentCap) :
    exponent? ('e' :: (toString k).toList) = some k := by
  have capped {n : Nat} (small : n < exponentCap) :
      (digits? (Nat.toDigits 10 n)).map cappedOfDigits = some n := by
    rw [digits?_of_isDigits (Numeral.isDigits_toDigits n), Option.map_some,
      cappedOfDigits_eq (by rwa [Nat.ofDigitChars_ten_toDigits]), Nat.ofDigitChars_ten_toDigits]
  rcases Int.lt_or_le k 0 with negative | nonneg
  · rw [Numeral.toList_toString_of_neg negative, exponent?, signed?, capped small]
    show some (-(k.natAbs : Int)) = some k
    congr 1
    omega
  · rw [Numeral.toList_toString_of_nonneg nonneg, exponent?,
      signed?_of_isDigits (Numeral.isDigits_toDigits _), capped (by omega), Option.map_some]
    congr 1
    omega

/-- Positional digits are digits around a point, whole and fraction of the same number. -/
theorem exists_positional (h : IsDigits digits) (point : Int) :
    ∃ whole fraction, IsDigits whole ∧ AllDigits fraction ∧
      positional digits point = whole ++ '.' :: fraction ∧
      valueOf (whole ++ fraction) (-fraction.length) = valueOf digits (point - digits.length) := by
  have zero (n : Nat) : AllDigits (List.replicate n '0') := by
    intro c mem
    rw [List.eq_of_mem_replicate mem]
    rfl
  rw [positional]
  split
  next low =>
    have fraction := List.forall_mem_append.2 ⟨zero (-point).toNat, h.2⟩
    refine ⟨['0'], _, ⟨by simp, zero 1⟩, fraction, rfl, ?_⟩
    rw [← List.append_assoc, List.singleton_append, ← List.replicate_succ, valueOf_zeros_append,
      List.length_append, List.length_replicate]
    congr 1
    omega
  next high =>
    split
    next long =>
      have whole : IsDigits (digits ++ List.replicate (point.toNat - digits.length) '0') :=
        ⟨by simp [h.1], List.forall_mem_append.2 ⟨h.2, zero _⟩⟩
      refine ⟨_, ['0'], whole, zero 1, rfl, ?_⟩
      rw [← List.replicate_one, valueOf_append_zeros, valueOf_append_zeros, List.length_replicate]
      congr 1
      omega
    next short =>
      have whole : IsDigits (digits.take point.toNat) := by
        refine ⟨?_, fun c mem => h.2 c (List.mem_of_mem_take mem)⟩
        rw [Ne, List.take_eq_nil_iff]
        exact not_or.2 ⟨by omega, h.1⟩
      refine ⟨_, _, whole, fun c mem => h.2 c (List.mem_of_mem_drop mem), rfl, ?_⟩
      rw [List.take_append_drop, List.length_drop]
      congr 1
      omega

theorem isFloat_positional (h : IsDigits digits) (point : Int) :
    IsFloat (positional digits point) := by
  obtain ⟨whole, fraction, hw, hf, eq, _⟩ := exists_positional h point
  rw [eq, ← List.append_nil fraction]
  exact .point hw hf (.inl rfl)

theorem read?_positional (h : IsDigits digits) (point : Int) :
    ∃ d, read? (positional digits point) = some d ∧
      d.value = valueOf digits (point - digits.length) := by
  obtain ⟨whole, fraction, hw, hf, eq, same⟩ := exists_positional h point
  refine ⟨⟨ofDigits (whole ++ fraction), 0 - fraction.length⟩, ?_, ?_⟩
  · have read := read?_point hw.2 hf (fun both => hw.1 both.1) (.inl rfl)
    rw [List.append_nil] at read
    rw [eq, read]
    rfl
  · rw [value_mk, Int.zero_sub, same]

theorem isFloat_scientific (h : IsDigits digits) (k : Int) : IsFloat (scientific digits k) := by
  match digits, h with
  | [], h => exact absurd rfl h.1
  | [c], h => exact .exponent h (isExponent_toString k)
  | c :: d :: ds, h =>
    obtain ⟨first, others⟩ := List.forall_mem_cons.1 h.2
    exact .point ⟨by simp, List.forall_mem_singleton.2 first⟩ others (.inr (isExponent_toString k))

theorem read?_scientific (h : IsDigits digits) {k : Int} (small : k.natAbs < exponentCap) :
    ∃ d, read? (scientific digits k) = some d ∧
      d.value = valueOf digits (k + 1 - digits.length) := by
  match digits, h with
  | [], h => exact absurd rfl h.1
  | [c], h =>
    refine ⟨⟨ofDigits [c], k⟩, ?_, ?_⟩
    · have read := read?_exponent h (isExponent_toString k)
      rwa [exponent?_toString small] at read
    · rw [value_mk, List.length_singleton]
      congr 1
      omega
  | c :: d :: ds, h =>
    obtain ⟨first, others⟩ := List.forall_mem_cons.1 h.2
    refine ⟨⟨ofDigits (c :: d :: ds), k - (d :: ds).length⟩, ?_, ?_⟩
    · have read := read?_point (List.forall_mem_singleton.2 first) others (by simp)
        (.inr (isExponent_toString k))
      rwa [exponent?_toString small] at read
    · have length : (c :: d :: ds).length = (d :: ds).length + 1 := List.length_cons
      rw [value_mk, length]
      congr 1
      push_cast
      omega

theorem isFloat_layout (d : Decimal) : IsFloat d.layout := by
  rw [layout]
  split
  · exact isFloat_positional (Numeral.isDigits_toDigits _) _
  · exact isFloat_scientific (Numeral.isDigits_toDigits _) _

/-- The power of ten of the first digit, as it is computed for the layout. -/
theorem log_value (positive : 0 < d.coefficient) :
    Int.log 10 d.value = d.exponent + (Nat.toDigits 10 d.coefficient).length - 1 := by
  have bound {k : Nat} (pos : 0 < k) :=
    Nat.length_toDigits_le_iff (b := 10) (n := d.coefficient) (by decide) pos
  have some : 0 < (Nat.toDigits 10 d.coefficient).length := Nat.length_toDigits_pos
  generalize (Nat.toDigits 10 d.coefficient).length = length at bound some ⊢
  obtain ⟨p, rfl⟩ : ∃ p, length = p + 1 := ⟨length - 1, by omega⟩
  have high : d.coefficient < 10 ^ (p + 1) := (bound some).1 le_rfl
  have low : 10 ^ p ≤ d.coefficient := by
    cases p with
    | zero => exact positive
    | succ p => exact Nat.not_lt.1 fun less => absurd ((bound (by omega)).2 less) (by omega)
  have log := Ratio.log_scaled (by decide) low high d.exponent
  rw [Nat.cast_ofNat] at log
  rw [value, log]
  omega

/-- What is written is read as the same number. -/
theorem read?_layout (positive : 0 < d.value) (small : (Int.log 10 d.value).natAbs < exponentCap) :
    ∃ e, read? d.layout = some e ∧ e.value = d.value := by
  have digits := Numeral.isDigits_toDigits d.trim.coefficient
  have value : valueOf (Nat.toDigits 10 d.trim.coefficient) d.trim.exponent = d.value := by
    rw [valueOf_toDigits]
    exact value_trim d
  have coefficient : 0 < d.trim.coefficient := coefficient_pos (by rwa [value_trim])
  rw [← value_trim, log_value coefficient] at small
  rw [layout]
  split
  · obtain ⟨e, read, same⟩ := read?_positional digits
      (d.trim.exponent + (Nat.toDigits 10 d.trim.coefficient).length)
    rw [Int.add_sub_cancel, value] at same
    exact ⟨e, read, same⟩
  · obtain ⟨e, read, same⟩ := read?_scientific digits small
    rw [Int.sub_add_cancel, Int.add_sub_cancel, value] at same
    exact ⟨e, read, same⟩

theorem natAbs_log_lt {v : ℚ} (large : 2 ^ (-1074 : ℤ) ≤ v) (small : v < 2 ^ (1024 : ℤ)) :
    (Int.log 10 v).natAbs < exponentCap := by
  have positive : 0 < v := lt_of_lt_of_le (by positivity) large
  have low : -1074 ≤ Int.log 10 v := by
    rw [← Int.zpow_le_iff_le_log (by decide) positive, Nat.cast_ofNat]
    exact (ten_zpow_le (by decide)).trans large
  have high : Int.log 10 v < 1024 := by
    rw [← Int.lt_zpow_iff_log_lt (by decide) positive, Nat.cast_ofNat]
    exact small.trans_le (zpow_le_zpow_left₀ (by decide) (by norm_num) (by norm_num))
  rw [exponentCap]
  omega

/-- What is written of a decimal that is a double is read as the double. -/
theorem magnitude?_layout {m : Nat} {e : Int} {pos : 0 < m}
    (canonical : Canonical (.finite .positive m e pos)) (value : d.value = m * 2 ^ e) :
    Numeral.magnitude? d.layout = some (.ofModel (.pack (.finite .positive m e pos))) := by
  obtain ⟨large, small⟩ := value_bounds canonical
  rw [← value] at large small
  have positive : 0 < d.value := lt_of_lt_of_le (by positivity) large
  obtain ⟨written, read, same⟩ := read?_layout positive (natAbs_log_lt large small)
  rw [Numeral.magnitude?_of_isFloat d.isFloat_layout, read, Option.map_some,
    toFloat_eq canonical (same.trans value)]

end

end Decimal

end Reckon
