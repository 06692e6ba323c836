import Mathlib.Data.Nat.Digits.Defs
import Reckon.Proofs.DecimalText

/-!
How long the written form of a number can be. A layout is not much longer than the digits of the
coefficient and the exponent together, the decimals that are tried for a double are not much longer
than the fraction it is, and the fractions of doubles are bounded. The bounds are far from the
longest form there is; they keep the written form of any number within the offsets of a span.
-/

namespace Reckon

open Token Double
open Float.Model (UnpackedFloat)
open Float.Model.UnpackedFloat

namespace Decimal

/-- The number of decimal digits; zero has one. -/
def digitCount (n : Nat) : Nat := (Nat.toDigits 10 n).length

section
variable {m n k : Nat}

theorem digitCount_pos : 0 < digitCount n := Nat.length_toDigits_pos

theorem digitCount_le_iff (pos : 0 < k) : digitCount n ≤ k ↔ n < 10 ^ k :=
  Nat.length_toDigits_le_iff (by decide) pos

theorem lt_pow_digitCount (n : Nat) : n < 10 ^ digitCount n :=
  (digitCount_le_iff digitCount_pos).1 (Nat.le_refl _)

theorem digitCount_mono (le : m ≤ n) : digitCount m ≤ digitCount n :=
  (digitCount_le_iff digitCount_pos).2 (Nat.lt_of_le_of_lt le (lt_pow_digitCount n))

theorem digitCount_succ_le (n : Nat) : digitCount (n + 1) ≤ digitCount n + 1 := by
  refine (digitCount_le_iff (Nat.succ_pos _)).2 (Nat.lt_of_le_of_lt (lt_pow_digitCount n) ?_)
  exact Nat.pow_lt_pow_right (by decide) (Nat.lt_succ_self _)

/-- Digits are appended by multiplying with a small base. -/
theorem digitCount_mul_pow_le {base : Nat} (small : base ≤ 10) (n k : Nat) :
    digitCount (n * base ^ k) ≤ digitCount n + k := by
  refine (digitCount_le_iff (Nat.add_pos_left digitCount_pos k)).2 ?_
  calc n * base ^ k ≤ n * 10 ^ k := Nat.mul_le_mul_left n (Nat.pow_le_pow_left small k)
    _ < 10 ^ digitCount n * 10 ^ k :=
        Nat.mul_lt_mul_of_pos_right (lt_pow_digitCount n) (Nat.pow_pos (by decide))
    _ = 10 ^ (digitCount n + k) := (Nat.pow_add ..).symm

theorem digitCount_le_succ (n : Nat) : digitCount n ≤ n + 1 :=
  (digitCount_le_iff (Nat.succ_pos n)).2
    (Nat.lt_trans (Nat.lt_succ_self n) (Nat.lt_pow_self (by decide)))

end

theorem length_toString_le (n : Int) : (toString n).toList.length ≤ n.natAbs + 2 := by
  have digits := digitCount_le_succ n.natAbs
  rw [digitCount] at digits
  rcases Int.lt_or_le n 0 with negative | nonneg
  · rw [Numeral.toList_toString_of_neg negative, List.length_cons]
    omega
  · have same : n.toNat = n.natAbs := by omega
    rw [Numeral.toList_toString_of_nonneg nonneg, same]
    omega

section
variable {digits : List Char} {d : Decimal}

theorem length_positional_le {point : Int} (near : -3 ≤ point ∧ point ≤ 16) :
    (positional digits point).length ≤ digits.length + 18 := by
  rw [positional]
  split
  · simp only [List.length_cons, List.length_append, List.length_replicate]
    omega
  · split
    · simp only [List.length_append, List.length_replicate, List.length_cons, List.length_nil]
      omega
    · simp only [List.length_append, List.length_cons, List.length_take, List.length_drop]
      omega

theorem length_scientific_le (digits : List Char) (exponent : Int) :
    (scientific digits exponent).length ≤ digits.length + exponent.natAbs + 4 := by
  have power := length_toString_le exponent
  match digits with
  | [] => exact Nat.zero_le _
  | [d] =>
    simp only [scientific, List.length_cons, List.length_nil]
    omega
  | d :: e :: ds =>
    simp only [scientific, List.length_cons, List.length_append]
    omega

theorem length_layout_le (d : Decimal) :
    d.layout.length ≤ 3 * digitCount d.coefficient + d.exponent.natAbs + 18 := by
  have fewer : digitCount d.trim.coefficient ≤ digitCount d.coefficient :=
    digitCount_mono (Nat.div_le_self _ _)
  have zeros : ∃ zeros ≤ digitCount d.coefficient, d.trim.exponent = d.exponent + zeros := by
    refine ⟨_, ?_, rfl⟩
    rw [digitCount, ← (Nat.toDigits 10 d.coefficient).length_reverse]
    exact (List.takeWhile_prefix _).length_le
  obtain ⟨zeros, few, exponent⟩ := zeros
  rw [digitCount] at fewer
  rw [layout]
  generalize Nat.toDigits 10 d.trim.coefficient = digits at fewer ⊢
  rw [exponent]
  split
  next inFull =>
    simp only [writtenInFull, Bool.and_eq_true, decide_eq_true_eq] at inFull
    have : (positional digits (d.exponent + zeros + digits.length)).length ≤ digits.length + 18 :=
      length_positional_le (by omega)
    omega
  next =>
    have := length_scientific_le digits (d.exponent + zeros + digits.length - 1)
    omega

end

section
variable {r : Ratio} {place : Int} {d : Decimal}

theorem natAbs_leadingPlace_le (r : Ratio) :
    (leadingPlace r).natAbs ≤ digitCount r.num + digitCount r.den := by
  rw [leadingPlace]
  split
  · have pos : 0 < digitCount r.num := digitCount_pos
    have := digitCount_mono (Nat.div_le_self r.num r.den)
    rw [digitCount] at this
    omega
  · have below := Nat.le_trans (Nat.div_le_self (r.den - 1) r.num) (Nat.sub_le r.den 1)
    have := digitCount_mono below
    rw [digitCount] at this
    omega

theorem neighbours_bounds (mem : d ∈ neighbours r place) :
    digitCount d.coefficient ≤ digitCount r.num + place.natAbs + 1 ∧ d.exponent = place := by
  have scaled : digitCount ((r.unscale 10 place).num / (r.unscale 10 place).den) ≤
      digitCount r.num + place.natAbs := by
    refine Nat.le_trans (digitCount_mono (Nat.div_le_self _ _)) ?_
    refine Nat.le_trans (digitCount_mul_pow_le (Nat.le_refl 10) r.num (-place).toNat) ?_
    omega
  have next := digitCount_succ_le ((r.unscale 10 place).num / (r.unscale 10 place).den)
  have either : d = ⟨(r.unscale 10 place).num / (r.unscale 10 place).den, place⟩ ∨
      d = ⟨(r.unscale 10 place).num / (r.unscale 10 place).den + 1, place⟩ := by
    rw [neighbours] at mem
    split at mem
    · exact .inl (List.mem_singleton.1 mem)
    · split at mem <;> simp only [List.mem_cons, List.not_mem_nil, or_false] at mem
      · exact mem
      · exact mem.symm
  rcases either with rfl | rfl
  · exact ⟨Nat.le_succ_of_le scaled, rfl⟩
  · exact ⟨Nat.le_trans next (Nat.succ_le_succ scaled), rfl⟩

end

section
variable {m : Nat} {e : Int} {accepts : Decimal → Bool}

theorem exact_bounds (m : Nat) (e : Int) :
    digitCount (exact m e).coefficient ≤ digitCount m + e.natAbs ∧
      (exact m e).exponent.natAbs ≤ e.natAbs := by
  rw [exact]
  split
  · refine ⟨Nat.le_trans (digitCount_mul_pow_le (by decide) m e.toNat) ?_, Nat.zero_le _⟩
    omega
  · refine ⟨Nat.le_trans (digitCount_mul_pow_le (by decide) m (-e).toNat) ?_, Nat.le_refl _⟩
    omega

theorem ofBinary_bounds (m : Nat) (e : Int) :
    digitCount (Ratio.ofBinary m e).num ≤ digitCount m + e.natAbs ∧
      digitCount (Ratio.ofBinary m e).den ≤ e.natAbs + 1 := by
  constructor
  · refine Nat.le_trans (digitCount_mul_pow_le (show 2 ≤ 10 by decide) m e.toNat) ?_
    omega
  · have power := digitCount_mul_pow_le (show 2 ≤ 10 by decide) 1 (-e).toNat
    rw [Nat.one_mul] at power
    refine Nat.le_trans power ?_
    have one : digitCount 1 = 1 := rfl
    omega

/-- The decimal that is found is not much longer than the number. -/
theorem shortest_bounds (m : Nat) (e : Int) (accepts : Decimal → Bool) :
    digitCount (shortest m e accepts).coefficient ≤ 2 * digitCount m + 3 * e.natAbs + 20 ∧
      (shortest m e accepts).exponent.natAbs ≤ digitCount m + 2 * e.natAbs + 20 := by
  obtain ⟨num, den⟩ := ofBinary_bounds m e
  have top := natAbs_leadingPlace_le (Ratio.ofBinary m e)
  rw [shortest]
  cases found : (List.range mostDigits).findSome? fun (n : Nat) =>
      (neighbours (.ofBinary m e) (leadingPlace (.ofBinary m e) - n)).find? accepts with
  | none =>
    rw [Option.getD_none]
    have := exact_bounds m e
    omega
  | some d =>
    obtain ⟨n, few, hit⟩ := List.exists_of_findSome?_eq_some found
    have few : n < 17 := List.mem_range.1 few
    obtain ⟨coefficient, exponent⟩ := neighbours_bounds (List.mem_of_find?_eq_some hit)
    rw [Option.getD_some]
    omega

end

end Decimal

namespace Numeral

theorem length_finite_le {x : Float} {s : Sign} {m : Nat} {e : Int} {pos : 0 < m}
    (canonical : Canonical (.finite s m e pos)) : (finite x m e).length ≤ 20000 := by
  cases canonical with
  | finite _ fits low high _ =>
    have mantissa : Decimal.digitCount m ≤ 53 :=
      (Decimal.digitCount_le_iff (by decide)).2
        (Nat.lt_of_lt_of_le fits (Nat.pow_le_pow_left (by decide) 53))
    have layout := Decimal.length_layout_le
      (Decimal.shortest m e fun d => decide (magnitude? d.layout = some x))
    have found := Decimal.shortest_bounds m e fun d => decide (magnitude? d.layout = some x)
    rw [Numeral.finite]
    omega

/-- The written form of a double is short. -/
theorem length_ofFloat_le (x : Float) : (ofFloat x).length ≤ 20001 := by
  have signs (s : Sign) : (sign s).length ≤ 1 := by cases s <;> decide
  have words : "inf".length = 3 ∧ "0.0".length = 3 := by decide
  have canonical := canonical_unpack x.toModel
  rw [ofFloat]
  generalize x.toModel.unpack = u at canonical
  cases u with
  | notANumber =>
    have short : "NaN".length ≤ 20001 := by decide
    exact short
  | infinity s | zero s =>
    have := signs s
    simp only [String.length_ofList, List.length_append, String.length_toList]
    omega
  | finite s m e pos =>
    have := signs s
    have digits := length_finite_le (x := x.abs) canonical
    simp only [String.length_ofList, List.length_append]
    omega

/-- The written form of a word is short. -/
theorem length_ofInt_le (n : Int64) : (ofInt n).length ≤ 20 := by
  have low : -9223372036854775808 ≤ n.toInt := n.le_toInt
  have high : n.toInt < 9223372036854775808 := n.toInt_lt
  have digits : Decimal.digitCount n.toInt.natAbs ≤ 19 :=
    (Decimal.digitCount_le_iff (by decide)).2 (by omega)
  rw [Decimal.digitCount] at digits
  rw [← String.length_toList, ofInt]
  rcases Int.lt_or_le n.toInt 0 with negative | nonneg
  · rw [toList_toString_of_neg negative, List.length_cons]
    omega
  · have same : n.toInt.toNat = n.toInt.natAbs := by omega
    rw [toList_toString_of_nonneg nonneg, same]
    omega

end Numeral

end Reckon
