import Mathlib
import Reckon.Proofs.Places

/-!
The whole part and the fraction of a double. Both are doubles, exactly: the whole part is a mantissa
with its low bits cleared, and what is left of the mantissa fits as well, so subtracting rounds
nothing.
-/

namespace Reckon
namespace Double

open Float.Model (UnpackedFloat)
open Float.Model.UnpackedFloat

section
variable {x y : Float} {p q : WithBotTop ℚ} {s : Sign} {m n : ℕ} {e : ℤ}

theorem order?_eq_cmp (px : place? x = some p) (py : place? y = some q) :
    order? x y = some (cmp p q) :=
  compare_eq_cmp (canonical_unpack _) (canonical_unpack _) px py

theorem order?_eq_none (h : place? x = none ∨ place? y = none) : order? x y = none := by
  rw [place?, place?, formPlace?_eq_none_iff, formPlace?_eq_none_iff] at h
  change x.toModel.unpack.compare y.toModel.unpack = none
  rcases h with h | h
  · rw [h]
    rfl
  · rw [h]
    cases x.toModel.unpack with
    | infinity s | finite s => cases s <;> rfl
    | _ => rfl

theorem place?_eq_none_iff : place? x = none ↔ x.isNaN := by
  rw [place?, formPlace?_eq_none_iff, Float.isNaN, Float.Model.isNaN]
  cases x.toModel.unpack <;> simp [UnpackedFloat.isNaN]

theorem le_iff (px : place? x = some p) (py : place? y = some q) : x ≤ y ↔ p ≤ q := by
  have le : x ≤ y ↔ x.toModel.unpack.le y.toModel.unpack := decide_eq_true_iff
  have order : x.toModel.unpack.compare y.toModel.unpack = some (cmp p q) := order?_eq_cmp px py
  rw [le, UnpackedFloat.le, order, ← (cmp_compares p q).ne_gt]
  cases cmp p q <;> decide

theorem lt_iff (px : place? x = some p) (py : place? y = some q) : x < y ↔ p < q := by
  have lt : x < y ↔ x.toModel.unpack.lt y.toModel.unpack := decide_eq_true_iff
  have order : x.toModel.unpack.compare y.toModel.unpack = some (cmp p q) := order?_eq_cmp px py
  rw [lt, UnpackedFloat.lt, order, ← (cmp_compares p q).eq_lt]
  cases cmp p q <;> decide

theorem place?_ofModel {u : UnpackedFloat} (h : Canonical u) :
    place? (.ofModel (.pack u)) = formPlace? u := by
  rw [place?, unpack_pack h]

theorem place?_zero : place? zero = some ↑(0 : ℚ) := place?_ofModel (.zero .positive)

theorem place?_bound : place? bound = some ↑(2 ^ 63 : ℚ) := by
  have unpacked : bound.toModel.unpack = .finite .positive (2 ^ 52) 11 (Nat.two_pow_pos 52) := rfl
  rw [place?, unpacked, formPlace?, rational_positive]
  norm_num

theorem place?_neg_bound : place? (-bound) = some ↑(-2 ^ 63 : ℚ) := by
  have unpacked : (-bound).toModel.unpack =
      .finite .negative (2 ^ 52) 11 (Nat.two_pow_pos 52) := rfl
  rw [place?, unpacked, formPlace?, rational_negative, rational_positive]
  norm_num

/-- The mantissa without the bits after the point of `m · 2 ^ e`. -/
def wholeBits (m : ℕ) (e : ℤ) : ℕ := m >>> (-e).toNat <<< (-e).toNat

/-- The integer nearest to `m · 2 ^ e` that is not greater. -/
def wholeNat (m : ℕ) (e : ℤ) : ℕ := m / 2 ^ (-e).toNat * 2 ^ e.toNat

theorem wholeBits_eq : wholeBits m e = m / 2 ^ (-e).toNat * 2 ^ (-e).toNat := by
  rw [wholeBits, Nat.shiftRight_eq_div_pow, Nat.shiftLeft_eq]

theorem wholeBits_le : wholeBits m e ≤ m := by
  rw [wholeBits_eq]
  exact Nat.div_mul_le_self m _

theorem sub_wholeBits_lt : m - wholeBits m e < 2 ^ (-e).toNat := by
  rw [wholeBits_eq]
  have := Nat.mod_add_div' m (2 ^ (-e).toNat)
  have := Nat.mod_lt m (Nat.two_pow_pos (-e).toNat)
  omega

/-- What is left of a full mantissa is full. -/
theorem wholeBits_full (full : 2 ^ 52 ≤ m) (fits : m < 2 ^ 53) (some : wholeBits m e ≠ 0) :
    2 ^ 52 ≤ wholeBits m e := by
  rw [wholeBits_eq] at some ⊢
  generalize (-e).toNat = places at *
  have short : places < 53 := by
    by_contra long
    have : 2 ^ 53 ≤ 2 ^ places := Nat.pow_le_pow_right (by decide) (Nat.not_lt.1 long)
    rw [Nat.div_eq_of_lt (by omega)] at some
    omega
  calc 2 ^ 52 = 2 ^ 52 / 2 ^ places * 2 ^ places :=
        (Nat.div_mul_cancel (Nat.pow_dvd_pow 2 (by omega))).symm
    _ ≤ m / 2 ^ places * 2 ^ places := Nat.mul_le_mul_right _ (Nat.div_le_div_right full)

theorem scale_eq (e : ℤ) : (2 : ℚ) ^ (-e).toNat * 2 ^ e = 2 ^ e.toNat := by
  rw [← zpow_natCast, ← zpow_natCast, ← zpow_add₀ two_ne_zero]
  congr 1
  omega

theorem rational_wholeBits : rational .positive (wholeBits m e) e = wholeNat m e := by
  rw [rational_positive, wholeBits_eq, wholeNat]
  push_cast
  rw [mul_assoc, scale_eq]

/-- The form of the whole part. -/
def wholeForm (s : Sign) (m : ℕ) (e : ℤ) : UnpackedFloat :=
  if h : wholeBits m e = 0 then .zero s else .finite s (wholeBits m e) e (Nat.pos_of_ne_zero h)

theorem canonical_wholeForm {pos : 0 < m} (h : Canonical (.finite s m e pos)) :
    Canonical (wholeForm s m e) := by
  cases h with
  | finite _ fits low high full =>
    rw [wholeForm]
    split
    next => exact .zero s
    next some =>
      exact .finite _ (Nat.lt_of_le_of_lt wholeBits_le fits) low high
        (full.imp_right fun full => wholeBits_full full fits some)

theorem unpack_trunc {pos : 0 < m} (h : x.toModel.unpack = .finite s m e pos) :
    (trunc x).toModel.unpack = wholeForm s m e := by
  have canonical : Canonical (wholeForm s m e) := canonical_wholeForm (h ▸ canonical_unpack _)
  rw [wholeForm] at canonical ⊢
  rw [trunc, h]
  dsimp only
  split
  next none =>
    rw [dif_pos (by exact none)] at canonical ⊢
    exact unpack_pack canonical
  next some =>
    rw [dif_neg (by exact some)] at canonical ⊢
    exact unpack_pack canonical

theorem mantissa_shiftRight (em : ExtendedMantissa) (places : ℕ) :
    (em >>> places).mantissa = em.mantissa / 2 ^ places := by
  induction places with
  | zero => exact (Nat.div_one _).symm
  | succ places ih =>
    have step : (em >>> (places + 1)).mantissa = (em >>> places).mantissa / 2 := rfl
    rw [step, ih, Nat.div_div_eq_div_mul, ← Nat.pow_succ]

theorem roundToInt_wholeBits : roundToInt s (wholeBits m e) e = s.apply (wholeNat m e) := by
  rw [roundToInt]
  dsimp only [decreaseExponent, shiftToExponent]
  rw [mantissa_shiftRight]
  congr 2
  have places : (0 - (e - ((e - 0).toNat : ℤ))).toNat = (-e).toNat := by omega
  have up : (e - 0).toNat = e.toNat := by omega
  change (wholeBits m e <<< (e - 0).toNat) / _ = _
  rw [places, up, Nat.shiftLeft_eq, wholeBits_eq, wholeNat, Nat.mul_right_comm,
    Nat.mul_div_cancel _ (Nat.two_pow_pos _)]

theorem toInt_wholeForm (low high : ℤ) :
    (wholeForm s m e).toInt low high = s.apply (wholeNat m e) := by
  rw [wholeForm]
  split
  next none =>
    have zero : wholeNat m e = 0 := by
      have := rational_wholeBits (m := m) (e := e)
      rw [none, rational_positive, Nat.cast_zero, zero_mul] at this
      exact_mod_cast this.symm
    rw [zero]
    cases s <;> rfl
  next => exact roundToInt_wholeBits

theorem rational_eq (s : Sign) (m : ℕ) (e : ℤ) :
    rational s m e = s.apply 1 * rational .positive m e := by
  cases s <;> simp [rational, Sign.apply]

theorem rational_nonneg : 0 ≤ rational .positive m e := by
  rw [rational_positive]
  positivity

theorem abs_rational : |rational s m e| = rational .positive m e := by
  cases s with
  | positive => exact abs_of_nonneg rational_nonneg
  | negative => rw [rational_negative, abs_neg, abs_of_nonneg rational_nonneg]

theorem rational_sub (le : n ≤ m) :
    rational s (m - n) e = rational s m e - rational s n e := by
  rw [rational_eq s (m - n), rational_eq s m, rational_eq s n, rational_positive,
    rational_positive, rational_positive, Nat.cast_sub le]
  ring

theorem rational_shiftLeft (places : ℕ) :
    rational s (m <<< places) (e - places) = rational s m e := by
  rw [rational_eq, rational_eq s m, rational_positive, rational_positive, Nat.shiftLeft_eq,
    zpow_sub₀ two_ne_zero, zpow_natCast]
  push_cast
  field_simp

theorem sub_finite {pos : 0 < m} {pos' : 0 < n} (le : n ≤ m) :
    UnpackedFloat.sub .binary64 (.finite s m e pos) (.finite s n e pos') =
      normalize .binary64 (s.apply (m - n : ℕ)) e .positive := by
  have shifted (k : ℕ) : decreaseExponent k e (min e e) = (k, e) := by simp [decreaseExponent]
  have difference : s.apply (m - n : ℕ) = s.apply m - s.apply n := by
    rw [Int.natCast_sub le]
    cases s <;> simp only [Sign.apply]
    ring
  change normalize .binary64 (s.apply (decreaseExponent m e (min e e)).1 -
    s.apply (decreaseExponent n e (min e e)).1) (min e e) .positive = _
  rw [shifted, shifted, min_self, difference]

theorem normalize_apply (pos : 0 < m) :
    normalize .binary64 (s.apply m) e .positive = UnpackedFloat.round .binary64 s m e := by
  rw [UnpackedFloat.normalize]
  cases s with
  | positive =>
    rw [compare_gt_iff_gt.2 (show (0 : ℤ) < Sign.positive.apply m by simpa [Sign.apply] using pos)]
    rfl
  | negative =>
    rw [compare_lt_iff_lt.2 (show Sign.negative.apply m < (0 : ℤ) by simpa [Sign.apply] using pos)]
    simp [Sign.apply]

/-- A mantissa that fits is rounded to a double of the same place. -/
theorem formPlace?_round (pos : 0 < m) (fits : m < 2 ^ 53) (low : -1074 ≤ e) (high : e ≤ 971) :
    formPlace? (Float.Model.pack (UnpackedFloat.round .binary64 s m e)).unpack =
      some ↑(rational s m e) := by
  obtain ⟨places, pos', round, fits, low, full⟩ := round_eq (s := s) pos fits low
  rw [round, unpack_pack (.finite pos' fits low (by omega) full), formPlace?, rational_shiftLeft]

/-- Subtracting from a mantissa what it begins with leaves the rest of it, unrounded. -/
theorem place?_sub {y : Float} {pos : 0 < m} (hx : x.toModel.unpack = .finite s m e pos)
    (hy : y.toModel.unpack = wholeForm s m e) :
    place? (x - y) = some ↑(rational s (m - wholeBits m e) e) := by
  have unpacked : place? (x - y) = formPlace? (Float.Model.pack
      (UnpackedFloat.sub .binary64 (.finite s m e pos) (wholeForm s m e))).unpack := by
    rw [← hx, ← hy]
    rfl
  have canonical : Canonical (.finite s m e pos) := hx ▸ canonical_unpack _
  rw [unpacked, wholeForm]
  split
  next none =>
    rw [none, Nat.sub_zero]
    change formPlace? (Float.Model.pack (.finite s m e pos)).unpack = _
    rw [unpack_pack canonical, formPlace?]
  next some =>
    rw [sub_finite wholeBits_le]
    cases canonical with
    | finite _ fits low high _ =>
      rcases Nat.eq_zero_or_pos (m - wholeBits m e) with zero | rest
      · have nothing : s.apply (m - wholeBits m e : ℕ) = 0 := by
          rw [zero]
          cases s <;> rfl
        rw [nothing, zero]
        have place : rational s 0 e = 0 := by
          rw [rational_eq, rational_positive]
          simp
        rw [place]
        exact place?_zero
      · rw [normalize_apply rest]
        exact formPlace?_round rest (Nat.lt_of_le_of_lt (Nat.sub_le _ _) fits) low high

/-- The fraction is less than one. -/
theorem rational_rest_lt : rational .positive (m - wholeBits m e) e < 1 := by
  have rest := sub_wholeBits_lt (m := m) (e := e)
  rw [rational_positive]
  rcases lt_or_ge e 0 with fraction | whole
  · have one : (2 : ℚ) ^ (-e).toNat * 2 ^ e = 1 := by
      rw [scale_eq, Int.toNat_of_nonpos fraction.le, pow_zero]
    have rest : ((m - wholeBits m e : ℕ) : ℚ) < 2 ^ (-e).toNat := by exact_mod_cast rest
    rw [← one]
    gcongr
  · rw [Int.toNat_of_nonpos (Int.neg_nonpos_of_nonneg whole), pow_zero, Nat.lt_one_iff] at rest
    rw [rest]
    simp

/-- Taking the whole part away leaves the rest. -/
theorem rational_sub_whole : rational s m e - (s.apply (wholeNat m e) : ℤ) =
    rational s (m - wholeBits m e) e := by
  have whole : ((s.apply (wholeNat m e) : ℤ) : ℚ) = rational s (wholeBits m e) e := by
    rw [rational_eq, rational_wholeBits]
    cases s <;> simp [Sign.apply]
  rw [whole, rational_sub wholeBits_le]

theorem abs_sub_whole_lt : |rational s m e - (s.apply (wholeNat m e) : ℤ)| < 1 := by
  rw [rational_sub_whole, abs_rational]
  exact rational_rest_lt

/-- Towards zero no double within the words leaves them. -/
theorem whole_mem_words (low : -2 ^ 63 ≤ rational s m e) (high : rational s m e < 2 ^ 63) :
    -2 ^ 63 ≤ s.apply (wholeNat m e) ∧ s.apply (wholeNat m e) < 2 ^ 63 := by
  constructor
  · have above := (abs_lt.1 (abs_sub_whole_lt (s := s) (m := m) (e := e))).2
    have : (-2 ^ 63 - 1 : ℚ) < (s.apply (wholeNat m e) : ℤ) := by linarith
    have : -2 ^ 63 - 1 < s.apply (wholeNat m e) := by exact_mod_cast this
    omega
  · cases s with
    | negative =>
      change -(wholeNat m e : ℤ) < 2 ^ 63
      omega
    | positive =>
      have rest := rational_sub_whole (s := .positive) (m := m) (e := e)
      have fraction : 0 ≤ rational .positive (m - wholeBits m e) e := rational_nonneg
      have : ((Sign.positive.apply (wholeNat m e) : ℤ) : ℚ) < 2 ^ 63 := by linarith
      exact_mod_cast this

theorem toInt64_of_toInt {w : ℤ} (h : ∀ low high, x.toModel.unpack.toInt low high = w)
    (low : -2 ^ 63 ≤ w) (high : w < 2 ^ 63) : (toInt64 x).toInt = w := by
  have word : toInt64 x = Int64.ofIntClamp w := congrArg Int64.ofIntClamp (h _ _)
  rw [word]
  exact Int64.toInt_ofIntClamp low (Int.le_of_lt_add_one high)

theorem place?_zero_sub (hx : x.toModel.unpack = .zero s) : place? (x - x) = some ↑(0 : ℚ) := by
  have difference : place? (x - x) = formPlace? (Float.Model.pack
      (UnpackedFloat.sub .binary64 (.zero s) (.zero s))).unpack := by
    rw [← hx]
    rfl
  rw [difference, ← place?_zero]
  cases s <;> rfl

/-- The whole part of a double within the words is a word less than one away from it, and the
fraction is exactly the difference. -/
theorem exists_whole {a : ℚ} (px : place? x = some ↑a) (low : -2 ^ 63 ≤ a) (high : a < 2 ^ 63) :
    ∃ w : ℤ, (toInt64 (trunc x)).toInt = w ∧ |a - w| < 1 ∧
      place? (x - trunc x) = some ↑(a - w) := by
  cases hx : x.toModel.unpack with
  | notANumber => simp [place?, hx, formPlace?] at px
  | infinity s =>
    rw [place?, hx] at px
    cases s <;> cases px
  | zero s =>
    rw [place?, hx] at px
    obtain rfl : (0 : ℚ) = a := WithBotTop.coe_injective (Option.some.inj px)
    have same : trunc x = x := by rw [trunc, hx]
    rw [same]
    refine ⟨0, ?_, by norm_num, ?_⟩
    · exact toInt64_of_toInt (fun _ _ => by rw [hx]; rfl) (by norm_num) (by norm_num)
    · rw [Int.cast_zero, sub_zero]
      exact place?_zero_sub hx
  | finite s m e pos =>
    rw [place?, hx] at px
    obtain rfl : rational s m e = a := WithBotTop.coe_injective (Option.some.inj px)
    obtain ⟨least, greatest⟩ := whole_mem_words low high
    refine ⟨s.apply (wholeNat m e), ?_, abs_sub_whole_lt, ?_⟩
    · refine toInt64_of_toInt (fun low high => ?_) least greatest
      rw [unpack_trunc hx]
      exact toInt_wholeForm low high
    · rw [rational_sub_whole]
      exact place?_sub hx (unpack_trunc hx)

end

end Double
end Reckon
