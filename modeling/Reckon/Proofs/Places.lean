import Mathlib
import Reckon.Proofs.Doubles

/-!
The exact places of doubles on the number line. A finite double is a rational number, the infinities
are the ends of the line, and what is not a number has no place. The order of doubles is the order
of their places.
-/

namespace Reckon
namespace Double

open Float.Model (UnpackedFloat)
open Float.Model.UnpackedFloat

/-- The rational number `± mantissa · 2 ^ exponent`. -/
def rational (s : Sign) (mantissa : ℕ) (exponent : ℤ) : ℚ :=
  (s.apply mantissa : ℤ) * 2 ^ exponent

/-- The place of a form. The two zeros have the same one. -/
def formPlace? : UnpackedFloat → Option (WithBotTop ℚ)
  | .notANumber => none
  | .infinity .negative => some ⊥
  | .infinity .positive => some ⊤
  | .zero _ => some ↑(0 : ℚ)
  | .finite s mantissa exponent _ => some ↑(rational s mantissa exponent)

/-- The place of a double. -/
def place? (x : Float) : Option (WithBotTop ℚ) := formPlace? x.toModel.unpack

section
variable {s : Sign} {m n : ℕ} {e f : ℤ} {u v : UnpackedFloat} {p q : WithBotTop ℚ}

theorem rational_negative : rational .negative m e = -rational .positive m e := by
  simp [rational, Sign.apply]

theorem rational_positive : rational .positive m e = m * 2 ^ e := by
  simp [rational, Sign.apply]

theorem rational_pos (pos : 0 < m) : 0 < rational .positive m e := by
  rw [rational_positive]
  positivity

/-- With a greater exponent the mantissa is full, so the number is greater. -/
theorem rational_lt (fits : m < 2 ^ 53) (full : 2 ^ 52 ≤ n) (lt : e < f) :
    rational .positive m e < rational .positive n f := by
  rw [rational_positive, rational_positive]
  calc (m : ℚ) * 2 ^ e < 2 ^ 53 * 2 ^ e := by
        have : (m : ℚ) < 2 ^ 53 := by exact_mod_cast fits
        gcongr
    _ = 2 ^ 52 * 2 ^ (e + 1) := by
        rw [zpow_add_one₀ two_ne_zero]
        ring
    _ ≤ n * 2 ^ f := by
        have : (2 : ℚ) ^ 52 ≤ n := by exact_mod_cast full
        gcongr
        · norm_num
        · omega

/-- Exponents decide, and where they are equal mantissas do. -/
theorem compare_magnitudes {pos : 0 < m} {pos' : 0 < n} (hu : Canonical (.finite s m e pos))
    (hv : Canonical (.finite s n f pos')) :
    (compare e f).then (compare m n) = cmp (rational .positive m e) (rational .positive n f) := by
  cases hu with
  | finite _ fits low _ full =>
    cases hv with
    | finite _ fits' low' _ full' =>
      rcases lt_trichotomy e f with lt | rfl | gt
      · rw [compare_lt_iff_lt.2 lt, (rational_lt fits (full'.resolve_left (by omega)) lt).cmp_eq_lt]
        rfl
      · have scale : (0 : ℚ) < 2 ^ e := by positivity
        rw [compare_eq_iff_eq.2 rfl, rational_positive, rational_positive,
          cmp_mul_pos_right scale, Nat.strictMono_cast.cmp_map_eq, cmp_eq_compare]
        rfl
      · rw [compare_gt_iff_gt.2 gt, (rational_lt fits' (full.resolve_left (by omega)) gt).cmp_eq_gt]
        rfl

section
variable (a b : ℚ)

theorem cmp_neg : cmp (-a) (-b) = cmp b a := by
  have anti : StrictAnti fun c : ℚ => -c := fun _ _ lt => neg_lt_neg lt
  exact anti.cmp_map_eq a b

@[simp] theorem cmp_coe_coe : cmp (a : WithBotTop ℚ) b = cmp a b :=
  WithBotTop.coe_strictMono.cmp_map_eq a b

@[simp] theorem cmp_bot_coe : cmp (⊥ : WithBotTop ℚ) a = .lt := (WithBot.bot_lt_coe _).cmp_eq_lt

@[simp] theorem cmp_coe_bot : cmp (a : WithBotTop ℚ) ⊥ = .gt := (WithBot.bot_lt_coe _).cmp_eq_gt

theorem coe_lt_top : (a : WithBotTop ℚ) < ⊤ := WithBot.coe_lt_coe.2 (WithTop.coe_lt_top a)

@[simp] theorem cmp_coe_top : cmp (a : WithBotTop ℚ) ⊤ = .lt := (coe_lt_top a).cmp_eq_lt

@[simp] theorem cmp_top_coe : cmp (⊤ : WithBotTop ℚ) a = .gt := (coe_lt_top a).cmp_eq_gt

@[simp] theorem cmp_bot_top : cmp (⊥ : WithBotTop ℚ) ⊤ = .lt := bot_lt_top.cmp_eq_lt

@[simp] theorem cmp_top_bot : cmp (⊤ : WithBotTop ℚ) ⊥ = .gt := bot_lt_top.cmp_eq_gt

end

theorem compare_finite_zero (pos : 0 < m) (s' : Sign) :
    (UnpackedFloat.finite s m e pos).compare (.zero s') = some (cmp (rational s m e) 0) := by
  have positive := rational_pos (e := e) pos
  cases s with
  | positive => rw [positive.cmp_eq_gt]; rfl
  | negative => rw [rational_negative, (neg_lt_zero.2 positive).cmp_eq_lt]; rfl

theorem compare_zero_finite (pos : 0 < m) (s' : Sign) :
    (UnpackedFloat.zero s').compare (.finite s m e pos) = some (cmp 0 (rational s m e)) := by
  have positive := rational_pos (e := e) pos
  cases s with
  | positive => rw [positive.cmp_eq_lt]; rfl
  | negative => rw [rational_negative, (neg_lt_zero.2 positive).cmp_eq_gt]; rfl

theorem compare_finite {s' : Sign} {pos : 0 < m} {pos' : 0 < n}
    (hu : Canonical (.finite s m e pos)) (hv : Canonical (.finite s' n f pos')) :
    (UnpackedFloat.finite s m e pos).compare (.finite s' n f pos') =
      some (cmp (rational s m e) (rational s' n f)) := by
  have positive := rational_pos (e := e) pos
  have positive' := rational_pos (e := f) pos'
  cases s <;> cases s'
  · rw [rational_negative, rational_negative, cmp_neg, ← cmp_swap, ← compare_magnitudes hu hv]
    rfl
  · rw [rational_negative, ((neg_lt_zero.2 positive).trans positive').cmp_eq_lt]; rfl
  · rw [rational_negative, ((neg_lt_zero.2 positive').trans positive).cmp_eq_gt]; rfl
  · rw [← compare_magnitudes hu hv]; rfl

theorem formPlace?_eq_none_iff : formPlace? u = none ↔ u = .notANumber := by
  cases u with
  | infinity s => cases s <;> simp [formPlace?]
  | _ => simp [formPlace?]

/-- The order of two forms is that of their places. -/
theorem compare_eq_cmp (hu : Canonical u) (hv : Canonical v) (pu : formPlace? u = some p)
    (pv : formPlace? v = some q) : u.compare v = some (cmp p q) := by
  cases hu with
  | notANumber => cases pu
  | infinity s =>
    cases hv with
    | notANumber => cases pv
    | infinity s' => cases s <;> cases s' <;> cases pu <;> cases pv <;> simp <;> rfl
    | zero | finite => cases s <;> cases pu <;> cases pv <;> simp <;> rfl
  | zero s =>
    cases hv with
    | notANumber => cases pv
    | infinity s' => cases s' <;> cases pu <;> cases pv <;> simp <;> rfl
    | zero s' =>
      cases pu
      cases pv
      simp
      rfl
    | finite pos =>
      cases pu
      cases pv
      rw [cmp_coe_coe]
      exact compare_zero_finite pos s
  | finite pos fits low high full =>
    cases hv with
    | notANumber => cases pv
    | infinity s' => cases s' <;> cases pu <;> cases pv <;> simp <;> rfl
    | zero s' =>
      cases pu
      cases pv
      rw [cmp_coe_coe]
      exact compare_finite_zero pos s'
    | finite pos' fits' low' high' full' =>
      cases pu
      cases pv
      rw [cmp_coe_coe]
      exact compare_finite (.finite pos fits low high full) (.finite pos' fits' low' high' full')

end

end Double
end Reckon
