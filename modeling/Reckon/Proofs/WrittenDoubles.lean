import Reckon.Proofs.DecimalText

/-!
Doubles are read back from what is written of them. The search for a short decimal ends with all
digits of the double, and these are read back as the double; so whichever decimal it ends with is.
-/

namespace Reckon

open Token Double
open Float.Model (UnpackedFloat)
open Float.Model.UnpackedFloat

theorem Decimal.value_exact (m : Nat) (e : Int) : (exact m e).value = m * 2 ^ e := by
  rw [exact, value]
  split
  next nonneg =>
    rw [zpow_zero, mul_one]
    push_cast [Nat.pow_eq]
    rw [← zpow_natCast, Int.toNat_of_nonneg nonneg]
  next negative =>
    have ten : (10 : ℚ) ^ e = 2 ^ e * 5 ^ e := by
      rw [← mul_zpow]
      norm_num
    push_cast [Nat.pow_eq]
    rw [← zpow_natCast, Int.toNat_of_nonneg (by omega), ten, zpow_neg]
    field_simp

theorem Double.ofModel_pack_unpack (x : Float) : Float.ofModel (.pack x.toModel.unpack) = x := by
  rw [pack_unpack]

/-- The double has the sign `+`, so it is a number. -/
def Double.IsPositive (x : Float) : Prop := sign? x.toModel.unpack = some .positive

theorem Double.isPositive_ofModel_pack {u : UnpackedFloat} (positive : sign? u = some .positive) :
    IsPositive (.ofModel (.pack u)) :=
  (sign?_pack u).trans positive

/-- A number compares equal to itself. -/
theorem Double.IsPositive.beq_self {x : Float} (h : IsPositive x) : (x == x) = true := by
  have form : sign? x.toModel.unpack = some .positive := h
  show UnpackedFloat.beq x.toModel.unpack x.toModel.unpack = true
  generalize x.toModel.unpack = u at form
  cases u with
  | notANumber => cases form
  | infinity _ =>
    cases form
    rfl
  | zero _ => rfl
  | finite _ _ _ _ =>
    cases form
    simp [UnpackedFloat.beq, UnpackedFloat.compare]

theorem Ratio.isPositive_toFloat (r : Ratio) : IsPositive r.toFloat := by
  have unpacked (m : Nat) (e : Int) : sign? (unpacked m e) = some .positive := by
    rw [Ratio.unpacked]
    split <;> rfl
  rw [toFloat]
  split <;> exact isPositive_ofModel_pack (unpacked _ _)

theorem Decimal.isPositive_toFloat (d : Decimal) : IsPositive d.toFloat := by
  rw [toFloat]
  split
  next => exact isPositive_ofModel_pack rfl
  next =>
    split
    next => exact isPositive_ofModel_pack rfl
    next => exact d.toRatio.isPositive_toFloat

namespace Numeral

variable {x y : Float} {s : Sign} {m : Nat} {e : Int} {pos : 0 < m}

theorem isFloat_finite (x : Float) (m : Nat) (e : Int) : IsFloat (finite x m e) :=
  Decimal.isFloat_layout _

/-- The magnitude of a finite double is read back. -/
theorem magnitude?_finite (form : x.toModel.unpack = .finite s m e pos) :
    magnitude? (finite x.abs m e) = some x.abs := by
  have canonical : Canonical (.finite .positive m e pos) := by
    have own := canonical_unpack x.toModel
    rw [form] at own
    cases own with
    | finite _ fits low high full => exact .finite pos fits low high full
  have abs : x.abs = .ofModel (.pack (.finite .positive m e pos)) := by
    show Float.ofModel (.pack x.toModel.unpack.abs) = _
    rw [form, UnpackedFloat.abs]
  have exact : magnitude? (Decimal.exact m e).layout = some x.abs := by
    rw [abs, Decimal.magnitude?_layout canonical (Decimal.value_exact m e)]
  -- All digits of the double are accepted, so the search ends with a decimal that is.
  let accepts (d : Decimal) : Bool := decide (magnitude? d.layout = some x.abs)
  have accepted : accepts (Decimal.shortest m e accepts) :=
    Decimal.accepts_shortest (decide_eq_true exact)
  exact of_decide_eq_true accepted

/-- The form of a double that is neither negative nor infinite. -/
theorem exists_form (positive : IsPositive x) (bounded : x.isInf = false) :
    x.toModel.unpack = .zero .positive ∨
      ∃ m e pos, x.toModel.unpack = .finite .positive m e pos := by
  have positive : sign? x.toModel.unpack = some .positive := positive
  have bounded : x.toModel.unpack.isInf = false := bounded
  generalize x.toModel.unpack = u at positive bounded ⊢
  cases u with
  | notANumber => cases positive
  | infinity s => cases bounded
  | zero s =>
    cases positive
    exact .inl rfl
  | finite s m e pos =>
    cases positive
    exact .inr ⟨m, e, pos, rfl⟩

/-- What a float token is read as has no sign. -/
theorem isPositive_of_magnitude? {cs : List Char} (h : IsFloat cs)
    (read : magnitude? cs = some x) : IsPositive x := by
  rw [magnitude?_of_isFloat h] at read
  obtain ⟨d, _, rfl⟩ := Option.map_eq_some_iff.1 read
  exact d.isPositive_toFloat

/-- A double that is neither negative nor infinite is written as a float token and read back. -/
theorem magnitude?_ofFloat (positive : IsPositive x) (bounded : x.isInf = false) :
    IsFloat (ofFloat x).toList ∧ magnitude? (ofFloat x).toList = some x := by
  rcases exists_form positive bounded with form | ⟨m, e, pos, form⟩
  · have text : (ofFloat x).toList = ['0', '.', '0'] := by
      rw [ofFloat, form, String.toList_ofList]
      rfl
    have zero : magnitude? ['0', '.', '0'] = some (.ofModel (.pack (.zero .positive))) := rfl
    have digit : IsDigits ['0'] := ⟨by simp, List.forall_mem_singleton.2 rfl⟩
    rw [text, zero, ← form, ofModel_pack_unpack]
    exact ⟨.point digit digit.2 (.inl rfl), rfl⟩
  · have text : (ofFloat x).toList = finite x.abs m e := by
      rw [ofFloat, form, String.toList_ofList]
      rfl
    have same : x.abs = x := by
      show Float.ofModel (.pack x.toModel.unpack.abs) = x
      rw [form, UnpackedFloat.abs, ← form, ofModel_pack_unpack]
    have read := magnitude?_finite form
    rw [text]
    exact ⟨isFloat_finite _ _ _, read.trans (congrArg some same)⟩

end Numeral

end Reckon
