import Mathlib
import Reckon.Order

/-!
The forms of doubles. A finite double has a sign, a mantissa of at most 53 bits and an exponent, and
its exponent is as small as the mantissa allows: either the mantissa is full or the exponent is the
least one. Taking a double apart gives such a form, and a form put together and taken apart again is
the same form.
-/

namespace Reckon
namespace Double

open Float.Model (UnpackedFloat Format totalExponent)
open Float.Model.UnpackedFloat

/-- The forms of doubles. -/
inductive Canonical : UnpackedFloat → Prop where
  | notANumber : Canonical .notANumber
  | infinity (s : Sign) : Canonical (.infinity s)
  | zero (s : Sign) : Canonical (.zero s)
  | finite {s : Sign} {mantissa : Nat} {exponent : Int} (pos : 0 < mantissa)
      (fits : mantissa < 2 ^ 53) (low : -1074 ≤ exponent) (high : exponent ≤ 971)
      (full : exponent = -1074 ∨ 2 ^ 52 ≤ mantissa) :
      Canonical (.finite s mantissa exponent pos)

section
variable {s : Sign} {m n : Nat} {e f : Int} {u : UnpackedFloat}

theorem finite_congr {pos : 0 < m} {pos' : 0 < n} (mantissa : m = n) (exponent : e = f) :
    UnpackedFloat.finite s m e pos = .finite s n f pos' := by
  subst mantissa exponent
  rfl

theorem ofBitVec_unpackSign {format : Format} (exponent : BitVec format.exponentBits)
    (mantissa : BitVec format.mantissaBitsWithoutImplicit) :
    Sign.ofBitVec (unpackSign (packComponents format s exponent mantissa)) = s := by
  have bit : unpackSign (packComponents format s exponent mantissa) = s.toBitVec := by
    apply BitVec.eq_of_getLsbD_eq
    intro i lt
    obtain rfl : i = 0 := by omega
    simp [unpackSign, packComponents, BitVec.getLsbD_append, BitVec.getElem_append]
  rw [bit]
  cases s <;> rfl

theorem toNat_implicit (mantissa : BitVec 52) :
    (1#1 ++ mantissa).toNat = 2 ^ 52 + mantissa.toNat := by
  rw [BitVec.toNat_append, ← Nat.shiftLeft_add_eq_or_of_lt mantissa.isLt, Nat.shiftLeft_eq]
  rfl

/-- The form with these three fields. -/
def ofFields (s : Sign) (exponent mantissa : Nat) : UnpackedFloat :=
  if exponent = 2047 then
    if mantissa = 0 then .infinity s else .notANumber
  else if exponent = 0 then
    if h : mantissa = 0 then .zero s else .finite s mantissa (-1074) (Nat.pos_of_ne_zero h)
  else .finite s (2 ^ 52 + mantissa) (exponent - 1075) (Nat.add_pos_left (by decide) _)

theorem canonical_ofFields {exponent mantissa : Nat} (range : exponent < 2 ^ 11)
    (fits : mantissa < 2 ^ 52) : Canonical (ofFields s exponent mantissa) := by
  rw [ofFields]
  split
  · split
    · exact .infinity s
    · exact .notANumber
  · split
    · split
      · exact .zero s
      · exact .finite _ (by omega) (by omega) (by omega) (.inl rfl)
    · exact .finite _ (by omega) (by omega) (by omega) (.inr (by omega))

theorem unpack_eq_ofFields (bits : BitVec 64) :
    UnpackedFloat.unpack .binary64 bits =
      ofFields (Sign.ofBitVec (@unpackSign .binary64 bits))
        (@unpackExponent .binary64 bits).toNat (@unpackMantissa .binary64 bits).toNat := by
  rw [UnpackedFloat.unpack, ofFields]
  refine ite_congr (propext BitVec.toNat_inj.symm) (fun _ => ?_) fun _ => ?_
  · exact ite_congr (propext BitVec.toNat_inj.symm) (fun _ => rfl) fun _ => rfl
  refine ite_congr (propext BitVec.toNat_inj.symm) (fun least => ?_) fun _ => ?_
  · refine dite_congr (propext BitVec.toNat_inj.symm) (fun _ => rfl) fun _ => ?_
    have exponent : @unpackExponent .binary64 bits = 0#11 := BitVec.eq_of_toNat_eq least
    exact finite_congr rfl (by rw [exponent]; rfl)
  · exact finite_congr (toNat_implicit _) rfl

/-- Taking a double apart gives one of the forms. -/
theorem canonical_unpack (x : Float.Model) : Canonical x.unpack := by
  rw [Float.Model.unpack, unpack_eq_ofFields]
  exact canonical_ofFields (BitVec.isLt _) (BitVec.isLt _)

theorem unpack_packComponents (exponent : BitVec 11) (mantissa : BitVec 52) :
    UnpackedFloat.unpack .binary64 (packComponents .binary64 s exponent mantissa) =
      ofFields s exponent.toNat mantissa.toNat := by
  rw [unpack_eq_ofFields, ofBitVec_unpackSign, unpackExponent_packComponents,
    unpackMantissa_packComponents]

theorem unpack_pack_finite (pos : 0 < m) (fits : m < 2 ^ 53) (low : -1074 ≤ e) (high : e ≤ 971)
    (full : e = -1074 ∨ 2 ^ 52 ≤ m) :
    (Float.Model.pack (.finite s m e pos)).unpack = .finite s m e pos := by
  have biased : (e + Format.binary64.exponentBias +
      Format.binary64.mantissaBitsWithoutImplicit).toNat = (e + 1075).toNat := by
    rw [Int.add_assoc]
    rfl
  change UnpackedFloat.unpack .binary64 (UnpackedFloat.pack .binary64 (.finite s m e pos)) = _
  rw [UnpackedFloat.pack.eq_def]
  dsimp only
  rw [biased, if_neg (show ¬2 ^ 11 ≤ (e + 1075).toNat + 1 by omega)]
  split
  next normal =>
    have log : m.log2 = 52 := Nat.succ.inj normal
    have full : 2 ^ 52 ≤ m := (Nat.le_log2 (Nat.ne_of_gt pos)).1 (Nat.le_of_eq log.symm)
    have implicit : m % 2 ^ 52 = m - 2 ^ 52 := by omega
    rw [unpack_packComponents, BitVec.toNat_ofNat, BitVec.toNat_ofNat, implicit,
      Nat.mod_eq_of_lt (show (e + 1075).toNat < 2 ^ 11 by omega), ofFields, if_neg (by omega),
      if_neg (by omega)]
    exact finite_congr (by omega) (by omega)
  next subnormal =>
    have small : m < 2 ^ 52 := by
      refine (Nat.log2_lt (Nat.ne_of_gt pos)).1 ?_
      have short : m.log2 < 53 := (Nat.log2_lt (Nat.ne_of_gt pos)).2 fits
      have shorter : m.log2 ≠ 52 := fun eq => subnormal (by rw [eq]; rfl)
      omega
    obtain rfl : e = -1074 := full.resolve_right (Nat.not_le.2 small)
    rw [unpack_packComponents, BitVec.toNat_ofNat, BitVec.toNat_ofNat, Nat.mod_eq_of_lt small,
      ofFields, if_neg nofun, if_pos rfl, dif_neg (Nat.ne_of_gt pos)]

theorem unpack_pack (h : Canonical u) : (Float.Model.pack u).unpack = u := by
  cases h with
  | notANumber => rfl
  | infinity s => cases s <;> rfl
  | zero s => cases s <;> rfl
  | finite pos fits low high full => exact unpack_pack_finite pos fits low high full

theorem append_fields (bits : BitVec 64) :
    @unpackSign .binary64 bits ++ @unpackExponent .binary64 bits ++
      @unpackMantissa .binary64 bits = bits := by
  change bits.extractLsb' 63 1 ++ bits.extractLsb' 52 11 ++ bits.extractLsb' 0 52 = bits
  ext i h
  simp only [BitVec.getElem_append, BitVec.getElem_extractLsb']
  grind

theorem packComponents_unpack (bits : BitVec 64) :
    packComponents .binary64 (Sign.ofBitVec (@unpackSign .binary64 bits))
      (@unpackExponent .binary64 bits) (@unpackMantissa .binary64 bits) = bits := by
  have sign :
      (Sign.ofBitVec (@unpackSign .binary64 bits)).toBitVec = @unpackSign .binary64 bits := by
    generalize @unpackSign .binary64 bits = b
    revert b
    decide
  rw [packComponents, sign]
  exact append_fields bits

theorem pack_subnormal {mantissa : BitVec 52} (pos : 0 < mantissa.toNat) :
    UnpackedFloat.pack .binary64 (.finite s mantissa.toNat (-1074) pos) =
      packComponents .binary64 s 0#11 mantissa := by
  have short : mantissa.toNat.log2 < 52 := (Nat.log2_lt (Nat.ne_of_gt pos)).2 mantissa.isLt
  have notFull : ¬mantissa.toNat.log2 + 1 = Format.binary64.mantissaBits := fun full =>
    Nat.ne_of_lt short (Nat.succ.inj full)
  rw [UnpackedFloat.pack.eq_def]
  dsimp only
  rw [if_neg (by decide), if_neg notFull]
  exact congrArg (packComponents .binary64 s 0#11) (by rw [BitVec.ofNat_toNat, BitVec.setWidth_eq])

theorem pack_normal {exponent : BitVec 11} {mantissa : BitVec 52} (high : exponent.toNat ≠ 2047)
    (pos : 0 < 2 ^ 52 + mantissa.toNat) :
    UnpackedFloat.pack .binary64
        (.finite s (2 ^ 52 + mantissa.toNat) (exponent.toNat - 1075) pos) =
      packComponents .binary64 s exponent mantissa := by
  have range := exponent.isLt
  have fits := mantissa.isLt
  have log : (2 ^ 52 + mantissa.toNat).log2 = 52 := by
    rw [Nat.log2_eq_iff (Nat.ne_of_gt pos)]
    omega
  have biased : ((exponent.toNat : Int) - 1075 + Format.binary64.exponentBias +
      Format.binary64.mantissaBitsWithoutImplicit).toNat = exponent.toNat := by
    change ((exponent.toNat : Int) - 1075 + 1023 + 52).toNat = exponent.toNat
    omega
  have implicit : BitVec.ofNat 52 (2 ^ 52 + mantissa.toNat) = mantissa := by
    refine BitVec.eq_of_toNat_eq ?_
    rw [BitVec.toNat_ofNat]
    omega
  have same : BitVec.ofNat 11 exponent.toNat = exponent := by
    rw [BitVec.ofNat_toNat, BitVec.setWidth_eq]
  rw [UnpackedFloat.pack.eq_def]
  dsimp only
  rw [biased, if_neg (show ¬2 ^ 11 ≤ exponent.toNat + 1 by omega), if_pos (by rw [log]; rfl)]
  exact congrArg₂ (packComponents .binary64 s) same implicit

/-- Fields are put together as they were, unless they are those of what is not a number. -/
theorem pack_ofFields {exponent : BitVec 11} {mantissa : BitVec 52}
    (number : exponent.toNat = 2047 → mantissa.toNat = 0) :
    UnpackedFloat.pack .binary64 (ofFields s exponent.toNat mantissa.toNat) =
      packComponents .binary64 s exponent mantissa := by
  have zero (h : mantissa.toNat = 0) : mantissa = 0#52 := BitVec.eq_of_toNat_eq h
  have least (h : exponent.toNat = 0) : exponent = 0#11 := BitVec.eq_of_toNat_eq h
  have most (h : exponent.toNat = 2047) : exponent = -1#11 := BitVec.eq_of_toNat_eq h
  rw [ofFields]
  split
  next top =>
    rw [if_pos (number top), zero (number top), most top]
    rfl
  next high =>
    split
    next low =>
      split
      next none =>
        rw [zero none, least low]
        rfl
      next some => rw [pack_subnormal, least low]
    next => exact pack_normal high _

/-- A double put together again is the same double. -/
theorem pack_unpack (x : Float.Model) : Float.Model.pack x.unpack = x := by
  have bits : UnpackedFloat.pack .binary64 x.unpack = x.toBits.toBitVec := by
    rw [Float.Model.unpack, unpack_eq_ofFields]
    by_cases number : (@unpackExponent .binary64 x.toBits.toBitVec).toNat = 2047 →
        (@unpackMantissa .binary64 x.toBits.toBitVec).toNat = 0
    · rw [pack_ofFields number, packComponents_unpack]
    · -- There is only one pattern of bits for what is not a number.
      obtain ⟨top, some⟩ := Classical.not_imp.1 number
      rw [ofFields, if_pos top, if_neg some]
      refine (x.valid.eq_packedNaN (BitVec.eq_of_toNat_eq top) fun zero => some ?_).symm
      rw [zero]
      rfl
  obtain ⟨toBits, valid⟩ := x
  simp only [Float.Model.pack, bits]

/-- The sign of a form; what is not a number has none. -/
def sign? : UnpackedFloat → Option Sign
  | .notANumber => none
  | .infinity s | .zero s | .finite s _ _ _ => some s

theorem sign?_ofFields {exponent mantissa : Nat} (number : exponent = 2047 → mantissa = 0) :
    sign? (ofFields s exponent mantissa) = some s := by
  rw [ofFields]
  split
  next top => rw [if_pos (number top), sign?]
  next =>
    split
    next => split <;> rfl
    next => rfl

/-- Putting a form together keeps its sign, even where it is too large for a double. -/
theorem sign?_pack (u : UnpackedFloat) : sign? (Float.Model.pack u).unpack = sign? u := by
  change sign? (UnpackedFloat.unpack .binary64 (UnpackedFloat.pack .binary64 u)) = sign? u
  cases u with
  | notANumber => rfl
  | infinity s => cases s <;> rfl
  | zero s => cases s <;> rfl
  | finite s m e pos =>
    rw [UnpackedFloat.pack.eq_def]
    dsimp only
    split
    next => cases s <;> rfl
    next fits =>
      split
      next =>
        rw [unpack_packComponents, sign?_ofFields, sign?]
        intro top
        rw [BitVec.toNat_ofNat] at top
        change ¬2 ^ 11 ≤ _ + 1 at fits
        omega
      next =>
        rw [unpack_packComponents, sign?_ofFields, sign?]
        nofun

theorem shiftToTargetExponent_self {accuracy : Accuracy}
    (target : Format.binary64.targetExponent (totalExponent m e) = e) :
    shiftToTargetExponent .binary64 m e accuracy =
      (ExtendedMantissa.ofMantissaAndAccuracy m accuracy, e) := by
  rw [shiftToTargetExponent, target, shiftToExponent, Int.sub_self]
  exact Prod.ext rfl (Int.add_zero e)

theorem roundWithAccuracy_self (pos : 0 < m)
    (target : Format.binary64.targetExponent (totalExponent m e) = e) :
    roundWithAccuracy .binary64 s m e .exact = .finite s m e pos := by
  have same : (ExtendedMantissa.ofMantissaAndAccuracy m .exact).roundedMantissa = m := rfl
  rw [roundWithAccuracy, shiftToTargetExponent_self target]
  dsimp only
  rw [same, shiftToTargetExponent_self target]
  exact dif_neg (Nat.ne_of_gt pos)

theorem log2_shiftLeft (pos : 0 < m) (places : Nat) : (m <<< places).log2 = m.log2 + places := by
  have ne : m ≠ 0 := Nat.ne_of_gt pos
  have low : 2 ^ m.log2 * 2 ^ places ≤ m * 2 ^ places :=
    Nat.mul_le_mul_right _ (Nat.log2_self_le ne)
  have high : m * 2 ^ places < 2 ^ (m.log2 + 1) * 2 ^ places :=
    Nat.mul_lt_mul_of_pos_right Nat.lt_log2_self (Nat.two_pow_pos places)
  rw [Nat.shiftLeft_eq, Nat.log2_eq_iff (Nat.ne_of_gt (Nat.mul_pos pos (Nat.two_pow_pos places)))]
  rw [← Nat.pow_add] at low high
  exact ⟨low, by rwa [Nat.add_right_comm] at high⟩

/-- A mantissa that fits is not rounded, only shifted up. -/
theorem round_eq (pos : 0 < m) (fits : m < 2 ^ 53) (low : -1074 ≤ e) :
    ∃ (places : Nat) (pos' : 0 < m <<< places),
      UnpackedFloat.round .binary64 s m e = .finite s (m <<< places) (e - places) pos' ∧
      m <<< places < 2 ^ 53 ∧ -1074 ≤ e - places ∧
      (e - places = -1074 ∨ 2 ^ 52 ≤ m <<< places) := by
  have short : m.log2 < 53 := (Nat.log2_lt (Nat.ne_of_gt pos)).2 fits
  have target (n : Nat) (f : Int) : Format.binary64.targetExponent (totalExponent n f) =
      max (n.log2 + 1 + f - 53) (-1074) := rfl
  have pos' (places : Nat) : 0 < m <<< places := by
    rw [Nat.shiftLeft_eq]
    exact Nat.mul_pos pos (Nat.two_pow_pos places)
  refine ⟨(e - max (m.log2 + 1 + e - 53) (-1074)).toNat, pos' _, ?_⟩
  rw [UnpackedFloat.round, target]
  generalize shift : (e - max (m.log2 + 1 + e - 53) (-1074)).toNat = places
  have log := log2_shiftLeft pos places
  refine ⟨?_, ?_, by omega, ?_⟩
  · rw [decreaseExponent, shift]
    refine roundWithAccuracy_self (pos' places) ?_
    rw [target, log]
    omega
  · exact (Nat.log2_lt (Nat.ne_of_gt (pos' places))).1 (by omega)
  · rw [← Nat.le_log2 (Nat.ne_of_gt (pos' places))]
    omega

end

end Double
end Reckon
