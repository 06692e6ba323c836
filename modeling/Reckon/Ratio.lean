/-!
Fractions of natural numbers and the double nearest to one. Of two equally near doubles the one
with the even mantissa is taken; beyond the largest double the nearest is infinity.
-/

namespace Reckon

/-- The fraction `num / den`. -/
structure Ratio where
  num : Nat
  den : Nat
deriving DecidableEq

namespace Ratio

open Float.Model (UnpackedFloat)

/-- The fraction `mantissa · 2 ^ exponent`. -/
def ofBinary (mantissa : Nat) (exponent : Int) : Ratio :=
  ⟨mantissa * Nat.pow 2 exponent.toNat, Nat.pow 2 (-exponent).toNat⟩

/-- The fraction divided by `base ^ exponent`. -/
def unscale (r : Ratio) (base : Nat) (exponent : Int) : Ratio :=
  ⟨r.num * Nat.pow base (-exponent).toNat, r.den * Nat.pow base exponent.toNat⟩

/-- The nearest natural number, of two equally near the even one. -/
def round (r : Ratio) : Nat :=
  let quotient := r.num / r.den
  let remainder := r.num % r.den
  if 2 * remainder < r.den ∨ (2 * remainder = r.den ∧ quotient % 2 = 0) then quotient
  else quotient + 1

/-- The bits of a mantissa. -/
def mantissaBits : Nat := 53

/-- The exponent of the smallest double. -/
def leastExponent : Int := -1074

/-- The exponent at which the fraction has as many mantissa bits as a double holds; fewer below
the least exponent. -/
def exponent (r : Ratio) : Int :=
  let top : Int := r.num.log2 - r.den.log2
  let scaled := r.unscale 2 top
  max (if scaled.num < scaled.den then top - mantissaBits else top - mantissaBits + 1) leastExponent

/-- The mantissa and exponent of a positive double or of zero. -/
def unpacked (mantissa : Nat) (exponent : Int) : UnpackedFloat :=
  if h : mantissa = 0 then .zero .positive
  else .finite .positive mantissa exponent (Nat.pos_of_ne_zero h)

/-- The nearest double. -/
def toFloat (r : Ratio) : Float :=
  let e := r.exponent
  let mantissa := (r.unscale 2 e).round
  if mantissa = Nat.pow 2 mantissaBits then
    Float.ofModel (.pack (unpacked (Nat.pow 2 (mantissaBits - 1)) (e + 1)))
  else
    Float.ofModel (.pack (unpacked mantissa e))

end Ratio

end Reckon
