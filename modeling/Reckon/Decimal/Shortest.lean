import Reckon.Decimal

/-!
The shortest decimal that stands for a given binary number. For one digit, then two, and so on,
the two decimals next to the number are tried, the nearer first; the first one that is accepted
is the answer. The exact decimal expansion closes the search, so an acceptance test that holds of
the number itself is met in any case.
-/

namespace Reckon
namespace Decimal

/-- The power of ten of the first digit. -/
def leadingPlace (r : Ratio) : Int :=
  if r.den ≤ r.num then
    (Nat.toDigits 10 (r.num / r.den)).length - 1
  else
    -((Nat.toDigits 10 ((r.den - 1) / r.num)).length : Int)

/-- The decimals on the grid of `10 ^ place` next to the number, the nearer first and of two
equally near the larger; only one if the number is on the grid. -/
def neighbours (r : Ratio) (place : Int) : List Decimal :=
  let scaled := r.unscale 10 place
  let below : Decimal := ⟨scaled.num / scaled.den, place⟩
  let above : Decimal := ⟨scaled.num / scaled.den + 1, place⟩
  let excess := scaled.num % scaled.den
  if excess = 0 then [below]
  else if 2 * excess < scaled.den then [below, above]
  else [above, below]

/-- All digits of `mantissa · 2 ^ exponent`. -/
def exact (mantissa : Nat) (exponent : Int) : Decimal :=
  if 0 ≤ exponent then ⟨mantissa * Nat.pow 2 exponent.toNat, 0⟩
  else ⟨mantissa * Nat.pow 5 (-exponent).toNat, exponent⟩

/-- Seventeen digits tell any two doubles apart. -/
def mostDigits : Nat := 17

/-- The decimal with the fewest digits next to `mantissa · 2 ^ exponent` that is accepted. -/
def shortest (mantissa : Nat) (exponent : Int) (accepts : Decimal → Bool) : Decimal :=
  let r := Ratio.ofBinary mantissa exponent
  let top := leadingPlace r
  let found := (List.range mostDigits).findSome? fun (n : Nat) =>
    (neighbours r (top - n)).find? accepts
  found.getD (exact mantissa exponent)

theorem accepts_shortest {mantissa : Nat} {exponent : Int} {accepts : Decimal → Bool}
    (h : accepts (exact mantissa exponent)) : accepts (shortest mantissa exponent accepts) := by
  unfold shortest
  simp only
  cases found : (List.range mostDigits).findSome? fun (n : Nat) =>
    (neighbours (.ofBinary mantissa exponent)
      (leadingPlace (.ofBinary mantissa exponent) - n)).find? accepts with
  | none => simpa using h
  | some d =>
    obtain ⟨n, _, hit⟩ := List.exists_of_findSome?_eq_some found
    simpa using List.find?_some hit

end Decimal
end Reckon
