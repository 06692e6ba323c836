import Reckon.Decimal

/-!
The written form of a positive decimal. Numbers from a ten-thousandth up to, not including,
ten quadrillions are written in full with at least one digit on either side of the point; all
others with one digit before the point and an exponent that carries no plus sign.
-/

namespace Reckon
namespace Decimal

/-- The same number without trailing zeros in its coefficient. -/
def trim (d : Decimal) : Decimal :=
  let zeros := ((Nat.toDigits 10 d.coefficient).reverse.takeWhile (· == '0')).length
  ⟨d.coefficient / Nat.pow 10 zeros, d.exponent + zeros⟩

/-- `digits` with the point after the first `point` of them, zeros filling up what is missing. -/
def positional (digits : List Char) (point : Int) : List Char :=
  if point ≤ 0 then
    '0' :: '.' :: (List.replicate (-point).toNat '0' ++ digits)
  else if digits.length ≤ point then
    digits ++ List.replicate (point.toNat - digits.length) '0' ++ ['.', '0']
  else
    digits.take point.toNat ++ '.' :: digits.drop point.toNat

/-- The first digit, the others after a point if there are any, and the exponent. -/
def scientific (digits : List Char) (exponent : Int) : List Char :=
  match digits with
  | [] => []
  | [d] => d :: 'e' :: (toString exponent).toList
  | d :: ds => d :: '.' :: (ds ++ 'e' :: (toString exponent).toList)

/-- A number is written in full when its first digit stands within these powers of ten. -/
def writtenInFull (exponent : Int) : Bool := -4 ≤ exponent && exponent < 16

/-- The written form. -/
def layout (d : Decimal) : List Char :=
  let t := d.trim
  let digits := Nat.toDigits 10 t.coefficient
  let point := t.exponent + digits.length
  if writtenInFull (point - 1) then positional digits point else scientific digits (point - 1)

end Decimal
end Reckon
