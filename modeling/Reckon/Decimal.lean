import Reckon.Decimal.Digits
import Reckon.Ratio

/-!
Decimal numbers `coefficient · 10 ^ exponent`: how they are read from digits, and the double they
round to. Reading keeps every digit of the coefficient, so rounding happens once, in `toFloat`.
-/

namespace Reckon

/-- The number `coefficient · 10 ^ exponent`. -/
structure Decimal where
  coefficient : Nat
  exponent : Int
deriving DecidableEq

namespace Decimal

/-- An exponent that has grown to this size takes no more digits. -/
def exponentCap : Nat := 0x10000

/-- The exponent a row of ASCII digits stands for: the digits up to the one that reaches the
cap. -/
def cappedOfDigits (digits : List Char) : Nat :=
  digits.foldl (fun n c => if n < exponentCap then withDigit n c else n) 0

/-- What may follow the digits: nothing, or `e` and a capped integer. -/
def exponent? : List Char → Option Int
  | [] => some 0
  | 'e' :: cs | 'E' :: cs => signed? (fun cs => (digits? cs).map cappedOfDigits) cs
  | _ => none

/-- Digits with at most one point, at least one digit, then the exponent if there is one. -/
def read? (cs : List Char) : Option Decimal :=
  let whole := cs.takeWhile Char.isDigit
  let (fraction, rest) := match cs.dropWhile Char.isDigit with
    | '.' :: rest => (rest.takeWhile Char.isDigit, rest.dropWhile Char.isDigit)
    | rest => ([], rest)
  if whole = [] ∧ fraction = [] then none
  else (exponent? rest).map fun e => ⟨ofDigits (whole ++ fraction), e - fraction.length⟩

def toRatio (d : Decimal) : Ratio :=
  ⟨d.coefficient * Nat.pow 10 d.exponent.toNat, Nat.pow 10 (-d.exponent).toNat⟩

/-- No double but infinity is near a number with an exponent above this one. -/
def greatestExponent : Int := 400

/-- No double but zero is near a number whose exponent and binary length add up to less. -/
def leastReach : Int := -1200

/-- The nearest double. Numbers too large or too small for one are told by their exponent, so no
huge power of ten is computed. -/
def toFloat (d : Decimal) : Float :=
  if d.coefficient = 0 ∨ d.exponent + d.coefficient.log2 < leastReach then
    Float.ofModel (.pack (.zero .positive))
  else if greatestExponent < d.exponent then Float.ofModel (.pack (.infinity .positive))
  else d.toRatio.toFloat

end Decimal

end Reckon
