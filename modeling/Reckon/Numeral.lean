import Reckon.Decimal.Layout
import Reckon.Decimal.Shortest

/-!
The written forms of numbers: 64-bit integers in decimal digits, and doubles as the shortest
decimal that reads back as the same double. What `ofFloat` writes of a finite double is what
`float?` reads as that double.
-/

namespace Reckon

/-- The word with the value `n`, if there is one. -/
def int64? (n : Int) : Option Int64 :=
  if Int64.minValue.toInt ≤ n ∧ n ≤ Int64.maxValue.toInt then some (Int64.ofInt n) else none

namespace Numeral

open Float.Model (UnpackedFloat)

def ofInt (n : Int64) : String := toString n.toInt

/-- An integer within 64 bits: digits, perhaps with a sign. -/
def int? (text : String) : Option Int64 := (Decimal.integer? text.toList).bind int64?

/-- A count within 64 bits: digits, perhaps with a plus sign. -/
def count? (text : String) : Option Nat :=
  let digits := match text.toList with
    | '+' :: cs => cs
    | cs => cs
  (Decimal.natural? digits).bind fun n => if n < UInt64.size then some n else none

/-- Infinity or no number, spelled in letters of either case; else a decimal. -/
def magnitude? (cs : List Char) : Option Float :=
  let word := String.ofList (cs.map Char.toLower)
  if word = "inf" ∨ word = "infinity" then some (Float.ofModel (.pack (.infinity .positive)))
  else if word = "nan" then some (Float.ofModel (.pack .notANumber))
  else (Decimal.read? cs).map Decimal.toFloat

/-- A magnitude that may have a sign. -/
def float? (text : String) : Option Float :=
  match text.toList with
  | '-' :: cs => (magnitude? cs).map Float.neg
  | '+' :: cs => magnitude? cs
  | cs => magnitude? cs

def sign : UnpackedFloat.Sign → List Char
  | .negative => ['-']
  | .positive => []

/-- The layout of the shortest decimal that reads back as `x`, for the finite magnitude
`mantissa · 2 ^ exponent` of `x`. -/
def finite (x : Float) (mantissa : Nat) (exponent : Int) : List Char :=
  (Decimal.shortest mantissa exponent fun d => decide (magnitude? d.layout = some x)).layout

/-- The written form of a double. -/
def ofFloat (x : Float) : String :=
  match x.toModel.unpack with
  | .notANumber => "NaN"
  | .infinity s => String.ofList (sign s ++ "inf".toList)
  | .zero s => String.ofList (sign s ++ "0.0".toList)
  | .finite s mantissa exponent _ => String.ofList (sign s ++ finite x.abs mantissa exponent)

end Numeral

end Reckon
