/-!
The order of numbers, integers and doubles alike, with no integer rounded to a double. A double is
compared with an integer by its whole part, and by its fraction where the whole part is the integer.
-/

namespace Reckon

namespace Double

open Float.Model (UnpackedFloat)

def zero : Float := .ofModel (.pack (.zero .positive))

/-- `2 ^ 63`, the least double beyond the integers. -/
def bound : Float := .ofModel (.ofInt 9223372036854775808)

/-- The order of two doubles; there is none if either is not a number. The two zeros are equal. -/
def order? (x y : Float) : Option Ordering := x.toModel.compare y.toModel

/-- What stands before the point, with the sign of the whole. -/
def trunc (x : Float) : Float :=
  match x.toModel.unpack with
  | .finite s mantissa exponent _ =>
    let places := (-exponent).toNat
    let whole := mantissa >>> places <<< places
    if h : whole = 0 then .ofModel (.pack (.zero s))
    else .ofModel (.pack (.finite s whole exponent (Nat.pos_of_ne_zero h)))
  | _ => x

/-- The whole part as a word, the nearest one where there is none. -/
def toInt64 (x : Float) : Int64 := x.toModel.toInt64

end Double

/-- The order of an integer and a double; there is none if the double is not a number. -/
def orderMixed? (n : Int64) (x : Float) : Option Ordering :=
  if x.isNaN then none
  else if Double.bound ≤ x then some .lt
  else if x < -Double.bound then some .gt
  else
    let whole := Double.trunc x
    match compare n.toInt (Double.toInt64 whole).toInt with
    | .eq => Double.order? Double.zero (x - whole)
    | unequal => some unequal

end Reckon
