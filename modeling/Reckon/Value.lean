import Reckon.Numeral
import Reckon.Order

/-!
The values programs compute with. Integers are 64-bit words and kept apart from doubles; lists
only come from outside; `void` is the result of a program without statements.
-/

namespace Reckon

inductive Value where
  | int (n : Int64)
  | float (x : Float)
  | bool (b : Bool)
  | list (items : List Value)
  | void

/-- What a value is, as error messages name it. -/
inductive Kind where
  | int
  | float
  | bool
  | list
  | void
deriving DecidableEq

def Kind.name : Kind → String
  | .int => "int"
  | .float => "float"
  | .bool => "bool"
  | .list => "list"
  | .void => "None"

/-- An integer or a double. -/
inductive Number where
  | int (n : Int64)
  | float (x : Float)

namespace Number

/-- The number as a double; an integer becomes the nearest one. -/
def toFloat : Number → Float
  | .int n => Float.ofModel (.ofInt n.toInt)
  | .float x => x

/-- The order of two numbers; there is none if either is not a number. -/
def order? : Number → Number → Option Ordering
  | .int a, .int b => some (compare a.toInt b.toInt)
  | .int a, .float y => orderMixed? a y
  | .float x, .int b => (orderMixed? b x).map Ordering.swap
  | .float x, .float y => Double.order? x y

end Number

namespace Value

def kind : Value → Kind
  | .int _ => .int
  | .float _ => .float
  | .bool _ => .bool
  | .list _ => .list
  | .void => .void

def int? : Value → Option Int64
  | .int n => some n
  | _ => none

def float? : Value → Option Float
  | .float x => some x
  | _ => none

def bool? : Value → Option Bool
  | .bool b => some b
  | _ => none

def list? : Value → Option (List Value)
  | .list items => some items
  | _ => none

def number? : Value → Option Number
  | .int n => some (.int n)
  | .float x => some (.float x)
  | _ => none

def isNumber (v : Value) : Bool := v.number?.isSome

mutual

/-- Same kind and same content, doubles compared as numbers: the two zeros are equal, and what is
not a number differs from itself. -/
def beq : Value → Value → Bool
  | .int a, .int b => a == b
  | .float a, .float b => a == b
  | .bool a, .bool b => a == b
  | .list as, .list bs => beqAll as bs
  | .void, .void => true
  | _, _ => false

def beqAll : List Value → List Value → Bool
  | [], [] => true
  | a :: as, b :: bs => beq a b && beqAll as bs
  | _, _ => false

end

instance : BEq Value := ⟨beq⟩

mutual

/-- The pieces of the written form in front of `rest`. -/
def pieces : Value → List String → List String
  | .int n, rest => Numeral.ofInt n :: rest
  | .float x, rest => Numeral.ofFloat x :: rest
  | .bool true, rest => "True" :: rest
  | .bool false, rest => "False" :: rest
  | .void, rest => "None" :: rest
  | .list [], rest => "[]" :: rest
  | .list (v :: vs), rest => "[" :: pieces v (itemPieces vs ("]" :: rest))

/-- Every item with the comma before it. -/
def itemPieces : List Value → List String → List String
  | [], rest => rest
  | v :: vs, rest => ", " :: pieces v (itemPieces vs rest)

end

/-- The written form: `True` and `False`, items in brackets, `None` for no value. -/
def text (v : Value) : String := String.join (v.pieces [])

theorem text_int (n : Int64) : (Value.int n).text = Numeral.ofInt n := by
  simp [text, pieces]

theorem text_float (x : Float) : (Value.float x).text = Numeral.ofFloat x := by
  simp [text, pieces]

end Value

end Reckon
