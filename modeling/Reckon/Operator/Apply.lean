import Reckon.EvalError

/-!
What the operators compute. Of two operands the left one is checked first. Arithmetic on two
integers is exact or fails; with a double on either side it is done in doubles. Division is always
done in doubles. Relations order numbers exactly, integers and doubles alike.
-/

namespace Reckon

/-- The number in an operand of `place`. -/
def Value.asNumber (place : Place) (v : Value) : Except EvalError Number :=
  match v.number? with
  | some n => .ok n
  | none => .error (.typeMismatch place .number v.kind)

def Value.asBool (place : Place) (v : Value) : Except EvalError Bool :=
  match v.bool? with
  | some b => .ok b
  | none => .error (.typeMismatch place .bool v.kind)

/-- The word with this value, or the overflow of `operation`. -/
def checked (operation : IntOperation) (n : Int) : Except EvalError Value :=
  match int64? n with
  | some w => .ok (.int w)
  | none => .error (.integerOverflow operation)

namespace RingOp

def onInts : RingOp → Int → Int → Int
  | .add, a, b => a + b
  | .sub, a, b => a - b
  | .mul, a, b => a * b

def onFloats : RingOp → Float → Float → Float
  | .add, a, b => a + b
  | .sub, a, b => a - b
  | .mul, a, b => a * b

def apply (op : RingOp) : Number → Number → Except EvalError Value
  | .int a, .int b => checked (.ring op) (op.onInts a.toInt b.toInt)
  | a, b => .ok (.float (op.onFloats a.toFloat b.toFloat))

end RingOp

/-- The quotient in doubles; neither zero divides. -/
def Number.divide (a b : Number) : Except EvalError Value :=
  if b.toFloat == 0 then .error .divisionByZero else .ok (.float (a.toFloat / b.toFloat))

def LogicOp.apply : LogicOp → Bool → Bool → Bool
  | .and, a, b => a && b
  | .or, a, b => a || b

/-- Whether the relation holds of two numbers in this order; of numbers without an order only
`notEqual` holds. -/
def Relation.holds (op : Relation) (order : Option Ordering) : Bool :=
  match op with
  | .greater => order == some .gt
  | .greaterEqual => order == some .gt || order == some .eq
  | .equal => order == some .eq
  | .lessEqual => order == some .lt || order == some .eq
  | .less => order == some .lt
  | .notEqual => order != some .eq

/-- The value of `left op right`. -/
def BinaryOp.apply (op : BinaryOp) (left right : Value) : Except EvalError Value :=
  match op with
  | .ring r => do
    let a ← left.asNumber (.binary op)
    let b ← right.asNumber (.binary op)
    r.apply a b
  | .divide => do
    let a ← left.asNumber (.binary op)
    let b ← right.asNumber (.binary op)
    a.divide b
  | .logic l => do
    let a ← left.asBool (.binary op)
    let b ← right.asBool (.binary op)
    return .bool (l.apply a b)
  | .relation r => do
    let a ← left.asNumber (.binary op)
    let b ← right.asNumber (.binary op)
    return .bool (r.holds (a.order? b))

/-- The value of `op operand`. -/
def UnaryOp.apply (op : UnaryOp) (operand : Value) : Except EvalError Value :=
  match op with
  | .negate => do
    match ← operand.asNumber (.unary op) with
    | .int n => checked .negate (-n.toInt)
    | .float x => return .float (-x)
  | .not => do
    return .bool (!(← operand.asBool (.unary op)))

/-- One index step. The index must be an integer before `base` must be a list, and a negative
index is out of range. -/
def Value.index (base index : Value) : Except EvalError Value :=
  match index.int?, base.list? with
  | none, _ => .error (.typeMismatch .index .int index.kind)
  | some _, none => .error (.notIndexable base.kind)
  | some i, some items =>
    match if 0 ≤ i.toInt then items[i.toInt.toNat]? else none with
    | some item => .ok item
    | none => .error (.indexOutOfRange i items.length)

end Reckon
