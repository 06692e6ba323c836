import Reckon.Operator
import Reckon.Value

/-!
Why a program fails while it runs, and the wording of each cause.
-/

namespace Reckon

/-- What an operand had to be. -/
inductive Expected where
  | number
  | bool
  | int
deriving DecidableEq

def Expected.name : Expected → String
  | .number => "number"
  | .bool => "bool"
  | .int => "int"

/-- The construct an operand belongs to. -/
inductive Place where
  | unary (op : UnaryOp)
  | binary (op : BinaryOp)
  | index
deriving DecidableEq

def Place.symbol : Place → String
  | .unary op => op.symbol
  | .binary op => op.symbol
  | .index => "[]"

/-- The integer operation whose result is out of range. -/
inductive IntOperation where
  | ring (op : RingOp)
  | negate
deriving DecidableEq

def IntOperation.name : IntOperation → String
  | .ring .add => "addition"
  | .ring .sub => "subtraction"
  | .ring .mul => "multiplication"
  | .negate => "negation"

inductive EvalError where
  | undefinedVariable (name : String)
  | indexOutOfRange (index : Int64) (length : Nat)
  | notIndexable (kind : Kind)
  | typeMismatch (place : Place) (expected : Expected) (found : Kind)
  | divisionByZero
  | integerOverflow (operation : IntOperation)
  | depthExceeded (limit : Nat)
deriving DecidableEq

def EvalError.message : EvalError → String
  | .undefinedVariable name => "undefined variable: " ++ name
  | .indexOutOfRange index length =>
    "index " ++ Numeral.ofInt index ++ " out of range for sequence of length " ++ toString length
  | .notIndexable kind => "cannot index into a value of type " ++ kind.name
  | .typeMismatch place expected found =>
    "type mismatch in `" ++ place.symbol ++ "`: expected " ++ expected.name ++ ", got " ++ found.name
  | .divisionByZero => "division by zero"
  | .integerOverflow operation => "integer overflow in " ++ operation.name
  | .depthExceeded limit => "evaluation nested too deeply (limit " ++ toString limit ++ ")"

end Reckon
