/-!
The operators of the language, grouped by what their operands must be.
-/

namespace Reckon

/-- Stays within the integers. -/
inductive RingOp where
  | add
  | sub
  | mul
deriving DecidableEq

inductive LogicOp where
  | and
  | or
deriving DecidableEq

inductive Relation where
  | greater
  | greaterEqual
  | equal
  | lessEqual
  | less
  | notEqual
deriving DecidableEq

inductive BinaryOp where
  | ring (op : RingOp)
  | divide
  | logic (op : LogicOp)
  | relation (op : Relation)
deriving DecidableEq

inductive UnaryOp where
  | negate
  | not
deriving DecidableEq

def RingOp.symbol : RingOp → String
  | .add => "+"
  | .sub => "-"
  | .mul => "*"

def LogicOp.symbol : LogicOp → String
  | .and => "and"
  | .or => "or"

def Relation.symbol : Relation → String
  | .greater => ">"
  | .greaterEqual => ">="
  | .equal => "=="
  | .lessEqual => "<="
  | .less => "<"
  | .notEqual => "!="

/-- The operator as it stands in source text. -/
def BinaryOp.symbol : BinaryOp → String
  | .ring op => op.symbol
  | .divide => "/"
  | .logic op => op.symbol
  | .relation op => op.symbol

def UnaryOp.symbol : UnaryOp → String
  | .negate => "-"
  | .not => "not"

def BinaryOp.all : List BinaryOp :=
  [.ring .add, .ring .sub, .ring .mul, .divide, .logic .and, .logic .or, .relation .greater,
    .relation .greaterEqual, .relation .equal, .relation .lessEqual, .relation .less,
    .relation .notEqual]

def UnaryOp.all : List UnaryOp := [.negate, .not]

def BinaryOp.ofSymbol? (symbol : String) : Option BinaryOp :=
  BinaryOp.all.find? (·.symbol == symbol)

def UnaryOp.ofSymbol? (symbol : String) : Option UnaryOp :=
  UnaryOp.all.find? (·.symbol == symbol)

theorem BinaryOp.mem_all (op : BinaryOp) : op ∈ BinaryOp.all := by
  match op with
  | .ring op => cases op <;> decide
  | .divide => decide
  | .logic op => cases op <;> decide
  | .relation op => cases op <;> decide

end Reckon
