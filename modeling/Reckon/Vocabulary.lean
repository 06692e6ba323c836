import Reckon.Grammar
import Reckon.NameMap

/-!
What the names of a tree mean. A vocabulary maps names of rules and terminals to constructs; a
name it does not hold is transparent. The standard vocabulary covers the grammar of this library.
-/

namespace Reckon

/-- What a node of a tree turns into. -/
inductive Construct where
  /-- Every part is a statement. -/
  | program
  /-- A terminal with the name, then the value. -/
  | assignment
  /-- A terminal with the name, then the indices. -/
  | variable
  | int
  | float
  | bool
  /-- Its only part stands for it. -/
  | group
  | unary (op : UnaryOp)
  | binary (op : BinaryOp)
deriving DecidableEq

abbrev Vocabulary := NameMap Construct

namespace Vocabulary

open Grammar

def relations : List Relation :=
  [.greater, .greaterEqual, .equal, .lessEqual, .less, .notEqual]

/-- The meaning of the grammar's own names. -/
def standard : Vocabulary := NameMap.ofList (
  [(Rule.block.name, .program),
    (Rule.assignVar.name, .assignment),
    (Rule.variable.name, .variable),
    (Rule.bracketed.name, .group),
    (Terminal.int.name, .int),
    (Terminal.signedFloat.name, .float),
    (Terminal.true.name, .bool),
    (Terminal.false.name, .bool),
    (Rule.negAtom.name, .unary .negate),
    (Rule.notOp.name, .unary .not),
    (Rule.addition.name, .binary (.ring .add)),
    (Rule.subtraction.name, .binary (.ring .sub)),
    (Rule.multiplication.name, .binary (.ring .mul)),
    (Rule.division.name, .binary .divide),
    (Rule.andOp.name, .binary (.logic .and)),
    (Rule.orOp.name, .binary (.logic .or))]
  ++ relations.map fun op => ((Rule.relation op).name, .binary (.relation op)))

end Vocabulary

end Reckon
