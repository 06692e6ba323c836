import Reckon.Operator
import Reckon.Value

/-!
Programs in their executable form. Names, constants and operators are all in the tree, so running
it never looks back at source text.
-/

namespace Reckon

inductive Literal where
  | int (n : Int64)
  | float (x : Float)
  | bool (b : Bool)

namespace Literal

def value : Literal → Value
  | .int n => .int n
  | .float x => .float x
  | .bool b => .bool b

end Literal

inductive Expr where
  /-- Statements in order; the value is that of the last one. -/
  | program (statements : List Expr)
  | assign (name : String) (value : Expr)
  /-- A variable and the indices applied to it from left to right. -/
  | variable (name : String) (indices : List Expr)
  | literal (literal : Literal)
  | unary (op : UnaryOp) (operand : Expr)
  | binary (op : BinaryOp) (left right : Expr)

namespace Expr

mutual

/-- The same tree, constants compared as values are. -/
def beq : Expr → Expr → Bool
  | .program as, .program bs => beqAll as bs
  | .assign n a, .assign m b => n == m && beq a b
  | .variable n as, .variable m bs => n == m && beqAll as bs
  | .literal a, .literal b => a.value == b.value
  | .unary o a, .unary p b => o == p && beq a b
  | .binary o a c, .binary p b d => o == p && beq a b && beq c d
  | _, _ => false

def beqAll : List Expr → List Expr → Bool
  | [], [] => true
  | a :: as, b :: bs => beq a b && beqAll as bs
  | _, _ => false

end

instance : BEq Expr := ⟨beq⟩

/-- The parts one level below. -/
def children : Expr → List Expr
  | .program statements => statements
  | .assign _ value => [value]
  | .variable _ indices => indices
  | .literal _ => []
  | .unary _ operand => [operand]
  | .binary _ left right => [left, right]

mutual

/-- The number of nodes. -/
def size : Expr → Nat
  | .program statements => 1 + sizeAll statements
  | .assign _ value => 1 + size value
  | .variable _ indices => 1 + sizeAll indices
  | .literal _ => 1
  | .unary _ operand => 1 + size operand
  | .binary _ left right => 1 + size left + size right

def sizeAll : List Expr → Nat
  | [] => 0
  | e :: es => size e + sizeAll es

end

theorem size_eq (e : Expr) : e.size = 1 + sizeAll e.children := by
  cases e <;> simp [size, children, sizeAll, Nat.add_assoc]

theorem sizeAll_append (xs ys : List Expr) : sizeAll (xs ++ ys) = sizeAll xs + sizeAll ys := by
  induction xs with
  | nil => simp [sizeAll]
  | cons x xs ih => simp [sizeAll, ih, Nat.add_assoc]

theorem sizeAll_reverse (xs : List Expr) : sizeAll xs.reverse = sizeAll xs := by
  induction xs with
  | nil => rfl
  | cons x xs ih =>
    rw [List.reverse_cons, sizeAll_append, ih, sizeAll, sizeAll, sizeAll, Nat.add_comm, Nat.add_zero]

/-- `counted` and the nodes on a stack, which has its top in front. The parts of a node are pushed
from left to right, so the last one is on top. A tree of any depth needs no deep recursion. -/
def countPending (counted : Nat) : List Expr → Nat
  | [] => counted
  | e :: pending => countPending (counted + 1) (e.children.reverse ++ pending)
termination_by pending => sizeAll pending
decreasing_by
  rw [sizeAll_append, sizeAll_reverse, sizeAll, size_eq]
  omega

/-- The number of nodes, counted without recursion into the tree. -/
def count (e : Expr) : Nat := countPending 0 [e]

theorem countPending_eq (counted : Nat) (pending : List Expr) :
    countPending counted pending = counted + sizeAll pending := by
  fun_induction countPending counted pending with
  | case1 counted => rfl
  | case2 counted e pending ih =>
    rw [ih, sizeAll_append, sizeAll_reverse, sizeAll, size_eq]
    omega

theorem count_eq_size (e : Expr) : e.count = e.size := by
  rw [count, countPending_eq, sizeAll, sizeAll, Nat.zero_add, Nat.add_zero]

mutual

/-- The pieces of the written form in front of `rest`. -/
def pieces : Expr → List String → List String
  | .program statements, rest => "(program" :: statementPieces statements (")" :: rest)
  | .assign name value, rest => "(= " :: name :: " " :: pieces value (")" :: rest)
  | .variable name indices, rest => name :: indexPieces indices rest
  | .literal l, rest => l.value.text :: rest
  | .unary op operand, rest => "(" :: op.symbol :: " " :: pieces operand (")" :: rest)
  | .binary op left right, rest =>
    "(" :: op.symbol :: " " :: pieces left (" " :: pieces right (")" :: rest))

/-- Every statement with the space before it. -/
def statementPieces : List Expr → List String → List String
  | [], rest => rest
  | e :: es, rest => " " :: pieces e (statementPieces es rest)

/-- Every index in its brackets. -/
def indexPieces : List Expr → List String → List String
  | [], rest => rest
  | e :: es, rest => "[" :: pieces e ("]" :: indexPieces es rest)

end

/-- The written form, operators first: `(program (= x 3) (+ x 1.5))`. -/
def text (e : Expr) : String := String.join (e.pieces [])

end Expr

end Reckon
