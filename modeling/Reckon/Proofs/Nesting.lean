import Reckon.Expr
import Reckon.Tree

/-!
The nesting of trees and expressions: induction with the parts of a node as one hypothesis, and the
number of levels of an expression.
-/

namespace Reckon

/-- What holds of a rule whenever it holds of its parts, and of terminals, holds of all trees. -/
@[elab_as_elim]
theorem Tree.induction {P : Tree → Prop}
    (terminal : ∀ kind text span, P (.terminal kind text span))
    (rule : ∀ name children, (∀ t ∈ children, P t) → P (.rule name children)) (t : Tree) : P t := by
  refine @Tree.rec P (fun ts => ∀ t ∈ ts, P t) rule terminal ?_ ?_ t
  · simp
  · intro t ts head tail
    exact List.forall_mem_cons.2 ⟨head, tail⟩

namespace Expr

/-- What holds of a construct whenever it holds of its parts holds of all expressions. -/
@[elab_as_elim]
theorem induction {P : Expr → Prop}
    (program : ∀ statements, (∀ e ∈ statements, P e) → P (.program statements))
    (assign : ∀ name value, P value → P (.assign name value))
    («variable» : ∀ name indices, (∀ e ∈ indices, P e) → P (.variable name indices))
    (literal : ∀ l, P (.literal l))
    (unary : ∀ op operand, P operand → P (.unary op operand))
    (binary : ∀ op left right, P left → P right → P (.binary op left right))
    (e : Expr) : P e := by
  refine @Expr.rec P (fun es => ∀ e ∈ es, P e) program assign «variable» literal unary binary
    ?_ ?_ e
  · simp
  · intro e es head tail
    exact List.forall_mem_cons.2 ⟨head, tail⟩

mutual

/-- The levels of a tree; a node without parts has one. -/
def depth : Expr → Nat
  | .program statements => depthAll statements + 1
  | .assign _ value => depth value + 1
  | .variable _ indices => depthAll indices + 1
  | .literal _ => 1
  | .unary _ operand => depth operand + 1
  | .binary _ left right => max (depth left) (depth right) + 1

def depthAll : List Expr → Nat
  | [] => 0
  | e :: es => max (depth e) (depthAll es)

end

theorem depth_le_depthAll {e : Expr} {es : List Expr} (mem : e ∈ es) : e.depth ≤ depthAll es := by
  induction es with
  | nil => cases mem
  | cons f es ih =>
    rw [depthAll]
    rcases List.mem_cons.1 mem with rfl | mem
    · exact Nat.le_max_left _ _
    · exact Nat.le_trans (ih mem) (Nat.le_max_right _ _)

end Expr
end Reckon
