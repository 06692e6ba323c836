import Reckon.Grammar

/-!
The levels a tree of the grammar takes up while it is read. A logic expression, an atom and the
operand of `not` stand one level below what they are part of. In a chain the first operand stands
at the level of the chain and every other one a level below the operand before it, although in the
tree the first operand is the one that is nested deepest.
-/

namespace Reckon
namespace Grammar

/-- The rules that join the chain so far and one more operand. -/
def linkRules : List Rule :=
  [.orOp, .andOp, .addition, .subtraction, .multiplication, .division]

/-- The rules that open a level for their parts. -/
def chargedRules : List Rule := [.logicExpr, .notOp, .atom]

def isLink (name : String) : Bool := name ∈ linkRules.map Rule.name

def charge (name : String) : Nat := if name ∈ chargedRules.map Rule.name then 1 else 0

end Grammar

namespace Tree

open Grammar

/-- The number of operators in the chain that ends here. -/
def links : Tree → Nat
  | .rule _ [.rule name [left, _]] => if isLink name then links left + 1 else 0
  | _ => 0

mutual

/-- The levels open at the deepest place while the tree is read. -/
def cost : Tree → Nat
  | .terminal _ _ _ => 0
  | .rule name [left, right] =>
    if isLink name then max (cost left) (links left + 1 + cost right)
    else charge name + max (cost left) (cost right)
  | .rule name parts => charge name + costAll parts

def costAll : List Tree → Nat
  | [] => 0
  | t :: ts => max (cost t) (costAll ts)

end

end Tree

namespace Grammar

section
variable {r w : Rule} {left right t : Tree} {parts : List Tree}

theorem isLink_name (r : Rule) : isLink r.name = decide (r ∈ linkRules) := by
  cases r with
  | relation op => cases op <;> decide
  | _ => decide

theorem charge_name (r : Rule) : charge r.name = if r ∈ chargedRules then 1 else 0 := by
  cases r with
  | relation op => cases op <;> decide
  | _ => decide

theorem cost_le_costAll (mem : t ∈ parts) : t.cost ≤ Tree.costAll parts := by
  induction parts with
  | nil => cases mem
  | cons u us ih =>
    rw [Tree.costAll]
    rcases List.mem_cons.1 mem with rfl | mem
    · exact Nat.le_max_left _ _
    · exact Nat.le_trans (ih mem) (Nat.le_max_right _ _)

@[simp] theorem cost_leaf (k : Terminal) (text : String) (span : Span) :
    (k.leaf text span).cost = 0 := by
  rw [Terminal.leaf, Tree.cost]

theorem cost_node (h : r ∉ linkRules) :
    (r.node parts).cost = (if r ∈ chargedRules then 1 else 0) + Tree.costAll parts := by
  have notLink : isLink r.name = false := by simp [isLink_name, h]
  rw [← charge_name]
  match parts with
  | [] | [_] | _ :: _ :: _ :: _ => rw [Rule.node, Tree.cost]; simp
  | [left, right] => simp [Rule.node, Tree.cost, Tree.costAll, notLink]

theorem cost_link (h : r ∈ linkRules) :
    (r.node [left, right]).cost = max left.cost (left.links + 1 + right.cost) := by
  have link : isLink r.name = true := by simp [isLink_name, h]
  rw [Rule.node, Tree.cost, if_pos link]

/-- A rule that opens no level. -/
theorem cost_uncharged (plain : w ∉ linkRules ∧ w ∉ chargedRules) :
    (w.node parts).cost = Tree.costAll parts := by
  rw [cost_node plain.1, if_neg plain.2, Nat.zero_add]

theorem cost_plain (plain : w ∉ linkRules ∧ w ∉ chargedRules) : (w.node [t]).cost = t.cost := by
  rw [cost_uncharged plain, Tree.costAll, Tree.costAll, Nat.max_zero]

/-- A rule with one part that opens a level for it. -/
theorem cost_charged (charged : w ∈ chargedRules) : (w.node [t]).cost = 1 + t.cost := by
  have apart : ∀ w ∈ chargedRules, w ∉ linkRules := by decide
  rw [cost_node (apart w charged), if_pos charged, Tree.costAll, Tree.costAll, Nat.max_zero]

theorem cost_relation (op : Relation) :
    ((Rule.relation op).node [left, right]).cost = max left.cost right.cost := by
  rw [cost_uncharged (by simp [linkRules, chargedRules]), Tree.costAll, Tree.costAll, Tree.costAll,
    Nat.max_zero]

theorem links_operand (h : r ∉ linkRules) : (w.node [r.node parts]).links = 0 := by
  have notLink : isLink r.name = false := by simp [isLink_name, h]
  match parts with
  | [] | [_] | _ :: _ :: _ :: _ => rfl
  | [left, right] => simp [Rule.node, Tree.links, notLink]

theorem links_link (h : r ∈ linkRules) :
    (w.node [r.node [left, right]]).links = left.links + 1 := by
  have link : isLink r.name = true := by simp [isLink_name, h]
  rw [Rule.node, Rule.node, Tree.links, if_pos link]

end

end Grammar
end Reckon
