import Reckon.Proofs.Chain
import Reckon.Proofs.Shape

/-!
A chain as the row of its operands. The row costs as much as its dearest operand when every operand
stands one level below the one before it, and what an operator adds to a measure of trees is added
once for every operator.
-/

namespace Reckon

open Grammar

namespace Tree

/-- The operands of the chain that ends here, from left to right. -/
def operands : Tree → List Tree
  | .rule _ [.rule name [left, right]] =>
    if isLink name then left.operands ++ [right] else [.rule name [left, right]]
  | t => t.children

/-- The cost of operands one after the other, the first of them at `level`. -/
def rowCost (level : Nat) : List Tree → Nat
  | [] => 0
  | t :: ts => max (level + t.cost) (rowCost (level + 1) ts)

variable {level : Nat} {t : Tree} {ts : List Tree}

theorem rowCost_concat : rowCost level (ts ++ [t]) =
    max (rowCost level ts) (level + ts.length + t.cost) := by
  induction ts generalizing level with
  | nil => simp [rowCost]
  | cons u us ih =>
    have place : level + 1 + us.length = level + (us.length + 1) := by omega
    rw [List.cons_append, rowCost, rowCost, ih, List.length_cons, place, Nat.max_assoc]

theorem cost_le_rowCost (mem : t ∈ ts) : t.cost ≤ rowCost level ts := by
  induction ts generalizing level with
  | nil => cases mem
  | cons u us ih =>
    rw [rowCost]
    rcases List.mem_cons.1 mem with rfl | mem
    · omega
    · exact Nat.le_trans (ih mem) (Nat.le_max_right _ _)

/-- The last of `n + 1` operands stands `n` levels down. -/
theorem length_le_rowCost (pos : ∀ t ∈ ts, 0 < t.cost) : ts.length ≤ rowCost 0 ts := by
  rcases List.eq_nil_or_concat ts with rfl | ⟨us, u, rfl⟩
  · exact Nat.zero_le _
  · have last := pos u (by simp)
    rw [List.concat_eq_append, rowCost_concat, List.length_append, List.length_singleton]
    omega

end Tree

namespace Grammar

section
variable {rule operand : Rule} {operator : TokenKind → Option Rule} {ts : List Token} {t u : Tree}
  {k : TokenKind} {op : Rule}

theorem IsChain.operands_first (c : IsChain rule operand operator) (h : Derives operand ts t) :
    (rule.node [t]).operands = [t] := by
  obtain ⟨parts, _, rfl⟩ := Grammar.derives_iff.1 h
  have notLink : isLink operand.name = false := by simp [isLink_name, c.plain.2.2]
  match parts with
  | [] | [_] | _ :: _ :: _ :: _ => rfl
  | [left, right] => simp [Rule.node, Tree.operands, notLink]

theorem IsChain.operands_next (c : IsChain rule operand operator) (sign : operator k = some op) :
    (rule.node [op.node [t, u]]).operands = t.operands ++ [u] := by
  have link : isLink op.name = true := by simp [isLink_name, c.links sign]
  simp [Rule.node, Tree.operands, link]

namespace Chain

/-- There is one operand more than operators, and each stands a level below the one before it. -/
theorem cost_eq (c : IsChain rule operand operator) (h : Chain rule operand operator ts t) :
    t.operands.length = t.links + 1 ∧ t.cost = Tree.rowCost 0 t.operands := by
  induction h with
  | first derived =>
    rw [c.operands_first derived, c.links_first derived, c.cost_first]
    simp [Tree.rowCost]
  | next before sign derived ih =>
    obtain ⟨length, cost⟩ := ih
    rw [c.operands_next sign, c.links_next sign, c.cost_next sign, Tree.rowCost_concat, ← cost,
      List.length_append, length]
    simp

theorem links_lt_cost (c : IsChain rule operand operator) (h : Chain rule operand operator ts t)
    (pos : ∀ o ∈ t.operands, 0 < o.cost) : t.links < t.cost := by
  obtain ⟨length, cost⟩ := h.cost_eq c
  have row := Tree.length_le_rowCost pos
  rw [← cost, length] at row
  exact row

theorem derives_of_mem (c : IsChain rule operand operator) (h : Chain rule operand operator ts t) :
    ∀ o ∈ t.operands, (∃ us, Derives operand us o) ∧ o.size < t.size := by
  induction h with
  | first derived =>
    rw [c.operands_first derived]
    exact List.forall_mem_singleton.2 ⟨⟨_, derived⟩, size_lt_node (by simp)⟩
  | @next ts us t u o op before sign derived ih =>
    have left : t.size < (rule.node [op.node [t, u]]).size :=
      Nat.lt_trans (size_lt_node (by simp)) (size_lt_node (List.mem_singleton.2 rfl))
    have right : u.size < (rule.node [op.node [t, u]]).size :=
      Nat.lt_trans (size_lt_node (by simp)) (size_lt_node (List.mem_singleton.2 rfl))
    rw [c.operands_next sign]
    refine List.forall_mem_append.2 ⟨fun v mem => ?_, ?_⟩
    · obtain ⟨derived, smaller⟩ := ih v mem
      exact ⟨derived, Nat.lt_trans smaller left⟩
    · exact List.forall_mem_singleton.2 ⟨⟨_, derived⟩, right⟩

theorem cost_le_of_mem (c : IsChain rule operand operator) (h : Chain rule operand operator ts t) :
    ∀ o ∈ t.operands, o.cost ≤ t.cost := by
  intro o mem
  rw [(h.cost_eq c).2]
  exact Tree.cost_le_rowCost mem

/-- A measure that grows by `base` around the first operand and by `step` at every operator. -/
theorem measure_le (c : IsChain rule operand operator) {measure : Tree → Nat}
    {base step bound : Nat} (first : ∀ t, measure (rule.node [t]) ≤ measure t + base)
    (next : ∀ {k op} t u, operator k = some op →
      measure (rule.node [op.node [t, u]]) ≤ max (measure t) (measure u) + step)
    (h : Chain rule operand operator ts t) (le : ∀ o ∈ t.operands, measure o ≤ bound) :
    measure t ≤ bound + base + step * t.links := by
  induction h with
  | first derived =>
    rw [c.operands_first derived] at le
    rw [c.links_first derived, Nat.mul_zero]
    exact Nat.le_trans (first _) (Nat.add_le_add_right (le _ (List.mem_singleton.2 rfl)) base)
  | @next ts us t u o op before sign derived ih =>
    rw [c.operands_next sign] at le
    obtain ⟨left, right⟩ := List.forall_mem_append.1 le
    have before := ih left
    have last := right u (List.mem_singleton.2 rfl)
    have whole := next t u sign
    rw [c.links_next sign, Nat.mul_succ]
    omega

end Chain

end

end Grammar
end Reckon
