import Mathlib.Tactic.Ring
import Reckon.Proofs.Operands
import Reckon.Proofs.Recognition

/-!
The height of what is read. A rule adds one level to the tree and an operator of a chain two, and a
chain has fewer operators than it costs levels. What costs `n + 1` may hold a sum of products of that
many levels around something that costs `n`, and is `4 * n + 5` levels higher for it. So a tree of
cost `n` has at most `(2 * n + 1) * (n + 1)` levels, however many tokens it was read from.
-/

namespace Reckon

open Grammar

namespace Tree

mutual

/-- The number of levels, by recursion on the tree. -/
def height : Tree → Nat
  | .terminal _ _ _ => 1
  | .rule _ parts => heightAll parts + 1

def heightAll : List Tree → Nat
  | [] => 0
  | t :: ts => max (height t) (heightAll ts)

end

/-- The level below the lowest one that the trees of a stack reach. -/
def reach : List (Tree × Nat) → Nat
  | [] => 0
  | (t, level) :: pending => max (level + t.height) (reach pending)

section
variable {t : Tree} {ts : List Tree} {bound level : Nat}

theorem height_eq_children (t : Tree) : t.height = heightAll t.children + 1 := by
  cases t <;> rfl

theorem heightAll_le (h : ∀ t ∈ ts, t.height ≤ bound) : heightAll ts ≤ bound := by
  induction ts with
  | nil => exact Nat.zero_le bound
  | cons t ts ih =>
    obtain ⟨head, tail⟩ := List.forall_mem_cons.1 h
    exact Nat.max_le.2 ⟨head, ih tail⟩

theorem reach_append (xs ys : List (Tree × Nat)) :
    reach (xs ++ ys) = max (reach xs) (reach ys) := by
  induction xs with
  | nil => simp [reach]
  | cons x xs ih => rw [List.cons_append, reach, reach, ih, Nat.max_assoc]

theorem reach_reverse (xs : List (Tree × Nat)) : reach xs.reverse = reach xs := by
  induction xs with
  | nil => rfl
  | cons x xs ih =>
    rw [List.reverse_cons, reach_append, ih, reach, reach, reach, Nat.max_comm, Nat.max_zero]

/-- Trees on one level, of which there may be none. -/
theorem reach_map (ts : List Tree) (level : Nat) :
    max level (reach (ts.map (·, level))) = level + heightAll ts := by
  induction ts with
  | nil => simp [reach, heightAll]
  | cons t ts ih =>
    rw [List.map_cons, reach, heightAll]
    omega

/-- Working off the stack keeps what it reaches. -/
theorem deepestLevel_eq (deepest : Nat) (pending : List (Tree × Nat)) :
    deepestLevel deepest pending + 1 = max (deepest + 1) (reach pending) := by
  fun_induction deepestLevel deepest pending with
  | case1 deepest => simp [reach]
  | case2 deepest t level pending ih =>
    have below := reach_map t.children (level + 1)
    have height := t.height_eq_children
    rw [ih, reach_append, reach_reverse, reach]
    omega

theorem depth_eq_height (t : Tree) : t.depth = t.height := by
  have reached := deepestLevel_eq 0 [(t, 1)]
  have height := t.height_eq_children
  rw [reach, reach] at reached
  rw [depth]
  omega

end

end Tree

namespace Grammar

/-- The tree costs something and is no higher than the bound for what it costs. -/
structure Low (bound : Nat → Nat) (t : Tree) : Prop where
  pos : 0 < t.cost
  le : t.height ≤ bound t.cost

/-- The bound holds of all trees of the rule that cost at most `budget`. -/
def LowWithin (budget : Nat) (r : Rule) (bound : Nat → Nat) : Prop :=
  ∀ ts t, Derives r ts t → t.cost ≤ budget → Low bound t

/-- The most levels of an arithmetic expression, and of a program, that costs `n`. -/
def climb (n : Nat) : Nat := (2 * n + 1) * (n + 1)

section
variable {budget n : Nat} {r w rule operand : Rule} {operator : TokenKind → Option Rule}
  {bound : Nat → Nat} {t u : Tree} {parts : List Tree}

@[simp] theorem height_node : (r.node parts).height = Tree.heightAll parts + 1 := by
  rw [Rule.node, Tree.height]

@[simp] theorem height_leaf (k : Terminal) (text : String) (span : Span) :
    (k.leaf text span).height = 1 := by
  rw [Terminal.leaf, Tree.height]

@[simp] theorem heightAll_single : Tree.heightAll [t] = t.height := by
  rw [Tree.heightAll, Tree.heightAll, Nat.max_zero]

@[simp] theorem heightAll_pair : Tree.heightAll [t, u] = max t.height u.height := by
  rw [Tree.heightAll, heightAll_single]

theorem climb_succ (n : Nat) : climb (n + 1) = climb n + 4 * n + 5 := by
  rw [climb, climb]
  ring

theorem climb_mono {m n : Nat} (le : m ≤ n) : climb m ≤ climb n :=
  Nat.mul_le_mul (by omega) (by omega)

theorem Low.weaken {bound' : Nat → Nat} (h : Low bound t) (le : ∀ c, 0 < c → bound c ≤ bound' c) :
    Low bound' t :=
  ⟨h.pos, Nat.le_trans h.le (le _ h.pos)⟩

/-- A rule that opens no level is one level of the tree. -/
theorem Low.wrapped (h : Low bound t) (plain : w ∉ linkRules ∧ w ∉ chargedRules) :
    Low (fun c => bound c + 1) (w.node [t]) := by
  refine ⟨?_, ?_⟩
  · rw [cost_plain plain]
    exact h.pos
  · rw [cost_plain plain, height_node, heightAll_single]
    exact Nat.succ_le_succ h.le

theorem chain_low (c : IsChain rule operand operator)
    (mono : ∀ {a b}, a ≤ b → bound a ≤ bound b) (h : LowWithin budget operand bound) :
    LowWithin budget rule fun c => bound c + 1 + 2 * (c - 1) := by
  intro ts t derived fits
  have chain := c.derives_iff.1 derived
  have operands : ∀ o ∈ t.operands, Low bound o := by
    intro o mem
    obtain ⟨⟨us, derived⟩, _⟩ := chain.derives_of_mem c o mem
    exact h us o derived (Nat.le_trans (chain.cost_le_of_mem c o mem) fits)
  have links := chain.links_lt_cost c fun o mem => (operands o mem).pos
  have first (t : Tree) : (rule.node [t]).height ≤ t.height + 1 := by simp
  have next {k op} (t u : Tree) (_ : operator k = some op) :
      (rule.node [op.node [t, u]]).height ≤ max t.height u.height + 2 := by simp
  have le := chain.measure_le c first next fun o mem =>
    Nat.le_trans (operands o mem).le (mono (chain.cost_le_of_mem c o mem))
  exact ⟨by omega, by omega⟩

/-- An atom is a literal, or two levels above something that costs one level less. -/
def atomClimb (c : Nat) : Nat := climb (c - 1) + 2

theorem atomClimb_mono {a b : Nat} (le : a ≤ b) : atomClimb a ≤ atomClimb b :=
  Nat.add_le_add_right (climb_mono (Nat.sub_le_sub_right le 1)) 2

theorem arithExpr_low (h : LowWithin budget .atom atomClimb) :
    LowWithin budget .arithExpr climb := by
  have product := chain_low isChain_product atomClimb_mono h
  have sum := chain_low isChain_sum
    (fun le => by have := atomClimb_mono le; omega) product
  intro ts t derived fits
  obtain ⟨u, hu, rfl⟩ := derives_arithExpr.1 derived
  rw [cost_plain (by decide)] at fits
  refine ((sum _ _ hu fits).wrapped (by decide)).weaken fun c pos => ?_
  obtain ⟨d, rfl⟩ := Nat.exists_eq_add_of_le' (Nat.succ_le_of_lt pos)
  rw [atomClimb, climb_succ, Nat.add_sub_cancel]
  omega

theorem comparison_low (h : LowWithin budget .arithExpr climb) :
    LowWithin budget .comparison fun c => climb c + 2 := by
  intro ts t derived fits
  obtain ⟨u, hu | ⟨op, hu⟩, rfl⟩ := derives_comparison.1 derived
  · rw [cost_plain (by decide)] at fits
    exact ((h _ _ hu fits).wrapped (by decide)).weaken fun c _ => Nat.le_succ _
  · rw [cost_plain (by decide)] at fits
    obtain ⟨us, l, o, vs, v, hl, _, hv, rfl, rfl⟩ := (derives_binary rfl).1 hu
    rw [cost_relation] at fits
    have left := h _ _ hl (by omega)
    have right := h _ _ hv (by omega)
    have both : Low (fun c => climb c + 1) ((Rule.relation op).node [l, v]) := by
      have monoL := climb_mono (Nat.le_max_left l.cost v.cost)
      have monoR := climb_mono (Nat.le_max_right l.cost v.cost)
      have leL := left.le
      have leR := right.le
      have pos := left.pos
      refine ⟨?_, ?_⟩
      · rw [cost_relation]
        omega
      · rw [cost_relation, height_node, heightAll_pair]
        omega
    exact both.wrapped (by decide)

/-- An operator before its operand adds two levels and costs one. -/
theorem negation_low (h : LowWithin budget .comparison fun c => climb c + 2) :
    LowWithin budget .negation fun c => climb c + 3 := by
  intro ts t derived fits
  induction cost : t.cost using Nat.strongRecOn generalizing ts t with
  | ind n ih =>
    obtain ⟨u, hu | hu, rfl⟩ := derives_negation.1 derived
    · rw [cost_plain (by decide)] at fits
      exact (h _ _ hu fits).wrapped (by decide)
    · obtain ⟨o, vs, v, _, hv, rfl, rfl⟩ := (derives_unary rfl).1 hu
      rw [cost_plain (by decide), cost_charged (by decide)] at fits cost
      have low := ih v.cost (by omega) _ _ hv (by omega) rfl
      refine ⟨?_, ?_⟩
      · rw [cost_plain (by decide), cost_charged (by decide)]
        omega
      · have le := low.le
        have step := climb_succ v.cost
        rw [cost_plain (by decide), cost_charged (by decide), Nat.add_comm 1 v.cost]
        simp only [height_node, heightAll_single]
        omega

/-- A logic expression opens a level, which pays for the two kinds of chains in it. -/
theorem logicExpr_low (h : LowWithin budget .atom atomClimb) :
    LowWithin (budget + 1) .logicExpr fun c => climb c - 3 := by
  have negation := negation_low (comparison_low (arithExpr_low h))
  have conjunction := chain_low isChain_conjunction
    (fun le => Nat.add_le_add_right (climb_mono le) 3) negation
  have disjunction := chain_low isChain_disjunction
    (fun le => by have := climb_mono le; omega) conjunction
  intro ts t derived fits
  obtain ⟨u, hu, rfl⟩ := derives_logicExpr.1 derived
  rw [cost_charged (by decide)] at fits
  have low := disjunction _ _ hu (by omega)
  have pos := low.pos
  have le := low.le
  have step := climb_succ u.cost
  refine ⟨?_, ?_⟩
  · rw [cost_charged (by decide)]
    omega
  · rw [cost_charged (by decide), Nat.add_comm 1 u.cost, height_node, heightAll_single]
    omega

theorem Low.atom (le : u.height ≤ climb u.cost + 1) : Low atomClimb (Rule.atom.node [u]) := by
  refine ⟨?_, ?_⟩
  · rw [cost_charged (by decide)]
    omega
  · rw [cost_charged (by decide), atomClimb, Nat.add_sub_cancel_left, height_node,
      heightAll_single]
    exact Nat.succ_le_succ le

theorem climb_pos (n : Nat) : 0 < climb n :=
  Nat.mul_pos (Nat.succ_pos _) (Nat.succ_pos _)

theorem atom_low (budget : Nat) : LowWithin budget .atom atomClimb := by
  induction budget with
  | zero =>
    intro ts t derived fits
    obtain ⟨parts, _, rfl⟩ := derives_iff.1 derived
    rw [cost_node (by decide), if_pos (by decide)] at fits
    omega
  | succ budget ih =>
    intro ts t derived fits
    rcases derives_atom.1 derived with ⟨k, l, _, _, rfl, rfl⟩ | ⟨u, hu, rfl⟩
    · exact .atom (by simp)
    rw [cost_charged (by decide)] at fits
    refine .atom ?_
    rcases hu with hu | hu | hu
    · obtain ⟨name, us, indices, _, hi, rfl, rfl⟩ := derives_variable.1 hu
      rw [cost_uncharged (by decide), Tree.costAll, cost_leaf, Nat.zero_max] at fits ⊢
      rw [height_node, Tree.heightAll, height_leaf]
      have below : Tree.heightAll indices ≤ climb (Tree.costAll indices) := by
        refine Tree.heightAll_le fun v mem => ?_
        obtain ⟨vs, hv⟩ := hi.indices v mem
        have dearest := cost_le_costAll mem
        exact Nat.le_trans (arithExpr_low ih _ _ hv (by omega)).le (climb_mono dearest)
      exact Nat.succ_le_succ (Nat.max_le.2 ⟨climb_pos _, below⟩)
    · obtain ⟨o, vs, v, _, hv, rfl, rfl⟩ := (derives_unary rfl).1 hu
      rw [cost_plain (by decide)] at fits ⊢
      have low := ih _ _ hv (by omega)
      have le := low.le
      obtain ⟨d, eq⟩ := Nat.exists_eq_add_of_le' (Nat.succ_le_of_lt low.pos)
      rw [eq, atomClimb, Nat.add_sub_cancel] at le
      rw [eq, climb_succ, height_node, heightAll_single]
      omega
    · obtain ⟨o, vs, v, c, _, hv, _, rfl, rfl⟩ := derives_bracketed.1 hu
      rw [cost_plain (by decide)] at fits ⊢
      have le := (logicExpr_low ih _ _ hv (by omega)).le
      rw [height_node, heightAll_single]
      omega

/-- A line may be an assignment, which adds one more level. -/
theorem line_low (budget : Nat) : LowWithin budget .line fun c => climb c - 1 := by
  have logic {us : List Token} {v : Tree} (hv : Derives .logicExpr us v) :
      0 < v.cost ∧ climb 1 ≤ climb v.cost ∧ v.height ≤ climb v.cost - 3 := by
    have low := logicExpr_low (atom_low v.cost) _ _ hv (Nat.le_succ _)
    exact ⟨low.pos, climb_mono low.pos, low.le⟩
  have one : climb 1 = 6 := rfl
  intro ts t derived _
  obtain ⟨u, hu | hu, rfl⟩ := derives_line.1 derived
  · obtain ⟨name, sign, us, v, _, _, hv, rfl, rfl⟩ := derives_assignVar.1 hu
    have cost : (Rule.line.node
        [Rule.assignVar.node [Terminal.varName.leaf name.text name.span, v]]).cost = v.cost := by
      rw [cost_plain (by decide), cost_uncharged (by decide)]
      simp [Tree.costAll]
    obtain ⟨pos, least, le⟩ := logic hv
    refine ⟨by rwa [cost], ?_⟩
    simp only [cost, height_node, heightAll_single, heightAll_pair, height_leaf]
    omega
  · obtain ⟨pos, least, le⟩ := logic hu
    refine ⟨by rwa [cost_plain (by decide)], ?_⟩
    simp only [cost_plain (w := .line) (by decide), height_node, heightAll_single]
    omega

/-- What reading may begin with is no higher than an arithmetic expression of the same cost. -/
theorem Derives.height_le {start : Start} {ts : List Token} (h : Derives start.rule ts t) :
    t.height ≤ climb t.cost := by
  cases start with
  | program =>
    obtain ⟨lines, hl, rfl⟩ := derives_block.1 h
    rw [cost_uncharged (by decide), height_node]
    have below : Tree.heightAll lines ≤ climb (Tree.costAll lines) - 1 := by
      refine Tree.heightAll_le fun u mem => ?_
      obtain ⟨us, hu⟩ := hl.lines u mem
      have le := (line_low u.cost _ _ hu (Nat.le_refl _)).le
      have dearest := climb_mono (cost_le_costAll mem)
      omega
    have pos := climb_pos (Tree.costAll lines)
    omega
  | line => exact Nat.le_trans (line_low t.cost _ _ h (Nat.le_refl _)).le (Nat.sub_le _ 1)
  | expression =>
    have low := logicExpr_low (atom_low t.cost) _ _ h (Nat.le_succ _)
    exact Nat.le_trans low.le (Nat.sub_le _ 3)
  | arith => exact (arithExpr_low (atom_low t.cost) _ _ h (Nat.le_refl _)).le

theorem climb_le_square (n : Nat) : climb n ≤ 2 * (n + 2) * (n + 2) :=
  Nat.mul_le_mul (by omega) (by omega)

end

end Grammar

/-- The nesting limit bounds the depth of the tree, whatever the length of the source. -/
theorem depth_le_of_parse (source : String) (start : Start) (limit : Nat) (t : Tree)
    (read : parse source start limit = .ok t) : t.depth ≤ 2 * (limit + 2) * (limit + 2) := by
  obtain ⟨toks, _, derived, fits⟩ := parse_eq_ok_iff.1 read
  calc
    t.depth = t.height := t.depth_eq_height
    _ ≤ climb t.cost := derived.height_le
    _ ≤ climb limit := climb_mono fits
    _ ≤ 2 * (limit + 2) * (limit + 2) := climb_le_square limit

theorem depth_le_of_parse_index :
    ∃ t, parse "x = a[1*1+1] and 1" .program 4 = .ok t ∧ t.depth ≤ 2 * (4 + 2) * (4 + 2) :=
  ⟨_, rfl, depth_le_of_parse "x = a[1*1+1] and 1" .program 4 _ rfl⟩

end Reckon
