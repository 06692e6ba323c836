import Reckon.Proofs.Levels
import Reckon.Proofs.Operands
import Reckon.Proofs.Recognition

/-!
Reading and compiling count levels differently. In a chain of operators each operand is read one
level below the one before it, while the tree nests the first operand deepest, so the levels for
compiling add up over the chains around an operand where the levels for reading do not. A program
that is read within `n` levels compiles within `n * n`.
-/

namespace Reckon
namespace Grammar

/-- The tree takes some levels to read, and compiling takes no more than the bound for them. -/
structure Fits (bound : Nat → Nat) (t : Tree) : Prop where
  pos : 0 < t.cost
  le : t.levels .standard ≤ bound t.cost

/-- The bound holds of all trees of the rule that have fewer than `size` nodes. -/
def Bounded (size : Nat) (r : Rule) (bound : Nat → Nat) : Prop :=
  ∀ ts t, Derives r ts t → t.size < size → Fits bound t

section
variable {size : Nat} {r rule operand : Rule} {operator : TokenKind → Option Rule}
  {bound : Nat → Nat}

theorem Bounded.weaken {bound' : Nat → Nat} (h : Bounded size r bound)
    (le : ∀ c, 0 < c → bound c ≤ bound' c) : Bounded size r bound' := by
  intro ts t derived small
  have fits := h ts t derived small
  exact ⟨fits.pos, Nat.le_trans fits.le (le _ fits.pos)⟩

/-- A rule that only passes on its part. -/
theorem Fits.wrapped {w : Rule} {t : Tree} (h : Fits bound t)
    (transparent : w.construct? = none) (plain : w ∉ linkRules ∧ w ∉ chargedRules) :
    Fits bound (w.node [t]) := by
  refine ⟨?_, ?_⟩
  · rw [cost_plain plain]
    exact h.pos
  · rw [cost_plain plain, levels_transparent transparent]
    exact h.le

theorem isBinary_of_mem_linkRules {op : Rule} (link : op ∈ linkRules) :
    ∃ o, op.construct? = some (.binary o) := by
  cases op <;> first | exact ⟨_, rfl⟩ | exact absurd link (by decide)

/-- Every operator of a chain is read at one level less room and adds one level of nesting. -/
theorem chain_bounded (c : IsChain rule operand operator) (transparent : rule.construct? = none)
    (mono : ∀ {a b}, a ≤ b → bound a ≤ bound b) (h : Bounded size operand bound) :
    Bounded size rule fun c => bound c + (c - 1) := by
  intro ts t derived small
  have chain := c.derives_iff.1 derived
  have operands : ∀ o ∈ t.operands, Fits bound o := by
    intro o mem
    obtain ⟨⟨us, derived⟩, smaller⟩ := chain.derives_of_mem c o mem
    exact h us o derived (Nat.lt_trans smaller small)
  have links := chain.links_lt_cost c fun o mem => (operands o mem).pos
  have first (t : Tree) : (rule.node [t]).levels .standard ≤ t.levels .standard + 0 :=
    Nat.le_of_eq (levels_transparent transparent)
  have next {k op} (t u : Tree) (sign : operator k = some op) :
      (rule.node [op.node [t, u]]).levels .standard ≤
        max (t.levels .standard) (u.levels .standard) + 1 := by
    obtain ⟨b, construct⟩ := isBinary_of_mem_linkRules (c.links sign)
    exact Nat.le_of_eq ((levels_transparent transparent).trans (levels_binary construct))
  have le := chain.measure_le c first next fun o mem =>
    Nat.le_trans (operands o mem).le (mono (chain.cost_le_of_mem c o mem))
  exact ⟨by omega, by omega⟩

theorem square_mono {a b : Nat} (le : a ≤ b) : a * a ≤ b * b := Nat.mul_le_mul le le

theorem square_succ (c : Nat) : (1 + c) * (1 + c) = c * c + 2 * c + 1 := by
  rw [Nat.add_mul, Nat.mul_add, Nat.mul_add]
  omega

/-- An atom of one level is a literal or a name; every further level may be an index. -/
def atomBound (c : Nat) : Nat := (c - 1) * (c - 1) + 1

theorem atomBound_mono {a b : Nat} (le : a ≤ b) : atomBound a ≤ atomBound b := by
  exact Nat.succ_le_succ (square_mono (Nat.sub_le_sub_right le 1))

theorem arithExpr_bounded (h : Bounded size .atom atomBound) :
    Bounded size .arithExpr fun c => c * c := by
  have product := chain_bounded isChain_product rfl atomBound_mono h
  have sum := chain_bounded isChain_sum rfl
    (fun le => Nat.add_le_add (atomBound_mono le) (Nat.sub_le_sub_right le 1)) product
  have square : Bounded size .sum fun c => c * c := by
    refine sum.weaken fun c pos => ?_
    obtain ⟨d, rfl⟩ := Nat.exists_eq_add_of_le (Nat.succ_le_of_lt pos)
    rw [atomBound, Nat.add_sub_cancel_left, square_succ]
    omega
  intro ts t derived small
  obtain ⟨u, hu, rfl⟩ := derives_arithExpr.1 derived
  exact (square _ _ hu (size_lt_of_node small (by simp))).wrapped rfl (by decide)

theorem comparison_bounded (h : Bounded size .arithExpr fun c => c * c) :
    Bounded size .comparison fun c => c * c + 1 := by
  intro ts t derived small
  obtain ⟨u, hu | ⟨op, hu⟩, rfl⟩ := derives_comparison.1 derived
  · have fits := h _ _ hu (size_lt_of_node small (by simp))
    have weaker : Fits (fun c => c * c + 1) u := ⟨fits.pos, Nat.le_succ_of_le fits.le⟩
    exact weaker.wrapped rfl (by decide)
  · refine Fits.wrapped ?_ rfl (by decide)
    have inner : u.size < size := size_lt_of_node small (by simp)
    obtain ⟨us, l, o, vs, v, hl, _, hv, rfl, rfl⟩ := (derives_binary rfl).1 hu
    have left := h _ _ hl (size_lt_of_node inner (by simp))
    have right := h _ _ hv (size_lt_of_node inner (by simp))
    refine ⟨?_, ?_⟩
    · rw [cost_relation]
      exact Nat.lt_of_lt_of_le left.pos (Nat.le_max_left _ _)
    · rw [cost_relation, levels_binary rfl]
      have squareL := square_mono (Nat.le_max_left l.cost v.cost)
      have squareR := square_mono (Nat.le_max_right l.cost v.cost)
      exact Nat.succ_le_succ (Nat.max_le.2
        ⟨Nat.le_trans left.le squareL, Nat.le_trans right.le squareR⟩)

/-- An operator before its operand takes one level on either count. -/
theorem negation_bounded (h : Bounded size .comparison fun c => c * c + 1) :
    Bounded size .negation fun c => c * c + 1 := by
  intro ts t derived small
  induction nodes : t.size using Nat.strongRecOn generalizing ts t with
  | ind n ih =>
    obtain ⟨u, hu | hu, rfl⟩ := derives_negation.1 derived
    · exact (h _ _ hu (size_lt_of_node small (by simp))).wrapped rfl (by decide)
    · refine Fits.wrapped ?_ rfl (by decide)
      obtain ⟨o, vs, v, _, hv, rfl, rfl⟩ := (derives_unary rfl).1 hu
      have inner : (Rule.notOp.node [v]).size < n := nodes ▸ size_lt_node (by simp)
      have smaller : v.size < n := size_lt_of_node inner (by simp)
      have fits := ih _ smaller _ _ hv (Nat.lt_trans smaller (nodes ▸ small)) rfl
      have le := fits.le
      have cost : (Rule.notOp.node [v]).cost = 1 + v.cost := cost_charged (by decide)
      refine ⟨by omega, ?_⟩
      rw [cost, levels_unary rfl, square_succ]
      omega

theorem logicExpr_bounded (h : Bounded size .atom atomBound) :
    Bounded size .logicExpr fun c => c * c - 2 := by
  have negation := negation_bounded (comparison_bounded (arithExpr_bounded h))
  have mono {a b : Nat} (le : a ≤ b) : a * a + 1 ≤ b * b + 1 := Nat.succ_le_succ (square_mono le)
  have conjunction := chain_bounded isChain_conjunction rfl mono negation
  have disjunction := chain_bounded isChain_disjunction rfl
    (fun le => Nat.add_le_add (mono le) (Nat.sub_le_sub_right le 1)) conjunction
  intro ts t derived small
  obtain ⟨u, hu, rfl⟩ := derives_logicExpr.1 derived
  have fits := disjunction _ _ hu (size_lt_of_node small (by simp))
  have pos := fits.pos
  have le := fits.le
  have cost : (Rule.logicExpr.node [u]).cost = 1 + u.cost := cost_charged (by decide)
  refine ⟨by omega, ?_⟩
  rw [cost, levels_transparent rfl, square_succ]
  omega

theorem Fits.atom {u : Tree} (le : u.levels .standard ≤ u.cost * u.cost + 1) :
    Fits atomBound (Rule.atom.node [u]) := by
  have cost : (Rule.atom.node [u]).cost = 1 + u.cost := cost_charged (by decide)
  refine ⟨by omega, ?_⟩
  rw [cost, levels_transparent rfl, atomBound, Nat.add_sub_cancel_left]
  exact le

theorem atom_bounded (size : Nat) : Bounded size .atom atomBound := by
  induction size with
  | zero =>
    intro ts t _ small
    cases small
  | succ size ih =>
    intro ts t derived small
    rcases derives_atom.1 derived with ⟨k, l, _, _, rfl, rfl⟩ | ⟨u, hu, rfl⟩
    · exact .atom (by simp)
    have inner : u.size < size :=
      Nat.lt_of_lt_of_le (size_lt_node (by simp)) (Nat.le_of_lt_succ small)
    refine .atom ?_
    rcases hu with hu | hu | hu
    · obtain ⟨name, us, indices, _, hi, rfl, rfl⟩ := derives_variable.1 hu
      rw [levels_named (.inr rfl), cost_uncharged (by decide), Tree.costAll, cost_leaf,
        Nat.zero_max]
      refine Nat.succ_le_succ (Tree.levelsAll_le fun v mem => ?_)
      obtain ⟨vs, hv⟩ := hi.indices v mem
      have small : v.size < size :=
        size_lt_of_node inner (List.mem_cons_of_mem _ mem)
      exact Nat.le_trans (arithExpr_bounded ih _ _ hv small).le (square_mono (cost_le_costAll mem))
    · obtain ⟨o, vs, v, _, hv, rfl, rfl⟩ := (derives_unary rfl).1 hu
      have fits := ih _ _ hv (size_lt_of_node inner (by simp))
      have le := fits.le
      rw [levels_unary rfl, cost_plain (by decide)]
      obtain ⟨d, eq⟩ := Nat.exists_eq_add_of_le (Nat.succ_le_of_lt fits.pos)
      rw [eq, atomBound, Nat.add_sub_cancel_left] at le
      rw [eq, square_succ]
      omega
    · obtain ⟨o, vs, v, c, _, hv, _, rfl, rfl⟩ := derives_bracketed.1 hu
      have fits := logicExpr_bounded ih _ _ hv (size_lt_of_node inner (by simp))
      have le := fits.le
      rw [levels_group, cost_plain (by decide)]
      omega

/-- A line may be an assignment, which takes one more level. -/
theorem line_levels {ts : List Token} {t : Tree} (h : Derives .line ts t) :
    t.levels .standard + 1 ≤ t.cost * t.cost := by
  have logic {us u} (hu : Derives .logicExpr us u) :
      u.levels .standard + 2 ≤ u.cost * u.cost := by
    have le := (logicExpr_bounded (atom_bounded _) _ _ hu (Nat.lt_succ_self _)).le
    have pos := u.levels_pos .standard
    omega
  obtain ⟨u, hu | hu, rfl⟩ := derives_line.1 h
  · rw [levels_transparent rfl, cost_plain (by decide)]
    obtain ⟨name, sign, us, v, _, _, hv, rfl, rfl⟩ := derives_assignVar.1 hu
    rw [levels_named (.inl rfl), levelsAll_single, cost_uncharged (by decide), Tree.costAll,
      Tree.costAll, Tree.costAll, cost_leaf, Nat.zero_max, Nat.max_zero]
    exact logic hv
  · rw [levels_transparent rfl, cost_plain (by decide)]
    exact Nat.le_of_succ_le (logic hu)

theorem block_levels {ts : List Token} {t : Tree} (h : Derives .block ts t) :
    t.levels .standard ≤ max 1 (t.cost * t.cost) := by
  obtain ⟨lines, hl, rfl⟩ := derives_block.1 h
  rw [levels_block, cost_uncharged (by decide)]
  have below : Tree.levelsAll .standard lines ≤ Tree.costAll lines * Tree.costAll lines - 1 := by
    refine Tree.levelsAll_le fun t mem => ?_
    obtain ⟨us, ht⟩ := hl.lines t mem
    have le := Nat.le_trans (line_levels ht) (square_mono (cost_le_costAll mem))
    omega
  omega

end

end Grammar
end Reckon
