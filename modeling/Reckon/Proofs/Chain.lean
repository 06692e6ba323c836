import Reckon.Grammar.Parse
import Reckon.Proofs.Cost
import Reckon.Proofs.Derivation

/-!
Left-recursive rules seen as chains. Disjunctions, conjunctions, sums and products are all a first
operand followed by operators with one more operand each, and `IsChain.derives_iff` turns a
derivation from one of these rules into that row of operands.
-/

namespace Reckon
namespace Grammar

/-- Operands joined by operators, the first one innermost. -/
inductive Chain (rule operand : Rule) (operator : TokenKind → Option Rule) :
    List Token → Tree → Prop where
  | first {ts : List Token} {t : Tree} (h : Derives operand ts t) :
      Chain rule operand operator ts (rule.node [t])
  | next {ts us : List Token} {t u : Tree} {o : Token} {op : Rule}
      (before : Chain rule operand operator ts t) (sign : operator o.kind = some op)
      (h : Derives operand us u) :
      Chain rule operand operator (ts ++ o :: us) (rule.node [op.node [t, u]])

/-- The rule is an operand or one of the operators, each of which takes the rule itself on its
left. -/
structure IsChain (rule operand : Rule) (operator : TokenKind → Option Rule) : Prop where
  one : rule.body.arity = some 1
  body : ∀ {ts u}, Matches rule.body ts [u] ↔
    Derives operand ts u ∨ ∃ k op, operator k = some op ∧ Derives op ts u
  operators : ∀ {k op}, operator k = some op → op.body = .binary rule k operand
  links : ∀ {k op}, operator k = some op → op ∈ linkRules
  plain : rule ∉ linkRules ∧ rule ∉ chargedRules ∧ operand ∉ linkRules

section
variable {rule operand : Rule} {operator : TokenKind → Option Rule} {ts : List Token} {t : Tree}

theorem IsChain.derives_iff (c : IsChain rule operand operator) :
    Derives rule ts t ↔ Chain rule operand operator ts t := by
  rw [derives_of_arity_one c.one]
  constructor
  · rintro ⟨u, body, rfl⟩
    -- The part on the left of an operator is a smaller tree of the same rule.
    induction size : u.size using Nat.strongRecOn generalizing u ts with
    | ind n ih =>
      rcases c.body.1 body with h | ⟨k, op, sign, h⟩
      · exact .first h
      · obtain ⟨us, l, o, vs, v, hl, rfl, hv, rfl, rfl⟩ := (derives_binary (c.operators sign)).1 h
        obtain ⟨m, left, rfl⟩ := (derives_of_arity_one c.one).1 hl
        have smaller : m.size < n := by
          rw [← size]
          simp only [Rule.node, Tree.size, Tree.sizeAll]
          omega
        exact .next (ih _ smaller m left rfl) sign hv
  · intro h
    induction h with
    | first h => exact ⟨_, c.body.2 (.inl h), rfl⟩
    | next before sign h ih =>
      refine ⟨_, c.body.2 (.inr ⟨_, _, sign, ?_⟩), rfl⟩
      rw [derives_binary (c.operators sign)]
      exact ⟨_, _, _, _, _, (derives_of_arity_one c.one).2 ih, rfl, h, rfl, rfl⟩

variable {k : TokenKind} {op : Rule}

theorem productOperator_eq_some :
    productOperator k = some op ↔
      k = .star ∧ op = .multiplication ∨ k = .slash ∧ op = .division := by
  cases k <;> simp [productOperator, eq_comm]

theorem sumOperator_eq_some :
    sumOperator k = some op ↔ k = .plus ∧ op = .addition ∨ k = .minus ∧ op = .subtraction := by
  cases k <;> simp [sumOperator, eq_comm]

theorem conjunctionOperator_eq_some :
    conjunctionOperator k = some op ↔ k = .and ∧ op = .andOp := by
  cases k <;> simp [conjunctionOperator, eq_comm]

theorem disjunctionOperator_eq_some :
    disjunctionOperator k = some op ↔ k = .or ∧ op = .orOp := by
  cases k <;> simp [disjunctionOperator, eq_comm]

theorem isChain_product : IsChain .product .atom productOperator where
  one := rfl
  body := by simp [Rule.body, productOperator_eq_some, or_and_right, exists_or, or_assoc, and_assoc]
  operators := by
    intro k op sign
    rcases productOperator_eq_some.1 sign with ⟨rfl, rfl⟩ | ⟨rfl, rfl⟩ <;> rfl
  links := by
    intro k op sign
    rcases productOperator_eq_some.1 sign with ⟨rfl, rfl⟩ | ⟨rfl, rfl⟩ <;> decide
  plain := by decide

theorem isChain_sum : IsChain .sum .product sumOperator where
  one := rfl
  body := by simp [Rule.body, sumOperator_eq_some, or_and_right, exists_or, or_assoc, and_assoc]
  operators := by
    intro k op sign
    rcases sumOperator_eq_some.1 sign with ⟨rfl, rfl⟩ | ⟨rfl, rfl⟩ <;> rfl
  links := by
    intro k op sign
    rcases sumOperator_eq_some.1 sign with ⟨rfl, rfl⟩ | ⟨rfl, rfl⟩ <;> decide
  plain := by decide

theorem isChain_conjunction : IsChain .conjunction .negation conjunctionOperator where
  one := rfl
  body := by simp [Rule.body, conjunctionOperator_eq_some, and_assoc]
  operators := by
    intro k op sign
    obtain ⟨rfl, rfl⟩ := conjunctionOperator_eq_some.1 sign
    rfl
  links := by
    intro k op sign
    obtain ⟨rfl, rfl⟩ := conjunctionOperator_eq_some.1 sign
    decide
  plain := by decide

theorem isChain_disjunction : IsChain .disjunction .conjunction disjunctionOperator where
  one := rfl
  body := by simp [Rule.body, disjunctionOperator_eq_some, and_assoc]
  operators := by
    intro k op sign
    obtain ⟨rfl, rfl⟩ := disjunctionOperator_eq_some.1 sign
    rfl
  links := by
    intro k op sign
    obtain ⟨rfl, rfl⟩ := disjunctionOperator_eq_some.1 sign
    decide
  plain := by decide

/-- The cost of a chain with no operator. -/
theorem IsChain.cost_first (c : IsChain rule operand operator) :
    (rule.node [t]).cost = t.cost := by
  exact cost_plain ⟨c.plain.1, c.plain.2.1⟩

theorem IsChain.links_first (c : IsChain rule operand operator) (h : Derives operand ts t) :
    (rule.node [t]).links = 0 := by
  obtain ⟨parts, _, rfl⟩ := Grammar.derives_iff.1 h
  exact links_operand c.plain.2.2

theorem IsChain.cost_next (c : IsChain rule operand operator) (sign : operator k = some op)
    {u : Tree} :
    (rule.node [op.node [t, u]]).cost = max t.cost (t.links + 1 + u.cost) := by
  rw [c.cost_first, cost_link (c.links sign)]

theorem IsChain.links_next (c : IsChain rule operand operator) (sign : operator k = some op)
    {u : Tree} : (rule.node [op.node [t, u]]).links = t.links + 1 :=
  links_link (c.links sign)

end

end Grammar
end Reckon
