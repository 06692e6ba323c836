import Reckon.Proofs.FirstFault
import Reckon.Proofs.Recognition

/-!
The nesting limit is compared with the cost of the tree. What the grammar derives is read when the
limit covers its cost, and under every smaller limit it is refused for its depth and for nothing
else. A chain costs as much as the row of its operands (`Chain.cost_eq`): the operand with the number
`i`, counted from zero, stands `i` levels below the chain.
-/

namespace Reckon

open Grammar

/-- What the grammar derives from the tokens of a source is read under every limit that covers its
cost. Under any other limit the nesting is too deep. -/
theorem parse_of_cost (source : String) (start : Start) (toks : List Token) (t : Tree)
    (scanned : Token.scan source = .ok toks) (derived : Derives start.rule toks t) (limit : Nat) :
    (t.cost ≤ limit → parse source start limit = .ok t) ∧
      (limit < t.cost → ∃ span, parse source start limit = .error (.nestingTooDeep limit span)) := by
  refine ⟨fun fits => parse_eq_ok_iff.2 ⟨toks, scanned, derived, fits⟩, fun dear => ?_⟩
  rw [parse, scanned, ok_bind]
  cases read : parseTokens start limit toks with
  | ok u =>
    obtain ⟨derived', fits⟩ := parseTokens_eq_ok_iff.1 read
    rw [derived.unique derived'] at dear
    exact absurd fits (Nat.not_le_of_lt dear)
  | error refusal =>
    cases refusal with
    | unexpected expected ahead => exact absurd derived (not_derives_of_refused read)
    | tooDeep ahead =>
      cases ahead with
      | nil => exact ⟨_, rfl⟩
      | cons first rest => exact ⟨_, rfl⟩

/-- The factor in parentheses stands below two operators, which count as one level each. -/
theorem parse_of_cost_factor :
    ∃ toks t, Token.scan "1 + 2 * (3)" = .ok toks ∧ Derives .logicExpr toks t ∧ t.cost = 6 ∧
      parse "1 + 2 * (3)" .expression 6 = .ok t ∧
      ∃ span, parse "1 + 2 * (3)" .expression 5 = .error (.nestingTooDeep 5 span) := by
  obtain ⟨t, read, cost⟩ : ∃ t, parse "1 + 2 * (3)" .expression 6 = .ok t ∧ t.cost = 6 :=
    ⟨_, rfl, rfl⟩
  obtain ⟨toks, scanned, derived, _⟩ := parse_eq_ok_iff.1 read
  have exact (limit : Nat) := parse_of_cost "1 + 2 * (3)" .expression toks t scanned derived limit
  exact ⟨toks, t, scanned, derived, cost, (exact 6).1 (Nat.le_of_eq cost),
    (exact 5).2 (by rw [cost]; decide)⟩

end Reckon
