import Reckon.Proofs.Chain
import Reckon.Proofs.Sequence

/-!
What a parser returns is a derivation of the tokens it has passed over, and the room it was given
covers the cost of the tree. The statement goes from the parser of atoms to the rules above it, and
back to atoms by the bound on their nesting.
-/

namespace Reckon
namespace Grammar

/-- What `p` reads is derived from `rule` and fits into the room. -/
def Sound (rule : Rule) (p : Parser) : Prop :=
  ∀ ⦃room toks t rest⦄, p room toks = .ok (t, rest) →
    ∃ used, toks = used ++ rest ∧ Derives rule used t ∧ t.cost ≤ room

section
variable {rule operand : Rule} {operator : TokenKind → Option Rule} {atom p : Parser}
  {room limit : Nat} {toks rest ts : List Token} {t u : Tree} {xs : List Tree}

/-- The levels of the operators read so far and the room that is left add up to the room of the
chain. -/
theorem chainFrom_sound (c : IsChain rule operand operator) (sound : Sound operand p)
    (before : Chain rule operand operator ts t) (cost : t.cost ≤ limit)
    (levels : t.links + room = limit)
    (h : chainFrom rule operator p room t toks = .ok (u, rest)) :
    ∃ used, toks = used ++ rest ∧ Chain rule operand operator (ts ++ used) u ∧
      u.cost ≤ limit := by
  induction room generalizing t toks ts with
  | zero =>
    cases toks with
    | nil =>
      cases h
      exact ⟨[], rfl, by simpa using before, cost⟩
    | cons o toks =>
      cases sign : operator o.kind with
      | none =>
        simp only [chainFrom, sign] at h
        cases h
        exact ⟨[], rfl, by simpa using before, cost⟩
      | some op =>
        simp only [chainFrom, sign] at h
        cases h
  | succ room ih =>
    cases toks with
    | nil =>
      cases h
      exact ⟨[], rfl, by simpa using before, cost⟩
    | cons o toks =>
      cases sign : operator o.kind with
      | none =>
        simp only [chainFrom, sign] at h
        cases h
        exact ⟨[], rfl, by simpa using before, cost⟩
      | some op =>
        simp only [chainFrom, sign] at h
        obtain ⟨⟨right, more⟩, read, tail⟩ := bind_eq_ok.1 h
        obtain ⟨us, rfl, derived, fits⟩ := sound read
        have cost' : (rule.node [op.node [t, right]]).cost ≤ limit := by
          rw [c.cost_next sign]
          omega
        have levels' : (rule.node [op.node [t, right]]).links + room = limit := by
          rw [c.links_next sign]
          omega
        obtain ⟨vs, rfl, whole, fits⟩ := ih (.next before sign derived) cost' levels' tail
        exact ⟨o :: us ++ vs, by simp, by simpa using whole, fits⟩

theorem chain_sound (c : IsChain rule operand operator) (sound : Sound operand p) :
    Sound rule (chain rule operator p) := by
  intro room toks t rest h
  obtain ⟨⟨first, more⟩, read, tail⟩ := bind_eq_ok.1 h
  obtain ⟨us, rfl, derived, fits⟩ := sound read
  have cost : (rule.node [first]).cost ≤ room := by rwa [c.cost_first]
  have levels : (rule.node [first]).links + room = room := by
    rw [c.links_first derived, Nat.zero_add]
  obtain ⟨vs, rfl, whole, fits⟩ := chainFrom_sound c sound (.first derived) cost levels tail
  exact ⟨us ++ vs, by simp, c.derives_iff.2 whole, fits⟩

theorem product_sound (sound : Sound .atom atom) : Sound .product (product atom) :=
  chain_sound isChain_product sound

theorem sum_sound (sound : Sound .atom atom) : Sound .sum (sum atom) :=
  chain_sound isChain_sum (product_sound sound)

theorem arithExpr_sound (sound : Sound .atom atom) : Sound .arithExpr (arithExpr atom) := by
  intro room toks t rest h
  obtain ⟨⟨u, _⟩, read, tail⟩ := bind_eq_ok.1 h
  cases tail
  obtain ⟨us, rfl, derived, fits⟩ := sum_sound sound read
  refine ⟨us, rfl, derives_arithExpr.2 ⟨u, derived, rfl⟩, ?_⟩
  rw [cost_plain (by decide)]
  omega

theorem comparison_sound (sound : Sound .atom atom) : Sound .comparison (comparison atom) := by
  intro room toks t rest h
  obtain ⟨⟨left, more⟩, read, tail⟩ := bind_eq_ok.1 h
  obtain ⟨us, rfl, derived, fits⟩ := arithExpr_sound sound read
  simp only at tail
  split at tail
  next op text span more =>
    obtain ⟨⟨right, _⟩, read', tail⟩ := bind_eq_ok.1 tail
    cases tail
    obtain ⟨vs, rfl, derived', fits'⟩ := arithExpr_sound sound read'
    have relation : Derives (.relation op) (us ++ ⟨.relation op, text, span⟩ :: vs)
        ((Rule.relation op).node [left, right]) :=
      (derives_binary rfl).2 ⟨us, left, _, vs, right, derived, rfl, derived', rfl, rfl⟩
    refine ⟨_, by simp, derives_comparison.2 ⟨_, .inr ⟨op, relation⟩, rfl⟩, ?_⟩
    rw [cost_plain (by decide), cost_relation]
    exact Nat.max_le.2 ⟨fits, fits'⟩
  next =>
    cases tail
    refine ⟨us, rfl, derives_comparison.2 ⟨left, .inl derived, rfl⟩, ?_⟩
    rw [cost_plain (by decide)]
    omega

theorem negation_sound (sound : Sound .atom atom) : Sound .negation (negation atom) := by
  intro room toks t rest h
  fun_induction negation atom room toks generalizing t rest with
  | case1 text span toks => cases h
  | case2 text span toks room ih =>
    obtain ⟨⟨operand, _⟩, read, tail⟩ := bind_eq_ok.1 h
    cases tail
    obtain ⟨us, rfl, derived, fits⟩ := ih read
    have notOp : Derives .notOp (⟨.not, text, span⟩ :: us) (Rule.notOp.node [operand]) :=
      (derives_unary rfl).2 ⟨_, us, operand, rfl, derived, rfl, rfl⟩
    refine ⟨_, rfl, derives_negation.2 ⟨_, .inr notOp, rfl⟩, ?_⟩
    rw [cost_plain (by decide), cost_charged (by decide)]
    omega
  | case3 room toks _ =>
    obtain ⟨⟨u, _⟩, read, tail⟩ := bind_eq_ok.1 h
    cases tail
    obtain ⟨us, rfl, derived, fits⟩ := comparison_sound sound read
    refine ⟨us, rfl, derives_negation.2 ⟨u, .inl derived, rfl⟩, ?_⟩
    rw [cost_plain (by decide)]
    omega

theorem disjunction_sound (sound : Sound .atom atom) : Sound .disjunction (disjunction atom) :=
  chain_sound isChain_disjunction (chain_sound isChain_conjunction (negation_sound sound))

theorem logicExpr_sound (sound : Sound .atom atom) : Sound .logicExpr (logicExpr atom) := by
  intro room toks t rest h
  cases room with
  | zero => cases h
  | succ room =>
    obtain ⟨⟨u, _⟩, read, tail⟩ := bind_eq_ok.1 h
    cases tail
    obtain ⟨us, rfl, derived, fits⟩ := disjunction_sound sound read
    refine ⟨us, rfl, derives_logicExpr.2 ⟨u, derived, rfl⟩, ?_⟩
    rw [cost_charged (by decide)]
    omega

theorem expect_eq_ok {kind : TokenKind} {expected : String}
    (h : expect kind expected toks = .ok rest) : ∃ t, t.kind = kind ∧ toks = t :: rest := by
  cases toks with
  | nil => cases h
  | cons t toks =>
    simp only [expect] at h
    split at h
    next same =>
      cases h
      exact ⟨t, same, rfl⟩
    next => cases h

theorem indices_sound (sound : Sound .atom atom) {bound : List Token}
    (h : indices atom room bound toks = .ok (xs, rest)) :
    ∃ used, toks = used ++ rest ∧ Matches (.many .index) used xs ∧ Tree.costAll xs ≤ room := by
  fun_induction indices atom room bound toks generalizing xs rest with
  | case1 _ bound text span toks ih =>
    obtain ⟨⟨index, more⟩, read, tail⟩ := bind_eq_ok.1 h
    obtain ⟨more', close, tail⟩ := bind_eq_ok.1 tail
    obtain ⟨⟨others, _⟩, next, tail⟩ := bind_eq_ok.1 tail
    cases tail
    obtain ⟨us, rfl, derived, fits⟩ := arithExpr_sound sound read
    obtain ⟨c, kind, rfl⟩ := expect_eq_ok close
    obtain ⟨vs, rfl, many, fits'⟩ := ih more' next
    have head : Matches .index (⟨.leftBracket, text, span⟩ :: (us ++ [c])) [index] :=
      matches_enclosed.2 ⟨_, us, index, c, rfl, derived, kind, rfl, rfl⟩
    refine ⟨_, by simp, .more head many, ?_⟩
    simp only [Tree.costAll]
    omega
  | case2 bound toks =>
    cases h
    exact ⟨[], rfl, .done, Nat.zero_le _⟩

theorem literal_sound {k : Terminal} (literal : k.isLiteral) (l : Token) (kind : l.kind = k.kind) :
    ∃ used, l :: rest = used ++ rest ∧
      Derives .atom used (Rule.atom.node [k.leaf l.text l.span]) ∧
      (Rule.atom.node [k.leaf l.text l.span]).cost ≤ room + 1 := by
  refine ⟨[l], rfl, derives_atom.2 (.inl ⟨k, l, literal, kind, rfl, rfl⟩), ?_⟩
  rw [cost_charged (by decide), cost_leaf]
  omega

theorem atomAround_sound (sound : Sound .atom atom) : Sound .atom (atomAround atom) := by
  intro room toks t rest h
  cases room with
  | zero => cases h
  | succ room =>
    simp only [atomAround, nested] at h
    split at h
    next text span rest =>
      cases h
      exact literal_sound rfl ⟨.int, text, span⟩ rfl
    next text span rest =>
      cases h
      exact literal_sound rfl ⟨.float, text, span⟩ rfl
    next text span rest =>
      cases h
      exact literal_sound rfl ⟨.true, text, span⟩ rfl
    next text span rest =>
      cases h
      exact literal_sound rfl ⟨.false, text, span⟩ rfl
    next text span toks =>
      obtain ⟨⟨xs, _⟩, read, tail⟩ := bind_eq_ok.1 h
      dsimp only at tail
      cases tail
      obtain ⟨us, rfl, many, fits⟩ := indices_sound sound read
      have reference : Derives .variable (⟨.name, text, span⟩ :: us)
          (Rule.variable.node (Terminal.varName.leaf text span :: xs)) :=
        derives_variable.2 ⟨_, us, xs, rfl, many, rfl, rfl⟩
      refine ⟨_, rfl, derives_atom.2 (.inr ⟨_, .inl reference, rfl⟩), ?_⟩
      rw [cost_charged (by decide), cost_uncharged (by decide), Tree.costAll, cost_leaf]
      omega
    next text span toks =>
      obtain ⟨⟨u, _⟩, read, tail⟩ := bind_eq_ok.1 h
      dsimp only at tail
      cases tail
      obtain ⟨us, rfl, derived, fits⟩ := sound read
      have negAtom : Derives .negAtom (⟨.minus, text, span⟩ :: us) (Rule.negAtom.node [u]) :=
        (derives_unary rfl).2 ⟨_, us, u, rfl, derived, rfl, rfl⟩
      refine ⟨_, rfl, derives_atom.2 (.inr ⟨_, .inr (.inl negAtom), rfl⟩), ?_⟩
      rw [cost_charged (by decide), cost_plain (by decide)]
      omega
    next text span toks =>
      obtain ⟨⟨u, more⟩, read, tail⟩ := bind_eq_ok.1 h
      obtain ⟨_, close, tail⟩ := bind_eq_ok.1 tail
      dsimp only at tail
      cases tail
      obtain ⟨us, rfl, derived, fits⟩ := logicExpr_sound sound read
      obtain ⟨c, kind, rfl⟩ := expect_eq_ok close
      have bracketed : Derives .bracketed (⟨.leftParen, text, span⟩ :: (us ++ [c]))
          (Rule.bracketed.node [u]) :=
        derives_bracketed.2 ⟨_, us, u, c, rfl, derived, kind, rfl, rfl⟩
      refine ⟨_, by simp, derives_atom.2 (.inr ⟨_, .inr (.inr bracketed), rfl⟩), ?_⟩
      rw [cost_charged (by decide), cost_plain (by decide)]
      omega
    next => cases h

theorem atomUpTo_sound (bound : Nat) : Sound .atom (atomUpTo bound) := by
  induction bound with
  | zero =>
    intro room toks t rest h
    cases h
  | succ bound ih => exact atomAround_sound ih

theorem line_sound (sound : Sound .atom atom) : Sound .line (line atom) := by
  intro room toks t rest h
  simp only [line] at h
  split at h
  next name nameSpan sign signSpan toks =>
    obtain ⟨⟨u, _⟩, read, tail⟩ := bind_eq_ok.1 h
    cases tail
    obtain ⟨us, rfl, derived, fits⟩ := logicExpr_sound sound read
    have assign : Derives .assignVar (⟨.name, name, nameSpan⟩ :: ⟨.assign, sign, signSpan⟩ :: us)
        (Rule.assignVar.node [Terminal.varName.leaf name nameSpan, u]) :=
      derives_assignVar.2 ⟨_, _, us, u, rfl, rfl, derived, rfl, rfl⟩
    refine ⟨_, rfl, derives_line.2 ⟨_, .inl assign, rfl⟩, ?_⟩
    rw [cost_plain (by decide), cost_uncharged (by decide)]
    simp only [Tree.costAll, cost_leaf]
    omega
  next =>
    obtain ⟨⟨u, _⟩, read, tail⟩ := bind_eq_ok.1 h
    cases tail
    obtain ⟨us, rfl, derived, fits⟩ := logicExpr_sound sound read
    refine ⟨us, rfl, derives_line.2 ⟨u, .inr derived, rfl⟩, ?_⟩
    rw [cost_plain (by decide)]
    omega

theorem endOfLine_eq_ok : endOfLine toks = .ok () ↔ EndsLine toks := by
  cases toks with
  | nil => simp [endOfLine, EndsLine]
  | cons t toks => by_cases kind : t.kind = .newline <;> simp [endOfLine, EndsLine, kind]

theorem lines_sound (sound : Sound .atom atom) {bound : List Token}
    (h : lines atom room bound toks = .ok (xs, rest)) :
    ∃ used, toks = used ++ rest ∧ Lines used xs ∧ Tree.costAll xs ≤ room := by
  fun_induction lines atom room bound toks generalizing xs rest with
  | case1 _ bound n toks newline ih =>
    obtain ⟨us, rfl, whole, fits⟩ := ih h
    exact ⟨n :: us, rfl, .newline newline whole, fits⟩
  | case2 _ bound n toks _ ih =>
    obtain ⟨⟨first, more⟩, read, tail⟩ := bind_eq_ok.1 h
    obtain ⟨_, ends, tail⟩ := bind_eq_ok.1 tail
    obtain ⟨⟨others, _⟩, next, tail⟩ := bind_eq_ok.1 tail
    cases tail
    obtain ⟨us, used, derived, fits⟩ := line_sound sound read
    obtain ⟨vs, rfl, whole, fits'⟩ := ih more next
    have ends : EndsLine vs := by
      cases vs with
      | nil => simp [EndsLine]
      | cons v vs => simpa [EndsLine] using endOfLine_eq_ok.1 ends
    refine ⟨us ++ vs, by simpa using used, .line derived ends whole, ?_⟩
    simp only [Tree.costAll]
    omega
  | case3 bound toks =>
    cases h
    exact ⟨[], rfl, .nil, Nat.zero_le _⟩

theorem block_sound (sound : Sound .atom atom) : Sound .block (block atom) := by
  intro room toks t rest h
  obtain ⟨⟨xs, _⟩, read, tail⟩ := bind_eq_ok.1 h
  cases tail
  obtain ⟨us, rfl, whole, fits⟩ := lines_sound sound read
  refine ⟨us, rfl, derives_block.2 ⟨xs, whole, rfl⟩, ?_⟩
  rw [cost_uncharged (by decide)]
  omega

theorem Start.parser_sound (sound : Sound .atom atom) (start : Start) :
    Sound start.rule (start.parser atom) := by
  cases start with
  | program => exact block_sound sound
  | line => exact line_sound sound
  | expression => exact logicExpr_sound sound
  | arith => exact arithExpr_sound sound

theorem parseTokens_sound {start : Start} (h : parseTokens start limit toks = .ok t) :
    Derives start.rule toks t ∧ t.cost ≤ limit := by
  obtain ⟨⟨u, rest⟩, read, tail⟩ := bind_eq_ok.1 h
  obtain ⟨used, rfl, derived, fits⟩ := start.parser_sound (atomUpTo_sound limit) read
  cases rest with
  | nil =>
    cases tail
    exact ⟨by simpa using derived, fits⟩
  | cons r rest => cases tail

end

end Grammar
end Reckon
