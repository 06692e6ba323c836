import Reckon.Proofs.ParserSoundness

/-!
What the grammar derives is read. A parser is given the tokens of a derivation, some more tokens
that cannot belong to it, and room for its cost, and then returns that derivation and leaves the
tokens after it. With soundness this makes reading exact: `parseTokens_eq_ok_iff`. Unambiguity is a
consequence, as two derivations of the same tokens are both what the parser returns.
-/

namespace Reckon
namespace Grammar

/-- The next token, if there is one, does not pass the test. -/
def Ends (grows : TokenKind → Bool) (rest : List Token) : Prop :=
  ∀ t ∈ rest.head?, grows t.kind = false

/-- What may follow an atom and belong to it; likewise for the rules below. -/
def extendsAtom (k : TokenKind) : Bool := k = .leftBracket

def extendsProduct (k : TokenKind) : Bool := extendsAtom k || (productOperator k).isSome

def extendsSum (k : TokenKind) : Bool := extendsProduct k || (sumOperator k).isSome

def isRelation : TokenKind → Bool
  | .relation _ => true
  | _ => false

def extendsComparison (k : TokenKind) : Bool := extendsSum k || isRelation k

def extendsConjunction (k : TokenKind) : Bool :=
  extendsComparison k || (conjunctionOperator k).isSome

def extendsDisjunction (k : TokenKind) : Bool :=
  extendsConjunction k || (disjunctionOperator k).isSome

def extendsLine (k : TokenKind) : Bool := extendsDisjunction k || k = .assign

/-- Every derivation from `rule` that costs at most `bound` is read, if the room is enough. -/
def Complete (rule : Rule) (bound : Nat) (grows : TokenKind → Bool) (p : Parser) : Prop :=
  ∀ ⦃room ts t rest⦄, Derives rule ts t → t.cost ≤ bound → t.cost ≤ room → Ends grows rest →
    p room (ts ++ rest) = .ok (t, rest)

section
variable {rule operand : Rule} {operator : TokenKind → Option Rule} {atom p : Parser}
  {room bound limit : Nat} {toks rest ts : List Token} {t u : Tree} {xs : List Tree}
  {grows grows' : TokenKind → Bool}

theorem ends_nil : Ends grows [] := by
  intro t h
  cases h

theorem ends_cons {t : Token} : Ends grows (t :: rest) ↔ grows t.kind = false := by
  simp [Ends]

theorem Ends.mono (h : Ends grows rest) (le : ∀ k, grows' k → grows k) :
    Ends grows' rest := by
  intro t mem
  cases ext : grows' t.kind with
  | false => rfl
  | true => exact absurd (le _ ext) (by simp [h t mem])

/-- Reading a chain up to some operand leaves the loop with the chain so far, and with the room
less one level for every operator. -/
theorem chain_eq_chainFrom (c : IsChain rule operand operator)
    (complete : Complete operand bound grows p)
    (apart : ∀ {k op}, operator k = some op → grows k = false)
    (h : Chain rule operand operator ts t) (small : t.cost ≤ bound) (fits : t.cost ≤ room)
    (ends : Ends grows rest) :
    chain rule operator p room (ts ++ rest) =
      chainFrom rule operator p (room - t.links) t rest := by
  induction h generalizing rest with
  | first derived =>
    rw [c.cost_first] at small fits
    rw [c.links_first derived, Nat.sub_zero, chain, complete derived small fits ends]
    rfl
  | @next ts us t u o op _ sign derived ih =>
    rw [c.cost_next sign] at small fits
    have room' : room - t.links = room - (t.links + 1) + 1 := by omega
    rw [List.append_assoc, List.cons_append, c.links_next sign,
      ih (by omega) (by omega) (ends_cons.2 (apart sign)), room', chainFrom, sign]
    dsimp only
    rw [complete derived (by omega) (by omega) ends]
    rfl

theorem chain_complete (c : IsChain rule operand operator)
    (complete : Complete operand bound grows p)
    (apart : ∀ {k op}, operator k = some op → grows k = false) :
    Complete rule bound (fun k => grows k || (operator k).isSome) (chain rule operator p) := by
  intro room ts t rest derived small fits ends
  rw [chain_eq_chainFrom c complete apart (c.derives_iff.1 derived) small fits
    (ends.mono fun k h => by simp [h])]
  cases rest with
  | nil => rw [chainFrom]
  | cons o rest =>
    have none : operator o.kind = none := by
      have := ends_cons.1 ends
      simpa using (Bool.or_eq_false_iff.1 this).2
    rw [chainFrom, none]

theorem product_complete (complete : Complete .atom bound extendsAtom atom) :
    Complete .product bound extendsProduct (product atom) := by
  apply chain_complete isChain_product complete
  intro k op sign
  rcases productOperator_eq_some.1 sign with ⟨rfl, rfl⟩ | ⟨rfl, rfl⟩ <;> rfl

theorem sum_complete (complete : Complete .atom bound extendsAtom atom) :
    Complete .sum bound extendsSum (sum atom) := by
  apply chain_complete isChain_sum (product_complete complete)
  intro k op sign
  rcases sumOperator_eq_some.1 sign with ⟨rfl, rfl⟩ | ⟨rfl, rfl⟩ <;> rfl

theorem arithExpr_complete (complete : Complete .atom bound extendsAtom atom) :
    Complete .arithExpr bound extendsSum (arithExpr atom) := by
  intro room ts t rest derived small fits ends
  obtain ⟨u, sum, rfl⟩ := derives_arithExpr.1 derived
  rw [cost_plain (by decide)] at small fits
  rw [arithExpr, wrapped, sum_complete complete sum small fits ends]
  rfl

theorem comparison_complete (complete : Complete .atom bound extendsAtom atom) :
    Complete .comparison bound extendsComparison (comparison atom) := by
  intro room ts t rest derived small fits ends
  have sumEnds : Ends extendsSum rest := ends.mono fun k h => by simp [extendsComparison, h]
  obtain ⟨u, arith | ⟨op, relation⟩, rfl⟩ := derives_comparison.1 derived
  all_goals rw [cost_plain (by decide)] at small fits
  · rw [comparison, arithExpr_complete complete arith small fits sumEnds]
    match rest, ends with
    | [], _ => rfl
    | ⟨k, _, _⟩ :: _, ends =>
      cases k <;> first | rfl | simp [ends_cons, extendsComparison, isRelation] at ends
  · obtain ⟨us, left, ⟨_, _, _⟩, vs, right, hl, rfl, hr, rfl, rfl⟩ := (derives_binary rfl).1 relation
    rw [cost_relation] at small fits
    rw [comparison, List.append_assoc, List.cons_append,
      arithExpr_complete complete hl (by omega) (by omega) (ends_cons.2 rfl), ok_bind]
    dsimp only
    rw [arithExpr_complete complete hr (by omega) (by omega) sumEnds]
    rfl

/-- Where no `not` is ahead, a negation is a comparison. -/
theorem negation_of_ne_not (h : ∀ t ∈ toks.head?, t.kind ≠ .not) :
    negation atom room toks = wrapped .negation (comparison atom) room toks := by
  rw [negation]
  intro text span more eq
  subst eq
  exact h _ rfl rfl

theorem negation_complete (complete : Complete .atom bound extendsAtom atom) :
    Complete .negation bound extendsComparison (negation atom) := by
  intro room ts t rest derived small fits ends
  induction room using Nat.strongRecOn generalizing ts t with
  | ind room ih =>
    obtain ⟨u, comparison | notOp, rfl⟩ := derives_negation.1 derived
    all_goals rw [cost_plain (by decide)] at small fits
    · obtain ⟨first, more, rfl, kind⟩ := comparison.exists_first (by decide)
      have notNot : first.kind ≠ .not := by
        intro eq
        rw [eq] at kind
        exact absurd kind (by decide)
      rw [negation_of_ne_not (by simpa using notNot), wrapped,
        comparison_complete complete comparison small fits ends]
      rfl
    · obtain ⟨⟨_, text, span⟩, us, v, rfl, operand, rfl, rfl⟩ := (derives_unary rfl).1 notOp
      rw [cost_charged (by decide)] at small fits
      obtain ⟨room, rfl⟩ : ∃ r, room = r + 1 := ⟨room - 1, by omega⟩
      rw [List.cons_append, negation, ih room (Nat.lt_succ_self _) operand (by omega) (by omega)]
      rfl

theorem disjunction_complete (complete : Complete .atom bound extendsAtom atom) :
    Complete .disjunction bound extendsDisjunction (disjunction atom) := by
  have conjunction : Complete .conjunction bound extendsConjunction (conjunction atom) := by
    apply chain_complete isChain_conjunction (negation_complete complete)
    intro k op sign
    obtain ⟨rfl, rfl⟩ := conjunctionOperator_eq_some.1 sign
    rfl
  apply chain_complete isChain_disjunction conjunction
  intro k op sign
  obtain ⟨rfl, rfl⟩ := disjunctionOperator_eq_some.1 sign
  rfl

theorem logicExpr_complete (complete : Complete .atom bound extendsAtom atom) :
    Complete .logicExpr (bound + 1) extendsDisjunction (logicExpr atom) := by
  intro room ts t rest derived small fits ends
  obtain ⟨u, disjunction, rfl⟩ := derives_logicExpr.1 derived
  rw [cost_charged (by decide)] at small fits
  obtain ⟨room, rfl⟩ : ∃ r, room = r + 1 := ⟨room - 1, by omega⟩
  rw [logicExpr, nested, wrapped,
    disjunction_complete complete disjunction (by omega) (by omega) ends]
  rfl

theorem indices_complete (complete : Complete .atom bound extendsAtom atom)
    (ends : Ends extendsAtom rest) (h : Matches (.many .index) ts xs) :
    ∀ tokens : List Token, (ts ++ rest).length ≤ tokens.length →
      Tree.costAll xs ≤ bound → Tree.costAll xs ≤ room →
      indices atom room tokens (ts ++ rest) = .ok (xs, rest) := by
  refine Matches.many_induction (P := fun ts xs =>
    ∀ tokens : List Token, (ts ++ rest).length ≤ tokens.length →
      Tree.costAll xs ≤ bound → Tree.costAll xs ≤ room →
      indices atom room tokens (ts ++ rest) = .ok (xs, rest)) ?_ ?_ h
  · intro tokens _ _ _
    rw [List.nil_append, indices]
    intro _ _ text span more _ eq
    subst eq
    simp [ends_cons, extendsAtom] at ends
  · intro ts us xs ys index _ ih tokens enough small fits
    obtain ⟨⟨_, text, span⟩, vs, v, c, rfl, derived, close, rfl, rfl⟩ := matches_enclosed.1 index
    simp only [List.singleton_append, Tree.costAll] at small fits
    cases tokens with
    | nil => simp at enough
    | cons _ tokens =>
      have enough : (us ++ rest).length ≤ tokens.length := by
        simp only [List.cons_append, List.length_cons, List.length_append] at enough ⊢
        omega
      simp only [List.cons_append, List.append_assoc, List.nil_append, indices]
      rw [arithExpr_complete complete derived (by omega) (by omega)
        (ends_cons.2 (by rw [close]; rfl)), ok_bind]
      dsimp only
      rw [expect, if_pos close, ok_bind, ih tokens enough (by omega) (by omega)]
      rfl

/-- Atoms inside atoms cost at least one level less. -/
theorem atomAround_complete (complete : Complete .atom bound extendsAtom atom) :
    Complete .atom (bound + 1) extendsAtom (atomAround atom) := by
  intro room ts t rest derived small fits ends
  rcases derives_atom.1 derived with ⟨k, ⟨_, text, span⟩, literal, rfl, rfl, rfl⟩ |
      ⟨u, reference | negAtom | bracketed, rfl⟩
  all_goals
    rw [cost_charged (by decide)] at small fits
    obtain ⟨room, rfl⟩ : ∃ r, room = r + 1 := ⟨room - 1, by omega⟩
  · cases k with
    | varName => cases literal
    | int | signedFloat | true | false => rfl
  · obtain ⟨⟨_, text, span⟩, us, xs, rfl, many, rfl, rfl⟩ := derives_variable.1 reference
    rw [cost_uncharged (by decide), Tree.costAll, cost_leaf] at small fits
    rw [List.cons_append, atomAround, nested]
    dsimp only
    rw [indices_complete complete ends many _ (Nat.le_refl _) (by omega) (by omega)]
    rfl
  · obtain ⟨⟨_, text, span⟩, us, v, rfl, operand, rfl, rfl⟩ := (derives_unary rfl).1 negAtom
    rw [cost_plain (by decide)] at small fits
    rw [List.cons_append, atomAround, nested]
    dsimp only
    rw [complete operand (by omega) (by omega) ends]
    rfl
  · obtain ⟨⟨_, text, span⟩, us, v, c, rfl, inner, close, rfl, rfl⟩ := derives_bracketed.1 bracketed
    rw [cost_plain (by decide)] at small fits
    have closes : Ends extendsDisjunction (c :: rest) := ends_cons.2 (by rw [close]; rfl)
    rw [List.cons_append, List.append_assoc, List.singleton_append, atomAround, nested]
    dsimp only
    rw [logicExpr_complete complete inner (by omega) (by omega) closes, ok_bind]
    dsimp only
    rw [expect, if_pos close]
    rfl

theorem atomUpTo_complete (bound : Nat) : Complete .atom bound extendsAtom (atomUpTo bound) := by
  induction bound with
  | zero =>
    intro room ts t rest derived small _ _
    obtain ⟨parts, _, rfl⟩ := derives_iff.1 derived
    rw [cost_node (by decide), if_pos (by decide)] at small
    omega
  | succ bound ih => exact atomAround_complete ih

/-- Where no assignment is ahead, a line is an expression. -/
theorem line_of_ne_assign (h : ∀ t ∈ toks.tail.head?, t.kind ≠ .assign) :
    line atom room toks = wrapped .line (logicExpr atom) room toks := by
  unfold line
  split
  next => exact absurd rfl (h _ rfl)
  next => rfl

theorem line_complete (complete : Complete .atom bound extendsAtom atom) :
    Complete .line (bound + 1) extendsLine (line atom) := by
  intro room ts t rest derived small fits ends
  have exprEnds : Ends extendsDisjunction rest := ends.mono fun k h => by simp [extendsLine, h]
  obtain ⟨u, assign | expression, rfl⟩ := derives_line.1 derived
  all_goals rw [cost_plain (by decide)] at small fits
  · obtain ⟨⟨_, name, nameSpan⟩, ⟨_, sign, signSpan⟩, us, v, rfl, rfl, value, rfl, rfl⟩ :=
      derives_assignVar.1 assign
    rw [cost_uncharged (by decide)] at small fits
    simp only [Tree.costAll, cost_leaf] at small fits
    rw [List.cons_append, List.cons_append, line]
    rw [logicExpr_complete complete value (by omega) (by omega) exprEnds]
    rfl
  · have noAssign : ∀ t ∈ (ts ++ rest).tail.head?, t.kind ≠ .assign := by
      obtain ⟨first, more, rfl, _⟩ := expression.exists_first (by decide)
      intro t mem
      cases more with
      | nil =>
        intro eq
        have := ends t mem
        simp [extendsLine, eq] at this
      | cons second more =>
        refine expression.ne_assign t ?_
        simp only [List.cons_append, List.tail_cons, List.head?_cons, Option.mem_some_iff] at mem
        simp [mem]
    rw [line_of_ne_assign noAssign, wrapped,
      logicExpr_complete complete expression small fits exprEnds]
    rfl

theorem lines_complete (complete : Complete .atom bound extendsAtom atom) (h : Lines ts xs)
    {tokens : List Token} (enough : ts.length ≤ tokens.length)
    (small : Tree.costAll xs ≤ bound + 1) (fits : Tree.costAll xs ≤ room) :
    lines atom room tokens ts = .ok (xs, []) := by
  induction h generalizing tokens with
  | nil =>
    rw [lines]
    intro _ _ _ _ _ eq
    cases eq
  | newline kind _ ih =>
    cases tokens with
    | nil => cases enough
    | cons _ tokens =>
      rw [lines, if_pos kind]
      exact ih (Nat.le_of_succ_le_succ enough) small fits
  | @line us ts u xs derived ends _ ih =>
    obtain ⟨first, more, rfl, _⟩ := derived.exists_first (by decide)
    have kind : first.kind ≠ .newline := derived.ne_newline (by decide) first (by simp)
    have lineEnds : Ends extendsLine ts := by
      intro t mem
      rw [ends t mem]
      rfl
    simp only [Tree.costAll] at small fits
    cases tokens with
    | nil => cases enough
    | cons _ tokens =>
      have enough : ts.length ≤ tokens.length := by
        simp only [List.cons_append, List.length_cons, List.length_append] at enough
        omega
      rw [List.cons_append, lines, if_neg kind, ← List.cons_append,
        line_complete complete derived (by omega) (by omega) lineEnds, ok_bind]
      dsimp only
      rw [endOfLine_eq_ok.2 ends, ok_bind, ih enough (by omega) (by omega)]
      rfl

theorem block_complete (complete : Complete .atom bound extendsAtom atom)
    (derived : Derives .block ts t) (small : t.cost ≤ bound + 1) (fits : t.cost ≤ room) :
    block atom room ts = .ok (t, []) := by
  obtain ⟨xs, whole, rfl⟩ := derives_block.1 derived
  rw [cost_uncharged (by decide)] at small fits
  rw [block, lines_complete complete whole (Nat.le_refl _) small fits]
  rfl

theorem Start.parser_complete {start : Start} (derived : Derives start.rule ts t)
    (fits : t.cost ≤ limit) : start.parser (atomUpTo limit) limit ts = .ok (t, []) := by
  have complete := atomUpTo_complete limit
  have whole : ts = ts ++ [] := (List.append_nil ts).symm
  cases start with
  | program => exact block_complete complete derived (by omega) fits
  | line =>
    rw [whole]
    exact line_complete complete derived (by omega) fits ends_nil
  | expression =>
    rw [whole]
    exact logicExpr_complete complete derived (by omega) fits ends_nil
  | arith =>
    rw [whole]
    exact arithExpr_complete complete derived fits fits ends_nil

theorem parseTokens_eq_ok_iff {start : Start} :
    parseTokens start limit toks = .ok t ↔ Derives start.rule toks t ∧ t.cost ≤ limit := by
  constructor
  · exact parseTokens_sound
  · rintro ⟨derived, fits⟩
    rw [parseTokens, Start.parser_complete derived fits]
    rfl

end

end Grammar
end Reckon
