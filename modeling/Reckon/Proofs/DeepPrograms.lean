import Reckon.Proofs.Coverage
import Reckon.Proofs.DepthBound
import Reckon.Proofs.Nesting

/-!
Programs that are as deep as the bound allows. An index inside an index puts chains around chains,
and every chain is as long as the level it is read at permits, with the deepest operand first. Names
are the only terminals in them, and a name compiles whatever its text, so the programs compile at any
length with levels enough.
-/

namespace Reckon

open Grammar

namespace Deep

/-- `n` operators after `ks`, each with a name as the smallest operand. -/
def chained (k : TokenKind) (ks : List TokenKind) : Nat → List TokenKind
  | 0 => ks
  | n + 1 => chained k ks n ++ [k, .name]

/-- An arithmetic expression that is read within `c + 1` levels. -/
def arith : Nat → List TokenKind
  | 0 => [.name]
  | c + 1 =>
    let index := .name :: .leftBracket :: (arith c ++ [.rightBracket])
    chained .plus (chained .star index (c + 1)) (c + 1)

/-- A comparison in chains that is read within `c + 1` levels. -/
def logic (c : Nat) : List TokenKind :=
  chained .or (chained .and (arith c ++ [.relation .less, .name]) c) c

/-- A program that is read within `c + 2` levels. -/
def program (c : Nat) : List TokenKind := .name :: .assign :: logic c

/-- Tokens of these kinds have a derivation that is read within `cost` levels and takes at least
`levels` to compile. -/
def Reaches (r : Rule) (ks : List TokenKind) (cost levels : Nat) : Prop :=
  ∀ toks : List Token, toks.map (·.kind) = ks →
    ∃ t, Derives r toks t ∧ t.cost ≤ cost ∧ levels ≤ t.levels .standard

section
variable {r s rule operand op : Rule} {operator : TokenKind → Option Rule} {k : TokenKind}
  {ks : List TokenKind} {cost levels n : Nat}

theorem Reaches.wrapped (h : Reaches s ks cost levels) (transparent : r.construct? = none)
    (plain : r ∉ linkRules ∧ r ∉ chargedRules) (mem : s ∈ r.body.rules) :
    Reaches r ks cost levels := by
  intro toks kinds
  obtain ⟨t, derived, cheap, deep⟩ := h toks kinds
  refine ⟨r.node [t], .rule (matches_of_mem_rules mem derived), ?_, ?_⟩
  · rw [cost_plain plain]
    exact cheap
  · rw [levels_transparent transparent]
    exact deep

theorem Reaches.charged (h : Reaches s ks cost levels) (transparent : r.construct? = none)
    (charged : r ∈ chargedRules) (mem : s ∈ r.body.rules) : Reaches r ks (cost + 1) levels := by
  intro toks kinds
  obtain ⟨t, derived, cheap, deep⟩ := h toks kinds
  refine ⟨r.node [t], .rule (matches_of_mem_rules mem derived), ?_, ?_⟩
  · rw [cost_charged charged]
    omega
  · rw [levels_transparent transparent]
    exact deep

/-- Operators are free until there are as many as the first operand takes levels. -/
theorem Reaches.chained (first : Reaches operand ks cost levels)
    (c : IsChain rule operand operator) (transparent : rule.construct? = none)
    (sign : operator k = some op) (one : Reaches operand [.name] 1 1) (few : n < cost) :
    Reaches rule (chained k ks n) cost (levels + n) := by
  obtain ⟨b, construct⟩ := isBinary_of_mem_linkRules (c.links sign)
  -- A chain of `n` operators takes at least `n + 1` levels to read, even if its first operand
  -- does not.
  have chain (n : Nat) (toks : List Token) (kinds : toks.map (·.kind) = Deep.chained k ks n) :
      ∃ t, Chain rule operand operator toks t ∧ t.links = n ∧ t.cost ≤ max cost (n + 1) ∧
        levels + n ≤ t.levels .standard := by
    induction n generalizing toks with
    | zero =>
      obtain ⟨t, derived, cheap, deep⟩ := first toks kinds
      refine ⟨_, .first derived, c.links_first derived, ?_, ?_⟩
      · rw [c.cost_first]
        omega
      · rw [levels_transparent transparent]
        exact deep
    | succ n ih =>
      obtain ⟨ts, rest, rfl, before, last⟩ := List.map_eq_append_iff.1 kinds
      obtain ⟨o, us, rfl, ho, hu⟩ := List.map_eq_cons_iff.1 last
      obtain ⟨t, derived, links, cheap, deep⟩ := ih ts before
      obtain ⟨u, derivedU, cheapU, _⟩ := one us hu
      have kind : operator o.kind = some op := by rw [ho, sign]
      refine ⟨_, .next derived kind derivedU, ?_, ?_, ?_⟩
      · rw [c.links_next kind, links]
      · rw [c.cost_next kind, links]
        omega
      · rw [levels_transparent transparent, levels_binary construct]
        omega
  intro toks kinds
  obtain ⟨t, derived, _, cheap, deep⟩ := chain n toks kinds
  exact ⟨t, c.derives_iff.2 derived, by omega, deep⟩

theorem name_atom : Reaches .atom [.name] 1 1 := by
  have reference : Reaches .variable [.name] 0 1 := by
    intro toks kinds
    obtain ⟨name, rest, rfl, kind, none⟩ := List.map_eq_cons_iff.1 kinds
    obtain rfl := List.map_eq_nil_iff.1 none
    refine ⟨_, derives_variable.2 ⟨name, [], [], kind, .done, rfl, rfl⟩, ?_, ?_⟩
    · rw [cost_uncharged (by decide)]
      simp only [Tree.costAll, cost_leaf]
      exact Nat.le_refl 0
    · rw [levels_named (.inr rfl)]
      exact Nat.le_add_left 1 _
  exact reference.charged rfl (by decide) (by decide)

theorem name_product : Reaches .product [.name] 1 1 :=
  name_atom.wrapped rfl (by decide) (by decide)

theorem name_sum : Reaches .sum [.name] 1 1 :=
  name_product.wrapped rfl (by decide) (by decide)

theorem name_arithExpr : Reaches .arithExpr [.name] 1 1 :=
  name_sum.wrapped rfl (by decide) (by decide)

theorem name_comparison : Reaches .comparison [.name] 1 1 :=
  name_arithExpr.wrapped rfl (by decide) (by decide)

theorem name_negation : Reaches .negation [.name] 1 1 :=
  name_comparison.wrapped rfl (by decide) (by decide)

theorem name_conjunction : Reaches .conjunction [.name] 1 1 :=
  name_negation.wrapped rfl (by decide) (by decide)

/-- An index takes a level on either count. -/
theorem Reaches.indexed (h : Reaches .arithExpr ks cost levels) :
    Reaches .atom (.name :: .leftBracket :: (ks ++ [.rightBracket])) (cost + 1) (levels + 1) := by
  have reference : Reaches .variable (.name :: .leftBracket :: (ks ++ [.rightBracket])) cost
      (levels + 1) := by
    intro toks kinds
    obtain ⟨name, rest, rfl, hn, kinds⟩ := List.map_eq_cons_iff.1 kinds
    obtain ⟨o, rest, rfl, ho, kinds⟩ := List.map_eq_cons_iff.1 kinds
    obtain ⟨us, last, rfl, hu, kinds⟩ := List.map_eq_append_iff.1 kinds
    obtain ⟨c, none, rfl, hc, empty⟩ := List.map_eq_cons_iff.1 kinds
    obtain rfl := List.map_eq_nil_iff.1 empty
    obtain ⟨u, derived, cheap, deep⟩ := h us hu
    have index : Matches (.many .index) (o :: (us ++ [c]) ++ []) ([u] ++ []) :=
      .more (matches_enclosed.2 ⟨o, us, u, c, ho, derived, hc, rfl, rfl⟩) .done
    rw [List.append_nil] at index
    refine ⟨_, derives_variable.2 ⟨name, _, [u], hn, index, rfl, rfl⟩, ?_, ?_⟩
    · rw [cost_uncharged (by decide)]
      simp only [Tree.costAll, cost_leaf]
      omega
    · rw [levels_named (.inr rfl), levelsAll_single]
      omega
  exact reference.charged rfl (by decide) (by decide)

theorem square_add_two (c : Nat) : (c + 2) * (c + 2) = (c + 1) * (c + 1) + 2 * (c + 1) + 1 := by
  rw [← square_succ, Nat.add_comm 1]

theorem arith_reaches (c : Nat) : Reaches .sum (arith c) (c + 1) ((c + 1) * (c + 1)) := by
  induction c with
  | zero => exact name_sum
  | succ c ih =>
    have inner : Reaches .arithExpr (arith c) (c + 1) ((c + 1) * (c + 1)) :=
      ih.wrapped rfl (by decide) (by decide)
    have product := inner.indexed.chained isChain_product rfl (k := .star) rfl name_atom
      (Nat.lt_succ_self (c + 1))
    have sum := product.chained isChain_sum rfl (k := .plus) rfl name_product
      (Nat.lt_succ_self (c + 1))
    have square : (c + 2) * (c + 2) = (c + 1) * (c + 1) + 1 + (c + 1) + (c + 1) := by
      rw [square_add_two]
      omega
    rw [square]
    exact sum

/-- A comparison takes a level to compile but none to read. -/
theorem Reaches.compared (h : Reaches .arithExpr ks cost levels) (pos : 0 < cost) :
    Reaches .comparison (ks ++ [.relation .less, .name]) cost (levels + 1) := by
  have relation : Reaches (.relation .less) (ks ++ [.relation .less, .name]) cost
      (levels + 1) := by
    intro toks kinds
    obtain ⟨ts, rest, rfl, left, last⟩ := List.map_eq_append_iff.1 kinds
    obtain ⟨o, us, rfl, ho, hu⟩ := List.map_eq_cons_iff.1 last
    obtain ⟨t, derived, cheap, deep⟩ := h ts left
    obtain ⟨u, derivedU, cheapU, _⟩ := name_arithExpr us hu
    refine ⟨_, (derives_binary rfl).2
      ⟨ts, t, o, us, u, derived, ho, derivedU, rfl, rfl⟩, ?_, ?_⟩
    · rw [cost_relation]
      omega
    · rw [levels_binary rfl]
      omega
  exact relation.wrapped rfl (by decide) (by decide)

theorem logic_reaches (c : Nat) :
    Reaches .logicExpr (logic c) (c + 2) ((c + 1) * (c + 1) + 1 + c + c) := by
  have arith : Reaches .arithExpr (arith c) (c + 1) ((c + 1) * (c + 1)) :=
    (arith_reaches c).wrapped rfl (by decide) (by decide)
  have negation : Reaches .negation _ (c + 1) ((c + 1) * (c + 1) + 1) :=
    (arith.compared (Nat.succ_pos c)).wrapped rfl (by decide) (by decide)
  have conjunction := negation.chained isChain_conjunction rfl (k := .and) rfl name_negation
    (Nat.lt_succ_self c)
  have disjunction := conjunction.chained isChain_disjunction rfl (k := .or) rfl name_conjunction
    (Nat.lt_succ_self c)
  exact disjunction.charged rfl (by decide) (by decide)

theorem program_reaches (c : Nat) :
    Reaches .block (program c) (c + 2) ((c + 2) * (c + 2)) := by
  intro toks kinds
  obtain ⟨name, rest, rfl, hn, kinds⟩ := List.map_eq_cons_iff.1 kinds
  obtain ⟨o, us, rfl, ho, kinds⟩ := List.map_eq_cons_iff.1 kinds
  obtain ⟨u, derived, cheap, deep⟩ := logic_reaches c us kinds
  have assigned : Derives .assignVar (name :: o :: us) _ := derives_assignVar.2
    ⟨name, o, us, u, hn, ho, derived, rfl, rfl⟩
  have lines := Lines.line (derives_line.2 ⟨_, .inl assigned, rfl⟩) (by simp [EndsLine]) .nil
  rw [List.append_nil] at lines
  refine ⟨_, derives_block.2 ⟨_, lines, rfl⟩, ?_, ?_⟩
  · rw [cost_plain (by decide), cost_plain (by decide), cost_uncharged (by decide)]
    simp only [Tree.costAll, cost_leaf]
    omega
  · rw [levels_block, levelsAll_single, levels_transparent rfl, levels_named (.inl rfl),
      levelsAll_single]
    have square := square_add_two c
    omega

end

/-- The kinds of tokens in the programs. -/
def alphabet : List TokenKind :=
  [.name, .star, .plus, .relation .less, .and, .or, .assign, .leftBracket, .rightBracket]

theorem chained_subset {k : TokenKind} {ks : List TokenKind} (h : ks ⊆ alphabet)
    (mem : k ∈ alphabet) (n : Nat) : chained k ks n ⊆ alphabet := by
  induction n with
  | zero => exact h
  | succ n ih =>
    refine List.append_subset.2 ⟨ih, List.cons_subset.2 ⟨mem, ?_⟩⟩
    exact List.cons_subset.2 ⟨by decide, List.nil_subset _⟩

theorem arith_subset (c : Nat) : arith c ⊆ alphabet := by
  induction c with
  | zero => decide
  | succ c ih =>
    refine chained_subset (chained_subset ?_ (by decide) _) (by decide) _
    refine List.cons_subset.2 ⟨by decide, List.cons_subset.2 ⟨by decide, ?_⟩⟩
    exact List.append_subset.2 ⟨ih, by decide⟩

theorem program_subset (c : Nat) : program c ⊆ alphabet := by
  refine List.cons_subset.2 ⟨by decide, List.cons_subset.2 ⟨by decide, ?_⟩⟩
  refine chained_subset (chained_subset ?_ (by decide) _) (by decide) _
  exact List.append_subset.2 ⟨arith_subset c, by decide⟩

/-- A token of the kind; all names are the same. -/
def written (k : TokenKind) : TokenKind × String := (k, k.spelling?.getD "a")

theorem spells_written {k : TokenKind} (mem : k ∈ alphabet) :
    Token.Spells (written k).1 (written k).2.toList := by
  cases k with
  | name => exact ⟨⟨rfl, nofun⟩, by decide⟩
  | int | float => exact absurd mem (by decide)
  | _ => exact congrArg some String.ofList_toList.symm

theorem eq_varName_of_mem_alphabet {k : Terminal} (mem : k.kind ∈ alphabet) : k = .varName := by
  cases k <;> first | rfl | exact absurd mem (by decide)

end Deep

/-- Names are not refused, whatever their text. -/
theorem Grammar.Derives.findSome?_refusal?_eq_none {r : Rule} {ts : List Token} {t : Tree}
    (h : Derives r ts t) (among : ts.map (·.kind) ⊆ Deep.alphabet) :
    t.leaves.findSome? Leaf.refusal? = none := by
  refine List.findSome?_eq_none_iff.2 fun l mem => ?_
  obtain ⟨tok, given, k, kind, rfl⟩ := h.exists_token mem
  have name := among (List.mem_map_of_mem given)
  rw [kind] at name
  rw [Deep.eq_varName_of_mem_alphabet name, Leaf.refusal?_varName]

/-- Where no literal is refused, too few levels are the only reason not to compile. -/
theorem Grammar.Derives.compile_eq_depthExceeded {r : Rule} {ts : List Token} {t : Tree}
    {limit : Nat} (h : Derives r ts t) (kept : t.leaves.findSome? Leaf.refusal? = none)
    (few : limit < t.levels .standard) :
    t.compile .standard limit = .error (.depthExceeded limit) := by
  have covered : Covered limit t.leaves (t.compile .standard limit) := h.compile_covered
  have gauged := t.compile_gauged .standard limit
  generalize t.compile .standard limit = result at covered gauged ⊢
  cases covered with
  | ok _ => exact absurd few (Nat.not_lt.2 (gauged.enough rfl))
  | tooDeep => rfl
  | refused first =>
    rw [kept] at first
    cases first

/-- A program that is read within a limit is not too deep to be compiled within the square of the
limit, and from two on the square is the least number of which that holds. -/
theorem compile_depth_square :
    (∀ (source : String) (limit : Nat) (t : Tree), parse source .program limit = .ok t →
      ∀ n, t.compile .standard (max 1 (limit * limit)) ≠ .error (.depthExceeded n)) ∧
    ∀ limit ≥ 2, ∃ source t, parse source .program limit = .ok t ∧
      ∀ fewer < limit * limit, t.compile .standard fewer = .error (.depthExceeded fewer) := by
  refine ⟨?_, ?_⟩
  · intro source limit t read n tooDeep
    obtain ⟨toks, _, derived, fits⟩ := parse_eq_ok_iff.1 read
    have few := (t.compile_gauged .standard _).tooFew tooDeep
    have levels := block_levels derived
    have squares := square_mono fits
    omega
  · intro limit two
    obtain ⟨c, rfl⟩ := Nat.exists_eq_add_of_le' two
    have among := Deep.program_subset c
    have spelled : ∀ p ∈ (Deep.program c).map Deep.written, Token.Spells p.1 p.2.toList :=
      List.forall_mem_map.2 fun k mem => Deep.spells_written (among mem)
    obtain ⟨toks, scanned, kinds, _⟩ := Token.scan_spaced spelled
    rw [List.map_map, show Prod.fst ∘ Deep.written = id from rfl, List.map_id] at kinds
    obtain ⟨t, derived, cheap, deep⟩ := Deep.program_reaches c toks kinds
    refine ⟨_, t, parse_eq_ok_iff.2 ⟨toks, scanned, derived, cheap⟩, ?_⟩
    intro fewer lt
    exact derived.compile_eq_depthExceeded (derived.findSome?_refusal?_eq_none (kinds ▸ among))
      (Nat.lt_of_lt_of_le lt deep)

theorem compile_depth_square_three :
    ∃ t, parse "x = a[1]*1+1<1 and 1 or 1" .program 3 = .ok t ∧
      ∀ n, t.compile .standard 9 ≠ .error (.depthExceeded n) :=
  ⟨_, rfl, compile_depth_square.1 "x = a[1]*1+1<1 and 1 or 1" 3 _ rfl⟩

/-- Two levels more than for reading are not enough. -/
theorem compile_depth_add_two_fails :
    ∃ t, parse "x = a[1]*1+1<1 and 1 or 1" .program 3 = .ok t ∧
      t.compile .standard (3 + 2) = .error (.depthExceeded (3 + 2)) :=
  ⟨_, rfl, rfl⟩

end Reckon
