import Reckon.Proofs.AtomicLines
import Reckon.Proofs.IntegerPrograms
import Reckon.Proofs.Partings
import Reckon.Proofs.Substitution

/-!
Redundant parentheses. An atom or a logic expression in parentheses is an atom and a logic
expression again, the parentheses are compiled away, and they touch nothing around them: written at
any place of a program where there is one, they leave the expression that it compiles to.
-/

namespace Reckon

open Grammar

namespace Grammar

section
variable {r q : Rule} {ts : List Token} {t : Tree} {o c : Token}

theorem Derives.text?_eq_none (h : Derives r ts t) : t.text? = none := by
  obtain ⟨parts, _, rfl⟩ := derives_iff.1 h
  rfl

theorem DerivesLike.transparent (h : DerivesLike r ts t) (transparent : q.construct? = none)
    (mem : r ∈ q.body.rules) : DerivesLike q ts t := by
  obtain ⟨u, derived, alike⟩ := h
  have rule : t.text? = none := alike.text.trans derived.text?_eq_none
  refine ⟨q.node [u], .rule (matches_of_mem_rules mem derived), alike.around rule (.inl ?_)⟩
  rw [standard_get?_rule, transparent]

theorem DerivesLike.group (h : DerivesLike .logicExpr ts t) (ho : o.kind = .leftParen)
    (hc : c.kind = .rightParen) : DerivesLike .bracketed (o :: (ts ++ [c])) t := by
  obtain ⟨u, derived, alike⟩ := h
  have rule : t.text? = none := alike.text.trans derived.text?_eq_none
  refine ⟨Rule.bracketed.node [u], ?_, alike.around rule (.inr (standard_get?_rule .bracketed))⟩
  exact derives_bracketed.2 ⟨o, ts, u, c, ho, derived, hc, rfl, rfl⟩

/-- An atom is a logic expression. -/
theorem DerivesLike.logicExpr (h : DerivesLike .atom ts t) : DerivesLike .logicExpr ts t := by
  have product : DerivesLike .product ts t := h.transparent rfl (by decide)
  have sum : DerivesLike .sum ts t := product.transparent rfl (by decide)
  have arithExpr : DerivesLike .arithExpr ts t := sum.transparent rfl (by decide)
  have comparison : DerivesLike .comparison ts t := arithExpr.transparent rfl (by decide)
  have negation : DerivesLike .negation ts t := comparison.transparent rfl (by decide)
  have conjunction : DerivesLike .conjunction ts t := negation.transparent rfl (by decide)
  have disjunction : DerivesLike .disjunction ts t := conjunction.transparent rfl (by decide)
  exact disjunction.transparent rfl (by decide)

/-- A logic expression in parentheses is an atom. -/
theorem DerivesLike.atom (h : DerivesLike .logicExpr ts t) (ho : o.kind = .leftParen)
    (hc : c.kind = .rightParen) : DerivesLike .atom (o :: (ts ++ [c])) t :=
  (h.group ho hc).transparent rfl (by decide)

theorem DerivesLike.enclosed (h : DerivesLike r ts t) (kind : r = .atom ∨ r = .logicExpr)
    (ho : o.kind = .leftParen) (hc : c.kind = .rightParen) :
    DerivesLike r (o :: (ts ++ [c])) t := by
  rcases kind with rfl | rfl
  · exact h.logicExpr.atom ho hc
  · exact (h.atom ho hc).logicExpr

end

end Grammar

/-- Redundant parentheses change nothing, where spans reach the end of the source with them. If the
derivation of a program that compiles has an atom or a logic expression, the source can be parted
right before and right behind it, and with parentheses written at such places it is read, and
compiles to the same expression, under all limits that are large enough; so it runs alike on every
environment. -/
theorem parentheses_redundant (source : String) (readLimit compileLimit : Nat) (t s : Tree)
    (e : Expr) (r : Rule) (pre mid post : List Token)
    (small : source.utf8ByteSize + 2 ≤ Span.maxOffset)
    (scanned : Token.scan source = .ok (pre ++ mid ++ post))
    (read : parse source .program readLimit = .ok t)
    (compiled : t.compile .standard compileLimit = .ok e) (kind : r = .atom ∨ r = .logicExpr)
    (part : PartOf r mid s (.rule .block) pre post [t]) :
    (∃ p : Parting source pre mid post, p.IsTight) ∧
    ∀ p : Parting source pre mid post, ∃ t' enough,
      (∀ limit ≥ enough, parse p.enclosed .program limit = .ok t') ∧
      ∀ limit ≥ enough, t'.compile .standard limit = .ok e ∧
        ∀ env, t'.execute limit env = t.execute compileLimit env := by
  have inner := part.derives
  constructor
  · refine Parting.exists_tight (Nat.le_of_add_right_le small) scanned ?_
    have ne : r ≠ .block := by rcases kind with rfl | rfl <;> decide
    obtain ⟨first, others, rfl, _⟩ := inner.exists_first ne
    exact List.cons_ne_nil first others
  · intro p
    have small' : p.enclosed.utf8ByteSize ≤ Span.maxOffset := by rwa [p.size_enclosed]
    obtain ⟨toks, scanned', pieces⟩ := p.scan_enclosed small'
    obtain ⟨pre', rest, rfl, samePre, pieces'⟩ := List.map_eq_append_iff.1 pieces
    obtain ⟨run, post', rfl, run', samePost⟩ := List.map_eq_append_iff.1 pieces'
    obtain ⟨o, mid', c, ho, sameMid, hc, rfl⟩ := Term.exists_enclosed run'
    obtain ⟨t', derived', alike⟩ := matchesLike_rule.1
      (part.substitute ((inner.transfer sameMid).enclosed kind ho hc) samePre samePost)
    -- Both have the same integers, so the one compiles because the other does.
    have integers : integersOf (pre' ++ (o :: (mid' ++ [c]) ++ post')) =
        integersOf (pre ++ mid ++ post) := by
      rw [integersOf_append, integersOf_append, integersOf_enclosed (by simp [ho]) (by simp [hc]),
        integersOf_congr samePre, integersOf_congr sameMid, integersOf_congr samePost,
        List.append_assoc, integersOf_append, integersOf_append]
    have derived := derives_of_parse scanned read
    have spelled := Token.scan_spells (Nat.le_of_add_right_le small) scanned
    have fits := (derived.compiles_iff spelled
      ((t.compile_gauged .standard compileLimit).enough compiled)).1 ⟨e, compiled⟩
    rw [← integers] at fits
    refine ⟨t', max t'.cost (t'.levels .standard), ?_, ?_⟩
    · intro limit enough
      exact parse_eq_ok_iff.2 ⟨_, scanned', derived', Nat.le_trans (Nat.le_max_left _ _) enough⟩
    · intro limit enough
      obtain ⟨e', compiled'⟩ := (derived'.compiles_iff (Token.scan_spells small' scanned')
        (Nat.le_trans (Nat.le_max_right _ _) enough)).2 fits
      obtain rfl := alike.compile compiled compiled'
      refine ⟨compiled', fun env => ?_⟩
      rw [Tree.execute_eq_plain compiled, Tree.execute_eq_plain compiled']

/-- Parentheses around a name that is negated. -/
theorem parentheses_redundant_operand :
    ∃ (pre mid : List Token) (t s : Tree) (e : Expr),
      Token.scan "x = -a" = .ok (pre ++ mid ++ []) ∧ parse "x = -a" .program 3 = .ok t ∧
      t.compile .standard 4 = .ok e ∧ PartOf .atom mid s (.rule .block) pre [] [t] ∧
      (∃ p : Parting "x = -a" pre mid [], p.IsTight) ∧
      ∃ p : Parting "x = -a" pre mid [], p.enclosed = "x = -(a)" ∧ ∃ t' enough,
        (∀ limit ≥ enough, parse p.enclosed .program limit = .ok t') ∧
        ∀ limit ≥ enough, t'.compile .standard limit = .ok e ∧
          ∀ env, t'.execute limit env = t.execute 4 env := by
  let name : Token := ⟨.name, "x", ⟨0, 1⟩⟩
  let sign : Token := ⟨.assign, "=", ⟨2, 3⟩⟩
  let minus : Token := ⟨.minus, "-", ⟨4, 5⟩⟩
  let operand : Token := ⟨.name, "a", ⟨5, 6⟩⟩
  have inner : Derives .atom [operand] _ :=
    derives_atom.2 (.inr ⟨_, .inl (derives_variable.2 ⟨operand, [], [], rfl, .done, rfl, rfl⟩), rfl⟩)
  have negAtom := PartOf.rule (q := .negAtom)
    (.second (.silent (t := minus) rfl) (.here inner))
  have atom := negAtom.transparent (q := .atom) (by decide)
  have product := atom.transparent (q := .product) (by decide)
  have sum := product.transparent (q := .sum) (by decide)
  have arithExpr := sum.transparent (q := .arithExpr) (by decide)
  have comparison := arithExpr.transparent (q := .comparison) (by decide)
  have negation := comparison.transparent (q := .negation) (by decide)
  have conjunction := negation.transparent (q := .conjunction) (by decide)
  have disjunction := conjunction.transparent (q := .disjunction) (by decide)
  have logicExpr := disjunction.transparent (q := .logicExpr) (by decide)
  have assignVar := PartOf.rule (q := .assignVar)
    (.second (.seq (.terminal (t := name) rfl) (.silent (t := sign) rfl)) logicExpr)
  have line := assignVar.transparent (q := .line) (by decide)
  have block : PartOf .atom [operand] _ (.rule .block) [name, sign, minus] [] _ :=
    .rule (.first (.second .done (.right (.first line .done))) .done)
  have cutBefore : Token.Cuts ['a'] "x = -".toList ([name, sign, minus].map Token.piece) :=
    .char rfl (.blank rfl (.char rfl (.blank rfl (.char rfl .done))))
  let p : Parting "x = -a" [name, sign, minus] [operand] [] :=
    ⟨"x = -", "a", "", rfl, cutBefore, .char rfl .done, .done⟩
  obtain ⟨tight, redundant⟩ :=
    parentheses_redundant "x = -a" 3 4 _ _ _ .atom [name, sign, minus] [operand] []
      (by decide) rfl rfl rfl (.inl rfl) block
  exact ⟨_, _, _, _, _, rfl, rfl, rfl, block, tight, p, rfl, redundant p⟩

/-- Parentheses that move a number to the largest offset take its text away. -/
theorem parentheses_not_redundant :
    ∃ (one : Token) (t s : Tree) (e : Expr)
      (p : Parting (Token.spaces 4294967294 ++ "1") [] [one] []),
      Token.scan (Token.spaces 4294967294 ++ "1") = .ok [one] ∧
      parse (Token.spaces 4294967294 ++ "1") .program 2 = .ok t ∧
      t.compile .standard 2 = .ok e ∧ PartOf .logicExpr [one] s (.rule .block) [] [] [t] ∧
      p.IsTight ∧ p.enclosed = Token.spaces 4294967294 ++ "(1)" ∧
      ∀ t' limit, parse p.enclosed .program limit = .ok t' →
        ∀ limit' e', t'.compile .standard limit' ≠ .ok e' := by
  let one : Token := ⟨.int, "1", ⟨4294967294, 4294967295⟩⟩
  have digits : Token.Spells .int "1".toList := ⟨nofun, List.all_eq_true.1 rfl⟩
  have scanned : Token.scan (Token.spaces 4294967294 ++ "1") = .ok [one] :=
    Token.scan_cut_short (by decide) digits
  obtain ⟨s, expression, program, e, compiled⟩ : ∃ s,
      parse (Token.spaces 4294967294 ++ "1") .expression 2 = .ok s ∧
      parse (Token.spaces 4294967294 ++ "1") .program 2 =
        .ok (Rule.block.node [Rule.line.node [s]]) ∧
      ∃ e, (Rule.block.node [Rule.line.node [s]]).compile .standard 2 = .ok e := by
    rw [parse, parse, scanned]
    exact ⟨_, rfl, rfl, _, rfl⟩
  have line : PartOf .logicExpr [one] s (.rule .line) [] [] [Rule.line.node [s]] :=
    .transparent (.here (derives_of_parse scanned expression)) (by decide)
  have block : PartOf .logicExpr [one] s (.rule .block) [] []
      [Rule.block.node [Rule.line.node [s]]] :=
    .rule (.first (.second .done (.right (.first line .done))) .done)
  let p : Parting (Token.spaces 4294967294 ++ "1") [] [one] [] :=
    ⟨Token.spaces 4294967294, "1", "", String.append_empty.symm, Token.Cuts.spaces _,
      .token (show Token.first? (['1'] ++ []) = _ from rfl) .done, .done⟩
  have enclosed : p.enclosed = Token.spaces 4294967294 ++ "(1)" := by
    rw [Parting.enclosed, String.append_empty, String.append_assoc, String.append_assoc]
    rfl
  refine ⟨one, _, s, e, p, scanned, program, compiled, block, ?_, enclosed, ?_⟩
  · exact ⟨by simp [one, p], by simp [one, p]⟩
  · intro t' limit read limit' e'
    have cut : Token.first? (['('] ++ "1)".toList) = some (.leftParen, ['(']) := rfl
    have alone : Token.scan "1)" = .ok [⟨.int, "1", ⟨0, 1⟩⟩, ⟨.rightParen, ")", ⟨1, 2⟩⟩] := rfl
    have scanned' : Token.scan p.enclosed = .ok [Token.placed .leftParen ['('] 4294967294,
        Token.bare .int, Token.bare .rightParen] := by
      rw [enclosed, Token.scan_spaces_append]
      exact Token.scanFrom_straddling cut (by decide) alone
    exact compile_ne_ok scanned' read rfl

end Reckon
