import Reckon.Proofs.Relocation
import Reckon.Proofs.Shape
import Reckon.Proofs.Term

/-!
One derivation in place of another. Where a derivation has a run of tokens from some rule, any other
run that the rule derives can stand, and the tokens around it may stand at other places. The whole
then compiles to what it compiled to, if the part does.
-/

namespace Reckon

namespace Tree

/-- If both trees compile, with whatever levels and whatever transparent rules above them, they
compile to the same expression. -/
structure Alike (vocabulary : Vocabulary) (t u : Tree) : Prop where
  text : t.text? = u.text?
  expr : ∀ {limit room hops limit' room' hops' : Nat} {e e' : Expr},
    t.compileFrom vocabulary limit room hops = .ok e →
    u.compileFrom vocabulary limit' room' hops' = .ok e' → e = e'

section
variable {vocabulary : Vocabulary} {limit room hops limit' room' : Nat} {t u : Tree}
  {ts us : List Tree} {e e' : Expr} {es fs : List Expr}

theorem Alike.compile (h : Alike vocabulary t u) (first : t.compile vocabulary limit = .ok e)
    (second : u.compile vocabulary limit' = .ok e') : e = e' := by
  obtain ⟨_, _, first⟩ := descend_eq_ok.1 first
  obtain ⟨_, _, second⟩ := descend_eq_ok.1 second
  exact h.expr first second

theorem compileAll_alike (h : List.Forall₂ (Alike vocabulary) ts us)
    (first : compileAll vocabulary limit room ts = .ok es)
    (second : compileAll vocabulary limit' room' us = .ok fs) : es = fs := by
  induction h generalizing es fs with
  | nil =>
    cases first
    cases second
    rfl
  | cons head _ ih =>
    rw [compileAll] at first second
    obtain ⟨e, here, first⟩ := bind_eq_ok.1 first
    obtain ⟨es, others, ⟨⟩⟩ := bind_eq_ok.1 first
    obtain ⟨e', here', second⟩ := bind_eq_ok.1 second
    obtain ⟨fs, others', ⟨⟩⟩ := bind_eq_ok.1 second
    obtain ⟨_, _, here⟩ := descend_eq_ok.1 here
    obtain ⟨_, _, here'⟩ := descend_eq_ok.1 here'
    rw [head.expr here here', ih others others']

theorem headText?_alike (h : List.Forall₂ (Alike vocabulary) ts us) :
    Construct.headText? ts = Construct.headText? us := by
  cases h with
  | nil => rfl
  | cons head _ => exact head.text

/-- A node is like a node of the same name whose parts are like its own. -/
theorem Alike.rule (h : List.Forall₂ (Alike vocabulary) ts us) (name : String) :
    Alike vocabulary (.rule name ts) (.rule name us) where
  text := rfl
  expr := by
    intro limit room hops limit' room' hops' e e' first second
    have few := few_of_compileFrom first
    have few' := few_of_compileFrom second
    cases mapped : vocabulary.get? name with
    | none =>
      rw [compileFrom_transparent few mapped] at first
      rw [compileFrom_transparent few' mapped] at second
      match h with
      | .cons only .nil => exact only.expr first second
      | .nil | .cons _ (.cons _ _) => cases first
    | some c =>
      have head : c.isNamed → Construct.headText? ts = Construct.headText? us :=
        fun _ => headText?_alike h
      rw [compileFrom_construct few mapped] at first
      rw [compileFrom_construct few' mapped] at second
      rcases Construct.parts_congr h head with ⟨misfit, fits, _⟩ | ⟨ps, qs, fits, fits', parts⟩
      · rw [fits] at first
        cases first
      · rw [fits] at first
        rw [fits'] at second
        obtain ⟨es, compiled, ⟨⟩⟩ := bind_eq_ok.1 first
        obtain ⟨fs, compiled', ⟨⟩⟩ := bind_eq_ok.1 second
        rw [compileAll_alike parts compiled compiled', Construct.assemble_congr head]

/-- Where a terminal stands does not matter. -/
theorem Alike.terminal (kind text : String) (span span' : Span) :
    Alike vocabulary (.terminal kind text span) (.terminal kind text span') where
  text := rfl
  expr := by
    intro limit room hops limit' room' hops' e e' first second
    rw [compileFrom_terminal (few_of_compileFrom first)] at first
    rw [compileFrom_terminal (few_of_compileFrom second)] at second
    cases mapped : vocabulary.get? kind with
    | none =>
      rw [mapped] at first
      cases first
    | some c =>
      rw [mapped] at first second
      have moved := compileTerminal_move (g := fun _ => span') first
      exact Except.ok.inj (moved.symm.trans second)

/-- A transparent rule or a group around a tree stands for the tree. -/
theorem Alike.around {name : String} (h : Alike vocabulary t u) (rule : t.text? = none)
    (passes : vocabulary.get? name = none ∨ vocabulary.get? name = some .group) :
    Alike vocabulary t (.rule name [u]) where
  text := rule
  expr := by
    intro limit room hops limit' room' hops' e e' first second
    have few := few_of_compileFrom second
    rcases passes with mapped | mapped
    · rw [compileFrom_transparent few mapped] at second
      exact h.expr first second
    · rw [compileFrom_construct few mapped] at second
      obtain ⟨es, compiled, ⟨⟩⟩ := bind_eq_ok.1 second
      rw [compileAll_single] at compiled
      obtain ⟨e', inner, ⟨⟩⟩ := bind_eq_ok.1 compiled
      obtain ⟨_, _, inner⟩ := descend_eq_ok.1 inner
      exact h.expr first inner

end

end Tree

namespace Grammar

/-- In a derivation of `pre`, `mid` and `post`, one after the other, `mid` is derived from `r` as
`s`. -/
inductive PartOf (r : Rule) (mid : List Token) (s : Tree) :
    Form → (pre post : List Token) → List Tree → Prop where
  | here (h : Derives r mid s) : PartOf r mid s (.rule r) [] [] [s]
  | rule {q : Rule} {pre post : List Token} {parts : List Tree}
      (body : PartOf r mid s q.body pre post parts) : PartOf r mid s (.rule q) pre post [q.node parts]
  | first {a b : Form} {pre post us : List Token} {xs ys : List Tree}
      (part : PartOf r mid s a pre post xs) (second : Matches b us ys) :
      PartOf r mid s (.seq a b) pre (post ++ us) (xs ++ ys)
  | second {a b : Form} {ts pre post : List Token} {xs ys : List Tree} (first : Matches a ts xs)
      (part : PartOf r mid s b pre post ys) : PartOf r mid s (.seq a b) (ts ++ pre) post (xs ++ ys)
  | left {a b : Form} {pre post : List Token} {xs : List Tree} (part : PartOf r mid s a pre post xs) :
      PartOf r mid s (.choice a b) pre post xs
  | right {a b : Form} {pre post : List Token} {xs : List Tree}
      (part : PartOf r mid s b pre post xs) : PartOf r mid s (.choice a b) pre post xs
  | head {a : Form} {pre post us : List Token} {xs ys : List Tree}
      (part : PartOf r mid s a pre post xs) (tail : Matches (.many a) us ys) :
      PartOf r mid s (.many a) pre (post ++ us) (xs ++ ys)
  | tail {a : Form} {ts pre post : List Token} {xs ys : List Tree} (head : Matches a ts xs)
      (part : PartOf r mid s (.many a) pre post ys) :
      PartOf r mid s (.many a) (ts ++ pre) post (xs ++ ys)

/-- The tokens are of this form, with trees like these for its parts. -/
def MatchesLike (f : Form) (ts : List Token) (xs : List Tree) : Prop :=
  ∃ ys, Matches f ts ys ∧ List.Forall₂ (Tree.Alike .standard) xs ys

/-- The rule derives the tokens as a tree like this one. -/
def DerivesLike (r : Rule) (ts : List Token) (t : Tree) : Prop :=
  ∃ u, Derives r ts u ∧ t.Alike .standard u

section
variable {f a b : Form} {r : Rule} {ts ts' us pre mid post pre' mid' post' : List Token}
  {s t : Tree} {xs ys : List Tree}

theorem matchesLike_rule : MatchesLike (.rule r) ts [t] ↔ DerivesLike r ts t := by
  constructor
  · rintro ⟨ys, derived, alike⟩
    match alike with
    | .cons only .nil => exact ⟨_, derived, only⟩
  · rintro ⟨u, derived, alike⟩
    exact ⟨[u], derived, .cons alike .nil⟩

theorem MatchesLike.rule (h : MatchesLike r.body ts xs) : MatchesLike (.rule r) ts [r.node xs] := by
  obtain ⟨ys, body, alike⟩ := h
  exact ⟨_, .rule body, .cons (.rule alike _) .nil⟩

theorem MatchesLike.seq (ha : MatchesLike a ts xs) (hb : MatchesLike b us ys) :
    MatchesLike (.seq a b) (ts ++ us) (xs ++ ys) := by
  obtain ⟨_, first, alike⟩ := ha
  obtain ⟨_, second, alike'⟩ := hb
  exact ⟨_, .seq first second, List.rel_append alike alike'⟩

theorem MatchesLike.left (h : MatchesLike a ts xs) : MatchesLike (.choice a b) ts xs := by
  obtain ⟨_, h, alike⟩ := h
  exact ⟨_, .left h, alike⟩

theorem MatchesLike.right (h : MatchesLike b ts xs) : MatchesLike (.choice a b) ts xs := by
  obtain ⟨_, h, alike⟩ := h
  exact ⟨_, .right h, alike⟩

theorem MatchesLike.more (ha : MatchesLike a ts xs) (hb : MatchesLike (.many a) us ys) :
    MatchesLike (.many a) (ts ++ us) (xs ++ ys) := by
  obtain ⟨_, head, alike⟩ := ha
  obtain ⟨_, tail, alike'⟩ := hb
  exact ⟨_, .more head tail, List.rel_append alike alike'⟩

theorem exists_append_of_pieces
    (same : ts'.map Token.piece = (ts ++ us).map Token.piece) :
    ∃ ts₁ us₁, ts' = ts₁ ++ us₁ ∧ ts₁.map Token.piece = ts.map Token.piece ∧
      us₁.map Token.piece = us.map Token.piece := by
  rw [List.map_append] at same
  exact List.map_eq_append_iff.1 same

/-- Tokens of the same kinds and texts match alike. -/
theorem Matches.transfer (h : Matches f ts xs) (same : ts'.map Token.piece = ts.map Token.piece) :
    MatchesLike f ts' xs := by
  induction h generalizing ts' with
  | nothing =>
    obtain rfl := List.map_eq_nil_iff.1 same
    exact ⟨[], .nothing, .nil⟩
  | rule _ ih => exact (ih same).rule
  | @terminal k t kind =>
    obtain ⟨t', rfl, kind', text⟩ := Term.exists_single same
    refine ⟨_, .terminal (kind'.trans kind), .cons ?_ .nil⟩
    rw [text]
    exact .terminal _ _ _ _
  | silent kind =>
    obtain ⟨t', rfl, kind', _⟩ := Term.exists_single same
    exact ⟨[], .silent (kind'.trans kind), .nil⟩
  | seq _ _ ih₁ ih₂ =>
    obtain ⟨_, _, rfl, same₁, same₂⟩ := exists_append_of_pieces same
    exact (ih₁ same₁).seq (ih₂ same₂)
  | left _ ih => exact (ih same).left
  | right _ ih => exact (ih same).right
  | done =>
    obtain rfl := List.map_eq_nil_iff.1 same
    exact ⟨[], .done, .nil⟩
  | more _ _ ih₁ ih₂ =>
    obtain ⟨_, _, rfl, same₁, same₂⟩ := exists_append_of_pieces same
    exact (ih₁ same₁).more (ih₂ same₂)

theorem Derives.transfer (h : Derives r ts t) (same : ts'.map Token.piece = ts.map Token.piece) :
    DerivesLike r ts' t :=
  matchesLike_rule.1 (Matches.transfer h same)

theorem PartOf.of_mem_rules {q : Rule} (h : PartOf r mid s (.rule q) pre post xs)
    (mem : q ∈ f.rules) : PartOf r mid s f pre post xs := by
  induction f with
  | rule _ =>
    cases List.mem_singleton.1 mem
    exact h
  | choice a b iha ihb =>
    rcases List.mem_append.1 mem with mem | mem
    · exact .left (iha mem)
    · exact .right (ihb mem)
  | nothing | terminal _ | silent _ | seq _ _ _ _ | many _ _ => cases mem

theorem PartOf.transparent {q q' : Rule} (h : PartOf r mid s (.rule q') pre post xs)
    (mem : q' ∈ q.body.rules) : PartOf r mid s (.rule q) pre post [q.node xs] :=
  .rule (h.of_mem_rules mem)

theorem PartOf.derives (h : PartOf r mid s f pre post xs) : Derives r mid s := by
  induction h with
  | here h => exact h
  | _ => assumption

/-- Something else that the rule derives, in place of the run. -/
theorem PartOf.substitute (h : PartOf r mid s f pre post xs) (other : DerivesLike r mid' s)
    (samePre : pre'.map Token.piece = pre.map Token.piece)
    (samePost : post'.map Token.piece = post.map Token.piece) :
    MatchesLike f (pre' ++ (mid' ++ post')) xs := by
  induction h generalizing pre' post' with
  | here _ =>
    obtain rfl := List.map_eq_nil_iff.1 samePre
    obtain rfl := List.map_eq_nil_iff.1 samePost
    rw [List.nil_append, List.append_nil]
    exact matchesLike_rule.2 other
  | rule _ ih => exact (ih samePre samePost).rule
  | first _ second ih =>
    obtain ⟨post₁, us₁, rfl, samePost, sameUs⟩ := exists_append_of_pieces samePost
    rw [← List.append_assoc mid', ← List.append_assoc]
    exact (ih samePre samePost).seq (second.transfer sameUs)
  | second first _ ih =>
    obtain ⟨ts₁, pre₁, rfl, sameTs, samePre⟩ := exists_append_of_pieces samePre
    rw [List.append_assoc]
    exact (first.transfer sameTs).seq (ih samePre samePost)
  | left _ ih => exact (ih samePre samePost).left
  | right _ ih => exact (ih samePre samePost).right
  | head _ tail ih =>
    obtain ⟨post₁, us₁, rfl, samePost, sameUs⟩ := exists_append_of_pieces samePost
    rw [← List.append_assoc mid', ← List.append_assoc]
    exact (ih samePre samePost).more (tail.transfer sameUs)
  | tail head _ ih =>
    obtain ⟨ts₁, pre₁, rfl, sameTs, samePre⟩ := exists_append_of_pieces samePre
    rw [List.append_assoc]
    exact (head.transfer sameTs).more (ih samePre samePost)

end

end Grammar
end Reckon
