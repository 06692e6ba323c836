import Reckon.Proofs.Compilation
import Reckon.Proofs.Derivation

/-!
Induction over derivations in the cases that compiling distinguishes. Transparent rules are choices
among other rules and, for atoms, literals; all other rules are known to the vocabulary, and each of
them has the parts its construct asks for.
-/

namespace Reckon

namespace Tree

theorem size_le_sizeAll {t : Tree} {ts : List Tree} (mem : t ∈ ts) : t.size ≤ sizeAll ts := by
  induction ts with
  | nil => cases mem
  | cons u us ih =>
    rw [sizeAll]
    rcases List.mem_cons.1 mem with rfl | mem
    · exact Nat.le_add_right _ _
    · exact Nat.le_trans (ih mem) (Nat.le_add_left _ _)

end Tree

namespace Grammar

section
variable {r : Rule} {ts : List Token} {xs : List Tree} {t : Tree}

theorem size_lt_node {parts : List Tree} (mem : t ∈ parts) : t.size < (r.node parts).size := by
  rw [Rule.node, Tree.size]
  have := Tree.size_le_sizeAll mem
  omega

theorem size_lt_of_node {parts : List Tree} {n : Nat} (small : (r.node parts).size < n)
    (mem : t ∈ parts) : t.size < n :=
  Nat.lt_trans (size_lt_node mem) small

/-- Single symbols to choose from, and nothing else. -/
def Form.isChoice : Form → Bool
  | .rule _ | .terminal _ => true
  | .choice left right => left.isChoice && right.isChoice
  | _ => false

/-- The rules to choose from. -/
def Form.rules : Form → List Rule
  | .rule r => [r]
  | .choice left right => left.rules ++ right.rules
  | _ => []

/-- The terminals to choose from. -/
def Form.terminals : Form → List Terminal
  | .terminal k => [k]
  | .choice left right => left.terminals ++ right.terminals
  | _ => []

theorem Matches.exists_choice {f : Form} (h : Matches f ts xs) (choice : f.isChoice) :
    (∃ s ∈ f.rules, ∃ u, Derives s ts u ∧ xs = [u]) ∨
      ∃ k ∈ f.terminals, ∃ l : Token, l.kind = k.kind ∧ ts = [l] ∧
        xs = [k.leaf l.text l.span] := by
  induction f with
  | rule s =>
    obtain ⟨u, hu, rfl⟩ := matches_rule.1 h
    exact .inl ⟨s, by simp [Form.rules], u, hu, rfl⟩
  | terminal k =>
    obtain ⟨l, kind, rfl, rfl⟩ := matches_terminal.1 h
    exact .inr ⟨k, by simp [Form.terminals], l, kind, rfl, rfl⟩
  | choice a b iha ihb =>
    have both := Bool.and_eq_true_iff.1 choice
    rcases matches_or.1 h with h | h
    · rcases iha h both.1 with ⟨s, mem, found⟩ | ⟨k, mem, found⟩
      · exact .inl ⟨s, List.mem_append_left _ mem, found⟩
      · exact .inr ⟨k, List.mem_append_left _ mem, found⟩
    · rcases ihb h both.2 with ⟨s, mem, found⟩ | ⟨k, mem, found⟩
      · exact .inl ⟨s, List.mem_append_right _ mem, found⟩
      · exact .inr ⟨k, List.mem_append_right _ mem, found⟩
  | nothing | silent _ | seq _ _ _ _ | many _ _ => cases choice

theorem matches_of_mem_rules {f : Form} (mem : r ∈ f.rules) (h : Derives r ts t) :
    Matches f ts [t] := by
  induction f with
  | rule s =>
    cases List.mem_singleton.1 mem
    exact h
  | choice a b iha ihb =>
    rcases List.mem_append.1 mem with mem | mem
    · exact .left (iha mem)
    · exact .right (ihb mem)
  | nothing | terminal _ | silent _ | seq _ _ _ _ | many _ _ => cases mem

theorem isChoice_of_transparent (transparent : r.construct? = none) : r.body.isChoice := by
  cases r <;> first | rfl | cases transparent

theorem atom_of_mem_terminals {k : Terminal} (mem : k ∈ r.body.terminals) :
    r = .atom ∧ k.isLiteral := by
  cases r with
  | atom =>
    refine ⟨rfl, ?_⟩
    cases k <;> first | rfl | exact absurd mem (by decide)
  | _ => cases mem

theorem Matches.indices_within (h : Matches (.many .index) ts xs) :
    ∀ u ∈ xs, ∃ us, us ⊆ ts ∧ Derives .arithExpr us u := by
  refine Matches.many_induction
    (P := fun ts xs => ∀ u ∈ xs, ∃ us, us ⊆ ts ∧ Derives .arithExpr us u) ?_ ?_ h
  · simp
  intro ts us xs ys head _ ih
  obtain ⟨o, vs, v, c, _, hv, _, rfl, rfl⟩ := matches_enclosed.1 head
  refine List.forall_mem_cons.2 ⟨⟨vs, by simp, hv⟩, fun u mem => ?_⟩
  obtain ⟨ws, among, hu⟩ := ih u mem
  exact ⟨ws, List.subset_append_of_subset_right _ among, hu⟩

theorem Matches.indices (h : Matches (.many .index) ts xs) :
    ∀ u ∈ xs, ∃ us, Derives .arithExpr us u := by
  intro u mem
  obtain ⟨us, _, hu⟩ := h.indices_within u mem
  exact ⟨us, hu⟩

theorem Lines.lines_within (h : Lines ts xs) : ∀ u ∈ xs, ∃ us, us ⊆ ts ∧ Derives .line us u := by
  induction h with
  | nil => simp
  | newline _ _ ih =>
    intro u mem
    obtain ⟨us, among, hu⟩ := ih u mem
    exact ⟨us, List.subset_cons_of_subset _ among, hu⟩
  | line h _ _ ih =>
    refine List.forall_mem_cons.2 ⟨⟨_, List.subset_append_left _ _, h⟩, fun u mem => ?_⟩
    obtain ⟨us, among, hu⟩ := ih u mem
    exact ⟨us, List.subset_append_of_subset_right _ among, hu⟩

theorem Lines.lines (h : Lines ts xs) : ∀ u ∈ xs, ∃ us, Derives .line us u := by
  intro u mem
  obtain ⟨us, _, hu⟩ := h.lines_within u mem
  exact ⟨us, hu⟩

/-- Transparent rules lead to higher rungs only. -/
def Rule.rung : Rule → Nat
  | .block | .line => 0
  | .assignVar | .logicExpr => 1
  | .disjunction => 2
  | .orOp | .conjunction => 3
  | .andOp | .negation => 4
  | .notOp | .comparison => 5
  | .relation _ | .arithExpr => 6
  | .sum => 7
  | .addition | .subtraction | .product => 8
  | .multiplication | .division | .atom => 9
  | .negAtom | .bracketed | .variable => 10

theorem Rule.rung_lt {r s : Rule} (mem : s ∈ r.body.rules) : r.rung < s.rung := by
  have rises : ∀ s ∈ r.body.rules, r.rung < s.rung := by
    cases r with
    | relation _ => simp [Rule.body, Form.binary, Form.rules]
    | _ => decide
  exact rises s mem

theorem Rule.rung_lt_maxPassThrough (r : Rule) : r.rung < maxPassThrough := by
  cases r <;> simp [rung, maxPassThrough]

theorem Rule.few_hops {hops : Nat} (few : hops ≤ r.rung) : hops ≤ maxPassThrough :=
  Nat.le_trans few (Nat.le_of_lt r.rung_lt_maxPassThrough)

/-- What holds of all derivations: one case for a transparent rule, one for a literal, and one for
every construct that has parts. -/
theorem Derives.token_induction {P : Rule → List Token → Tree → Prop}
    (transparent : ∀ {r s ts parts}, r.construct? = none → s ∈ r.body.rules →
      P s ts (s.node parts) → P r ts (r.node [s.node parts]))
    (literal : ∀ {k : Terminal} {l : Token}, k.isLiteral → l.kind = k.kind →
      P .atom [l] (Rule.atom.node [k.leaf l.text l.span]))
    (group : ∀ {o c ts t}, o.kind = .leftParen → c.kind = .rightParen → P .logicExpr ts t →
      P .bracketed (o :: (ts ++ [c])) (Rule.bracketed.node [t]))
    (unary : ∀ {r k s op o ts t}, r.body = .silent k ++ .rule s →
      r.construct? = some (.unary op) → o.kind = k → P s ts t → P r (o :: ts) (r.node [t]))
    (binary : ∀ {r left k right op ts o us t u}, r.body = .binary left k right →
      r.construct? = some (.binary op) → o.kind = k → P left ts t → P right us u →
      P r (ts ++ o :: us) (r.node [t, u]))
    («variable» : ∀ {name ts indices}, name.kind = .name →
      (∀ t ∈ indices, ∃ us, us ⊆ ts ∧ P .arithExpr us t) →
      P .variable (name :: ts)
        (Rule.variable.node (Terminal.varName.leaf name.text name.span :: indices)))
    (assignVar : ∀ {name sign ts t}, name.kind = .name → P .logicExpr ts t →
      P .assignVar (name :: sign :: ts)
        (Rule.assignVar.node [Terminal.varName.leaf name.text name.span, t]))
    (block : ∀ {ts lines}, (∀ t ∈ lines, ∃ us, us ⊆ ts ∧ P .line us t) →
      P .block ts (Rule.block.node lines))
    (h : Derives r ts t) : P r ts t := by
  induction size : t.size using Nat.strongRecOn generalizing r ts t with
  | ind n ih =>
    have part {s us u parts} (hu : Derives s us u) (eq : t = r.node parts) (mem : u ∈ parts) :
        P s us u := by
      refine ih _ ?_ hu rfl
      rw [← size, eq]
      exact size_lt_node mem
    cases construct : r.construct? with
    | none =>
      obtain ⟨parts, body, rfl⟩ := derives_iff.1 h
      rcases body.exists_choice (isChoice_of_transparent construct) with
        ⟨s, mem, u, hu, rfl⟩ | ⟨k, mem, l, kind, rfl, rfl⟩
      · obtain ⟨parts, _, rfl⟩ := derives_iff.1 hu
        exact transparent construct mem (part hu rfl (by simp))
      · obtain ⟨rfl, lit⟩ := atom_of_mem_terminals mem
        exact literal lit kind
    | some c =>
      cases r with
      | block =>
        obtain ⟨lines, hl, rfl⟩ := derives_block.1 h
        refine block fun u mem => ?_
        obtain ⟨us, among, hu⟩ := hl.lines_within u mem
        exact ⟨us, among, part hu rfl mem⟩
      | assignVar =>
        obtain ⟨_, _, us, u, kind, _, hu, rfl, rfl⟩ := derives_assignVar.1 h
        exact assignVar kind (part hu rfl (by simp))
      | «variable» =>
        obtain ⟨_, us, indices, kind, hi, rfl, rfl⟩ := derives_variable.1 h
        refine «variable» kind fun u mem => ?_
        obtain ⟨us, among, hu⟩ := hi.indices_within u mem
        exact ⟨us, among, part hu rfl (List.mem_cons_of_mem _ mem)⟩
      | bracketed =>
        obtain ⟨_, us, u, _, opening, hu, closing, rfl, rfl⟩ := derives_bracketed.1 h
        exact group opening closing (part hu rfl (by simp))
      | notOp | negAtom =>
        obtain ⟨_, us, u, kind, hu, rfl, rfl⟩ := (derives_unary rfl).1 h
        exact unary rfl rfl kind (part hu rfl (by simp))
      | orOp | andOp | relation _ | addition | subtraction | multiplication | division =>
        obtain ⟨us, u, _, vs, v, hu, kind, hv, rfl, rfl⟩ := (derives_binary rfl).1 h
        exact binary rfl rfl kind (part hu rfl (by simp)) (part hv rfl (by simp))
      | line | logicExpr | disjunction | conjunction | negation | comparison | arithExpr | sum
      | product | atom => cases construct

/-- The same for what does not depend on the tokens. -/
theorem Derives.induction {P : Rule → Tree → Prop}
    (transparent : ∀ {r s parts}, r.construct? = none → s ∈ r.body.rules →
      P s (s.node parts) → P r (r.node [s.node parts]))
    (literal : ∀ {k : Terminal} {l : Token}, k.isLiteral → l.kind = k.kind →
      P .atom (Rule.atom.node [k.leaf l.text l.span]))
    (group : ∀ {t}, P .logicExpr t → P .bracketed (Rule.bracketed.node [t]))
    (unary : ∀ {r k s op t}, r.body = .silent k ++ .rule s → r.construct? = some (.unary op) →
      P s t → P r (r.node [t]))
    (binary : ∀ {r left k right op t u}, r.body = .binary left k right →
      r.construct? = some (.binary op) → P left t → P right u → P r (r.node [t, u]))
    («variable» : ∀ {text span indices}, (∀ t ∈ indices, P .arithExpr t) →
      P .variable (Rule.variable.node (Terminal.varName.leaf text span :: indices)))
    (assignVar : ∀ {text span t}, P .logicExpr t →
      P .assignVar (Rule.assignVar.node [Terminal.varName.leaf text span, t]))
    (block : ∀ {lines}, (∀ t ∈ lines, P .line t) → P .block (Rule.block.node lines))
    (h : Derives r ts t) : P r t := by
  have part {r : Rule} {ts : List Token} {parts : List Tree}
      (h : ∀ t ∈ parts, ∃ us, us ⊆ ts ∧ P r t) : ∀ t ∈ parts, P r t := by
    intro t mem
    obtain ⟨_, _, holds⟩ := h t mem
    exact holds
  refine h.token_induction (P := fun r _ t => P r t) transparent literal ?_ ?_ ?_ ?_ ?_ ?_
  · exact fun _ _ => group
  · exact fun body construct _ => unary body construct
  · exact fun body construct _ => binary body construct
  · exact fun _ indices => «variable» (part indices)
  · exact fun _ => assignVar
  · exact fun lines => block (part lines)

end

end Grammar
end Reckon
