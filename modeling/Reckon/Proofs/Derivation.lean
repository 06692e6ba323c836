import Reckon.Proofs.Form

/-!
What a derivation from each rule of the grammar is made of. Rules of one part, prefix operators and
infix operators are each one statement.
-/

namespace Reckon
namespace Grammar

section
variable {r : Rule} {ts : List Token} {xs : List Tree} {t : Tree}

/-- A rule with one part, whichever of its alternatives it is. -/
theorem derives_of_arity_one (one : r.body.arity = some 1) :
    Derives r ts t ↔ ∃ u, Matches r.body ts [u] ∧ t = r.node [u] := by
  rw [derives_iff]
  constructor
  · rintro ⟨parts, body, rfl⟩
    obtain ⟨u, rfl⟩ := List.length_eq_one_iff.1 (body.length_eq one)
    exact ⟨u, body, rfl⟩
  · rintro ⟨u, body, rfl⟩
    exact ⟨[u], body, rfl⟩

theorem derives_line :
    Derives .line ts t ↔
      ∃ u, (Derives .assignVar ts u ∨ Derives .logicExpr ts u) ∧ t = Rule.line.node [u] := by
  rw [derives_of_arity_one rfl]
  simp [Rule.body]

theorem derives_logicExpr :
    Derives .logicExpr ts t ↔ ∃ u, Derives .disjunction ts u ∧ t = Rule.logicExpr.node [u] := by
  rw [derives_of_arity_one rfl]
  simp [Rule.body]

theorem derives_arithExpr :
    Derives .arithExpr ts t ↔ ∃ u, Derives .sum ts u ∧ t = Rule.arithExpr.node [u] := by
  rw [derives_of_arity_one rfl]
  simp [Rule.body]

theorem derives_negation :
    Derives .negation ts t ↔
      ∃ u, (Derives .comparison ts u ∨ Derives .notOp ts u) ∧ t = Rule.negation.node [u] := by
  rw [derives_of_arity_one rfl]
  simp [Rule.body]

theorem derives_comparison :
    Derives .comparison ts t ↔
      ∃ u, (Derives .arithExpr ts u ∨ ∃ op, Derives (.relation op) ts u) ∧
        t = Rule.comparison.node [u] := by
  rw [derives_of_arity_one rfl]
  refine exists_congr fun u => and_congr_left fun _ => ?_
  simp only [Rule.body, matches_or, matches_rule, List.cons.injEq, and_true, exists_eq_right',
    or_assoc]
  refine or_congr_right ⟨?_, ?_⟩
  · rintro (h | h | h | h | h | h) <;> exact ⟨_, h⟩
  · rintro ⟨op, h⟩
    cases op <;> simp only [h, true_or, or_true]

/-- An operator between its operands. -/
theorem derives_binary {left right : Rule} {k : TokenKind} (body : r.body = .binary left k right) :
    Derives r ts t ↔
      ∃ (us : List Token) (u : Tree) (o : Token) (vs : List Token) (v : Tree),
        Derives left us u ∧ o.kind = k ∧ Derives right vs v ∧ ts = us ++ o :: vs ∧
          t = r.node [u, v] := by
  rw [derives_iff, body]
  simp only [Form.binary, matches_append_assoc, matches_rule_append, matches_silent_append,
    matches_rule]
  constructor
  · rintro ⟨_, ⟨us, u, _, _, hu, ⟨o, vs, ho, ⟨v, hv, rfl⟩, rfl⟩, rfl, rfl⟩, rfl⟩
    exact ⟨us, u, o, vs, v, hu, ho, hv, rfl, rfl⟩
  · rintro ⟨us, u, o, vs, v, hu, ho, hv, rfl, rfl⟩
    exact ⟨_, ⟨us, u, _, _, hu, ⟨o, vs, ho, ⟨v, hv, rfl⟩, rfl⟩, rfl, rfl⟩, rfl⟩

/-- An operator before its operand. -/
theorem derives_unary {operand : Rule} {k : TokenKind}
    (body : r.body = .silent k ++ .rule operand) :
    Derives r ts t ↔
      ∃ (o : Token) (us : List Token) (u : Tree),
        o.kind = k ∧ Derives operand us u ∧ ts = o :: us ∧ t = r.node [u] := by
  rw [derives_iff, body]
  simp only [matches_silent_append, matches_rule]
  constructor
  · rintro ⟨_, ⟨o, us, ho, ⟨u, hu, rfl⟩, rfl⟩, rfl⟩
    exact ⟨o, us, u, ho, hu, rfl, rfl⟩
  · rintro ⟨o, us, u, ho, hu, rfl, rfl⟩
    exact ⟨_, ⟨o, us, ho, ⟨u, hu, rfl⟩, rfl⟩, rfl⟩

theorem derives_assignVar :
    Derives .assignVar ts t ↔
      ∃ (name sign : Token) (us : List Token) (u : Tree),
        name.kind = .name ∧ sign.kind = .assign ∧ Derives .logicExpr us u ∧
          ts = name :: sign :: us ∧
          t = Rule.assignVar.node [Terminal.varName.leaf name.text name.span, u] := by
  rw [derives_iff]
  simp only [Rule.body, matches_append_assoc, matches_terminal_append, matches_silent_append,
    matches_rule]
  constructor
  · rintro ⟨_, ⟨name, _, _, hn, ⟨sign, us, hs, ⟨u, hu, rfl⟩, rfl⟩, rfl, rfl⟩, rfl⟩
    exact ⟨name, sign, us, u, hn, hs, hu, rfl, rfl⟩
  · rintro ⟨name, sign, us, u, hn, hs, hu, rfl, rfl⟩
    exact ⟨_, ⟨name, _, _, hn, ⟨sign, us, hs, ⟨u, hu, rfl⟩, rfl⟩, rfl, rfl⟩, rfl⟩

/-- A rule between two silent tokens. -/
theorem matches_enclosed {opening closing : TokenKind} :
    Matches (.silent opening ++ .rule r ++ .silent closing) ts xs ↔
      ∃ (o : Token) (us : List Token) (u : Tree) (c : Token),
        o.kind = opening ∧ Derives r us u ∧ c.kind = closing ∧ ts = o :: (us ++ [c]) ∧
          xs = [u] := by
  simp only [matches_append_assoc, matches_silent_append, matches_rule_append, matches_silent]
  constructor
  · rintro ⟨o, _, ho, ⟨us, u, _, _, hu, ⟨c, hc, rfl, rfl⟩, rfl, rfl⟩, rfl⟩
    exact ⟨o, us, u, c, ho, hu, hc, rfl, rfl⟩
  · rintro ⟨o, us, u, c, ho, hu, hc, rfl, rfl⟩
    exact ⟨o, _, ho, ⟨us, u, _, _, hu, ⟨c, hc, rfl, rfl⟩, rfl, rfl⟩, rfl⟩

theorem derives_bracketed :
    Derives .bracketed ts t ↔
      ∃ (o : Token) (us : List Token) (u : Tree) (c : Token),
        o.kind = .leftParen ∧ Derives .logicExpr us u ∧ c.kind = .rightParen ∧
          ts = o :: (us ++ [c]) ∧ t = Rule.bracketed.node [u] := by
  rw [derives_iff]
  simp only [Rule.body, matches_enclosed]
  constructor
  · rintro ⟨_, ⟨o, us, u, c, ho, hu, hc, rfl, rfl⟩, rfl⟩
    exact ⟨o, us, u, c, ho, hu, hc, rfl, rfl⟩
  · rintro ⟨o, us, u, c, ho, hu, hc, rfl, rfl⟩
    exact ⟨_, ⟨o, us, u, c, ho, hu, hc, rfl, rfl⟩, rfl⟩

/-- An index in its brackets. -/
def Form.index : Form := .silent .leftBracket ++ .rule .arithExpr ++ .silent .rightBracket

theorem derives_variable :
    Derives .variable ts t ↔
      ∃ (name : Token) (us : List Token) (indices : List Tree),
        name.kind = .name ∧ Matches (.many .index) us indices ∧ ts = name :: us ∧
          t = Rule.variable.node (Terminal.varName.leaf name.text name.span :: indices) := by
  rw [derives_iff]
  simp only [Rule.body, matches_terminal_append]
  constructor
  · rintro ⟨_, ⟨name, us, indices, hn, hi, rfl, rfl⟩, rfl⟩
    exact ⟨name, us, indices, hn, hi, rfl, rfl⟩
  · rintro ⟨name, us, indices, hn, hi, rfl, rfl⟩
    exact ⟨_, ⟨name, us, indices, hn, hi, rfl, rfl⟩, rfl⟩

/-- The terminals that are atoms. -/
def Terminal.isLiteral (k : Terminal) : Bool := k ≠ .varName

theorem derives_atom :
    Derives .atom ts t ↔
      (∃ (k : Terminal) (l : Token), k.isLiteral ∧ l.kind = k.kind ∧ ts = [l] ∧
        t = Rule.atom.node [k.leaf l.text l.span]) ∨
      ∃ u, (Derives .variable ts u ∨ Derives .negAtom ts u ∨ Derives .bracketed ts u) ∧
        t = Rule.atom.node [u] := by
  rw [derives_of_arity_one rfl]
  simp only [Rule.body, matches_or, matches_terminal, matches_rule, List.cons.injEq, and_true,
    exists_eq_right']
  constructor
  · rintro ⟨_, (((((⟨l, hl, rfl, rfl⟩ | ⟨l, hl, rfl, rfl⟩) | ⟨l, hl, rfl, rfl⟩) |
      ⟨l, hl, rfl, rfl⟩) | h) | h) | h, rfl⟩
    · exact .inl ⟨.signedFloat, l, rfl, hl, rfl, rfl⟩
    · exact .inl ⟨.int, l, rfl, hl, rfl, rfl⟩
    · exact .inl ⟨.true, l, rfl, hl, rfl, rfl⟩
    · exact .inl ⟨.false, l, rfl, hl, rfl, rfl⟩
    · exact .inr ⟨_, .inl h, rfl⟩
    · exact .inr ⟨_, .inr (.inl h), rfl⟩
    · exact .inr ⟨_, .inr (.inr h), rfl⟩
  · rintro (⟨k, l, hk, hl, rfl, rfl⟩ | ⟨u, h | h | h, rfl⟩)
    · refine ⟨_, ?_, rfl⟩
      cases k with
      | signedFloat => exact .inl (.inl (.inl (.inl (.inl (.inl ⟨l, hl, rfl, rfl⟩)))))
      | int => exact .inl (.inl (.inl (.inl (.inl (.inr ⟨l, hl, rfl, rfl⟩)))))
      | true => exact .inl (.inl (.inl (.inl (.inr ⟨l, hl, rfl, rfl⟩))))
      | false => exact .inl (.inl (.inl (.inr ⟨l, hl, rfl, rfl⟩)))
      | varName => cases hk
    · exact ⟨u, .inl (.inl (.inr h)), rfl⟩
    · exact ⟨u, .inl (.inr h), rfl⟩
    · exact ⟨u, .inr h, rfl⟩

theorem matches_newlines :
    Matches .newlines ts xs ↔ (∀ t ∈ ts, t.kind = .newline) ∧ xs = [] := by
  constructor
  · refine Matches.many_induction (P := fun ts xs => (∀ t ∈ ts, t.kind = .newline) ∧ xs = []) ?_ ?_
    · exact ⟨by simp, rfl⟩
    intro ts us xs ys head _ ih
    obtain ⟨t, kind, rfl, rfl⟩ := matches_silent.1 head
    exact ⟨List.forall_mem_cons.2 ⟨kind, ih.1⟩, ih.2⟩
  · rintro ⟨all, rfl⟩
    induction ts with
    | nil => exact .done
    | cons t ts ih =>
      obtain ⟨kind, all⟩ := List.forall_mem_cons.1 all
      exact .more (.silent kind) (ih all)

theorem matches_newlines_append {b : Form} :
    Matches (.newlines ++ b) ts xs ↔
      ∃ ns us : List Token, (∀ n ∈ ns, n.kind = .newline) ∧ Matches b us xs ∧ ts = ns ++ us := by
  simp only [matches_append, matches_newlines]
  constructor
  · rintro ⟨ns, us, _, _, ⟨all, rfl⟩, hb, rfl, rfl⟩
    exact ⟨ns, us, all, hb, rfl⟩
  · rintro ⟨ns, us, all, hb, rfl⟩
    exact ⟨ns, us, [], xs, ⟨all, rfl⟩, hb, rfl, rfl⟩

/-- A newline comes next, or nothing. -/
def EndsLine (ts : List Token) : Prop := ∀ t ∈ ts.head?, t.kind = .newline

/-- The lines of a block, met one after the other. -/
inductive Lines : List Token → List Tree → Prop where
  | nil : Lines [] []
  | newline {n : Token} {ts : List Token} {xs : List Tree} (kind : n.kind = .newline)
      (rest : Lines ts xs) : Lines (n :: ts) xs
  | line {us ts : List Token} {u : Tree} {xs : List Tree} (h : Derives .line us u)
      (ends : EndsLine ts) (rest : Lines ts xs) : Lines (us ++ ts) (u :: xs)

theorem Lines.of_newlines {ns : List Token} (all : ∀ n ∈ ns, n.kind = .newline)
    (h : Lines ts xs) : Lines (ns ++ ts) xs := by
  induction ns with
  | nil => exact h
  | cons n ns ih =>
    obtain ⟨kind, all⟩ := List.forall_mem_cons.1 all
    exact .newline kind (ih all)

/-- A line after the first, with the newlines before it. -/
def Form.nextLine : Form := .silent .newline ++ .newlines ++ .rule .line

theorem matches_nextLine :
    Matches .nextLine ts xs ↔
      ∃ (n : Token) (ns us : List Token) (u : Tree),
        n.kind = .newline ∧ (∀ n ∈ ns, n.kind = .newline) ∧ Derives .line us u ∧
          ts = n :: (ns ++ us) ∧ xs = [u] := by
  simp only [Form.nextLine, matches_append_assoc, matches_silent_append,
    matches_newlines_append, matches_rule]
  constructor
  · rintro ⟨n, _, kind, ⟨ns, us, all, ⟨u, hu, rfl⟩, rfl⟩, rfl⟩
    exact ⟨n, ns, us, u, kind, all, hu, rfl, rfl⟩
  · rintro ⟨n, ns, us, u, kind, all, hu, rfl, rfl⟩
    exact ⟨n, _, kind, ⟨ns, us, all, ⟨u, hu, rfl⟩, rfl⟩, rfl⟩

theorem Lines.of_nextLines {after : List Token} (all : ∀ n ∈ after, n.kind = .newline)
    (h : Matches (.many .nextLine) ts xs) :
    Lines (ts ++ after) xs ∧ EndsLine (ts ++ after) := by
  refine Matches.many_induction (P := fun ts xs => Lines (ts ++ after) xs ∧
    EndsLine (ts ++ after)) ?_ ?_ h
  · refine ⟨?_, ?_⟩
    · simpa using Lines.of_newlines all .nil
    · intro t mem
      exact all t (List.mem_of_head? (by simpa using mem))
  · intro ts us xs ys head _ ih
    obtain ⟨n, ns, ls, l, kind, newlines, hl, rfl, rfl⟩ := matches_nextLine.1 head
    refine ⟨?_, ?_⟩
    · simpa using Lines.newline kind (.of_newlines newlines (.line hl ih.2 ih.1))
    · intro t mem
      simp only [List.cons_append, List.head?_cons, Option.mem_some_iff] at mem
      rw [← mem, kind]

/-- The middle of a block: no line, or a first line and the lines after it. -/
def Form.someLines : Form := .optional (.rule .line ++ .many .nextLine)

theorem matches_someLines :
    Matches .someLines ts xs ↔
      ts = [] ∧ xs = [] ∨
        ∃ ls l ms ys, Derives .line ls l ∧ Matches (.many .nextLine) ms ys ∧
          ts = ls ++ ms ∧ xs = l :: ys := by
  rw [Form.someLines, Form.optional, matches_or, matches_nothing, matches_rule_append]

theorem matches_block :
    Matches Rule.block.body ts xs ↔
      ∃ before middle after : List Token,
        (∀ n ∈ before, n.kind = .newline) ∧ Matches .someLines middle xs ∧
          (∀ n ∈ after, n.kind = .newline) ∧ ts = before ++ (middle ++ after) := by
  have body : Rule.block.body = .newlines ++ .someLines ++ .newlines := rfl
  rw [body]
  simp only [matches_append_assoc, matches_newlines_append, matches_append (a := .someLines),
    matches_newlines]
  constructor
  · rintro ⟨before, _, hb, ⟨middle, after, _, _, hm, ⟨ha, rfl⟩, rfl, rfl⟩, rfl⟩
    exact ⟨before, middle, after, hb, by simpa using hm, ha, rfl⟩
  · rintro ⟨before, middle, after, hb, hm, ha, rfl⟩
    exact ⟨before, _, hb, ⟨middle, after, xs, [], hm, ⟨ha, rfl⟩, rfl, by simp⟩, rfl⟩

theorem Lines.of_matches (h : Matches Rule.block.body ts xs) : Lines ts xs := by
  obtain ⟨before, middle, after, hb, hm, ha, rfl⟩ := matches_block.1 h
  refine .of_newlines hb ?_
  rcases matches_someLines.1 hm with ⟨rfl, rfl⟩ | ⟨ls, l, ms, ys, hl, hms, rfl, rfl⟩
  · exact (of_nextLines ha .done).1
  · obtain ⟨rest, ends⟩ := of_nextLines ha hms
    rw [List.append_assoc]
    exact .line hl ends rest

theorem Lines.matches_body (h : Lines ts xs) : Matches Rule.block.body ts xs := by
  induction h with
  | nil => exact matches_block.2 ⟨[], [], [], by simp, matches_someLines.2 (.inl ⟨rfl, rfl⟩),
      by simp, rfl⟩
  | newline kind _ ih =>
    obtain ⟨before, middle, after, hb, hm, ha, rfl⟩ := matches_block.1 ih
    exact matches_block.2 ⟨_ :: before, middle, after, List.forall_mem_cons.2 ⟨kind, hb⟩, hm, ha,
      rfl⟩
  | @line us ts u xs hu ends _ ih =>
    obtain ⟨before, middle, after, hb, hm, ha, rfl⟩ := matches_block.1 ih
    rcases matches_someLines.1 hm with ⟨rfl, rfl⟩ | ⟨ls, l, ms, ys, hl, hms, rfl, rfl⟩
    · refine matches_block.2 ⟨[], us, before ++ after, by simp,
        matches_someLines.2 (.inr ⟨us, u, [], [], hu, .done, by simp, rfl⟩),
        List.forall_mem_append.2 ⟨hb, ha⟩, by simp⟩
    · cases before with
      | nil =>
        -- The next line would follow without a newline.
        obtain ⟨t, ts, rfl, _⟩ := hl.exists_first (by decide)
        exact absurd (ends t (by simp)) (hl.ne_newline (by decide) t (by simp))
      | cons n ns =>
        obtain ⟨kind, hns⟩ := List.forall_mem_cons.1 hb
        have next : Matches .nextLine (n :: (ns ++ ls)) [l] :=
          matches_nextLine.2 ⟨n, ns, ls, l, kind, hns, hl, rfl, rfl⟩
        refine matches_block.2 ⟨[], us ++ (n :: (ns ++ ls) ++ ms), after, by simp,
          matches_someLines.2 (.inr ⟨us, u, _, _, hu, .more next hms, rfl, rfl⟩), ha, by simp⟩

theorem derives_block :
    Derives .block ts t ↔ ∃ lines, Lines ts lines ∧ t = Rule.block.node lines := by
  rw [derives_iff]
  exact exists_congr fun _ => and_congr_left fun _ => ⟨Lines.of_matches, Lines.matches_body⟩

end

end Grammar
end Reckon
