import Reckon.Proofs.ParserSoundness

/-!
What a parser has passed over can be continued. Where a rule is refused for the token ahead, or for
the end of the tokens, the tokens before that place begin a sentence of the rule, and where there
are none, the token ahead begins no sentence of it.
-/

namespace Reckon
namespace Grammar

/-- The tokens begin a sentence of the rule. -/
def Viable (r : Rule) (ts : List Token) : Prop := ∃ rest t, Derives r (ts ++ rest) t

/-- The rule can be refused at `ahead` in `toks`. -/
def Faulty (r : Rule) (toks ahead : List Token) : Prop :=
  ∃ used, toks = used ++ ahead ∧ Viable r used ∧
    (used = [] → ∀ t ∈ ahead.head?, t.kind ∉ r.first)

/-- Where `p` is refused, `rule` can be. -/
def Stops (rule : Rule) (p : Parser) : Prop :=
  ∀ ⦃room toks expected ahead⦄, p room toks = .error (.unexpected expected ahead) →
    Faulty rule toks ahead

section
variable {r s rule operand : Rule} {operator : TokenKind → Option Rule} {atom p : Parser}
  {room limit : Nat} {toks ahead ts us : List Token} {t : Tree} {expected : String}

theorem Viable.of_derives (h : Derives r ts t) : Viable r ts :=
  ⟨[], t, by rwa [List.append_nil]⟩

/-- A rule that the whole of another may be. -/
theorem Viable.lift (h : Viable r ts) (one : ∀ {ts t}, Derives r ts t → ∃ u, Derives s ts u) :
    Viable s ts := by
  obtain ⟨rest, t, derived⟩ := h
  obtain ⟨u, derived⟩ := one derived
  exact ⟨rest, u, derived⟩

/-- A rule that stands after `us` in another. -/
theorem Viable.after (h : Viable r ts)
    (part : ∀ {ts t}, Derives r ts t → ∃ rest u, Derives s (us ++ ts ++ rest) u) :
    Viable s (us ++ ts) := by
  obtain ⟨rest, t, derived⟩ := h
  obtain ⟨rest', u, derived⟩ := part derived
  exact ⟨rest ++ rest', u, by simpa using derived⟩

theorem Faulty.lift (h : Faulty r toks ahead)
    (one : ∀ {ts t}, Derives r ts t → ∃ u, Derives s ts u) (first : s.first ⊆ r.first) :
    Faulty s toks ahead := by
  obtain ⟨used, rfl, viable, none⟩ := h
  exact ⟨used, rfl, viable.lift one, fun empty t mem among => none empty t mem (first among)⟩

theorem Faulty.of_ne_nil (viable : Viable r us) (ne : us ≠ []) : Faulty r (us ++ ahead) ahead :=
  ⟨us, rfl, viable, fun empty => absurd empty ne⟩

/-- After some tokens, it no longer matters what a rule begins with. -/
theorem Faulty.after (h : Faulty r toks ahead) (ne : us ≠ [])
    (part : ∀ {ts t}, Derives r ts t → ∃ rest u, Derives s (us ++ ts ++ rest) u) :
    Faulty s (us ++ toks) ahead := by
  obtain ⟨used, rfl, viable, _⟩ := h
  rw [← List.append_assoc]
  exact .of_ne_nil (viable.after part) (by simp [ne])

theorem wrapped_stops (stops : Stops r p) (one : ∀ {ts t}, Derives r ts t → ∃ u, Derives s ts u)
    (first : s.first ⊆ r.first) : Stops s (wrapped rule p) := by
  intro room toks expected ahead h
  obtain refused | ⟨_, _, tail⟩ := bind_eq_error.1 h
  · exact (stops refused).lift one first
  · cases tail

theorem nested_stops (stops : Stops r p) : Stops r (nested p) := by
  intro room toks expected ahead h
  cases room with
  | zero => cases h
  | succ room => exact stops h

theorem chainFrom_stops (c : IsChain rule operand operator) (sound : Sound operand p)
    (stops : Stops operand p) (before : Chain rule operand operator ts t)
    (h : chainFrom rule operator p room t toks = .error (.unexpected expected ahead)) :
    ∃ used, toks = used ++ ahead ∧ used ≠ [] ∧ Viable rule (ts ++ used) := by
  induction room generalizing t toks ts with
  | zero =>
    cases toks with
    | nil => cases h
    | cons o toks => cases sign : operator o.kind <;> simp [chainFrom, sign] at h
  | succ room ih =>
    cases toks with
    | nil => cases h
    | cons o toks =>
      cases sign : operator o.kind with
      | none => simp [chainFrom, sign] at h
      | some op =>
        simp only [chainFrom, sign] at h
        obtain refused | ⟨⟨right, more⟩, read, tail⟩ := bind_eq_error.1 h
        · obtain ⟨used, rfl, viable, _⟩ := stops refused
          refine ⟨o :: used, rfl, by simp, ?_⟩
          obtain ⟨rest, v, derived⟩ := viable
          exact ⟨rest, _, c.derives_iff.2 (by simpa using before.next sign derived)⟩
        · obtain ⟨us, rfl, derived, _⟩ := sound read
          obtain ⟨used, rfl, _, viable⟩ := ih (before.next sign derived) tail
          exact ⟨o :: us ++ used, by simp, by simp, by simpa using viable⟩

theorem chain_stops (c : IsChain rule operand operator) (first : rule.first ⊆ operand.first)
    (sound : Sound operand p) (stops : Stops operand p) : Stops rule (chain rule operator p) := by
  intro room toks expected ahead h
  obtain refused | ⟨⟨left, more⟩, read, tail⟩ := bind_eq_error.1 h
  · exact (stops refused).lift (fun h => ⟨_, c.derives_iff.2 (.first h)⟩) first
  · obtain ⟨us, rfl, derived, _⟩ := sound read
    obtain ⟨used, rfl, ne, viable⟩ := chainFrom_stops c sound stops (.first derived) tail
    rw [← List.append_assoc]
    exact .of_ne_nil viable (by simp [ne])

theorem arithExpr_stops (sound : Sound .atom atom) (stops : Stops .atom atom) :
    Stops .arithExpr (arithExpr atom) := by
  have product : Stops .product (product atom) :=
    chain_stops isChain_product (by decide) sound stops
  have sum : Stops .sum (sum atom) :=
    chain_stops isChain_sum (by decide) (product_sound sound) product
  exact wrapped_stops sum (fun h => ⟨_, derives_arithExpr.2 ⟨_, h, rfl⟩⟩) (by decide)

theorem comparison_stops (sound : Sound .atom atom) (stops : Stops .atom atom) :
    Stops .comparison (comparison atom) := by
  intro room toks expected ahead h
  obtain refused | ⟨⟨left, more⟩, read, tail⟩ := bind_eq_error.1 h
  · exact (arithExpr_stops sound stops refused).lift
      (fun h => ⟨_, derives_comparison.2 ⟨_, .inl h, rfl⟩⟩) (by decide)
  · obtain ⟨us, rfl, derived, _⟩ := arithExpr_sound sound read
    dsimp only at tail
    split at tail
    next op text span more =>
      obtain refused | ⟨_, _, tail⟩ := bind_eq_error.1 tail
      · have faulty : Faulty .comparison (us ++ [⟨.relation op, text, span⟩] ++ more) ahead := by
          refine (arithExpr_stops sound stops refused).after (by simp) fun {ts t} h => ?_
          have relation : Derives (.relation op) (us ++ ⟨.relation op, text, span⟩ :: ts)
              ((Rule.relation op).node [left, t]) :=
            (derives_binary rfl).2 ⟨us, left, _, ts, t, derived, rfl, h, rfl, rfl⟩
          exact ⟨[], _, by simpa using derives_comparison.2 ⟨_, .inr ⟨op, relation⟩, rfl⟩⟩
        simpa using faulty
      · cases tail
    next => cases tail

theorem negation_stops (sound : Sound .atom atom) (stops : Stops .atom atom) :
    Stops .negation (negation atom) := by
  intro room toks expected ahead h
  fun_induction negation atom room toks with
  | case1 text span toks => cases h
  | case2 text span toks room ih =>
    obtain refused | ⟨_, _, tail⟩ := bind_eq_error.1 h
    · refine (ih refused).after (List.cons_ne_nil ⟨.not, text, span⟩ []) fun {ts t} h => ?_
      have notOp : Derives .notOp (⟨.not, text, span⟩ :: ts) (Rule.notOp.node [t]) :=
        (derives_unary rfl).2 ⟨_, ts, t, rfl, h, rfl, rfl⟩
      exact ⟨[], _, by simpa using derives_negation.2 ⟨_, .inr notOp, rfl⟩⟩
    · cases tail
  | case3 room toks notNot =>
    obtain refused | ⟨_, _, tail⟩ := bind_eq_error.1 h
    · obtain ⟨used, rfl, viable, none⟩ := comparison_stops sound stops refused
      refine ⟨used, rfl, viable.lift fun h => ⟨_, derives_negation.2 ⟨_, .inl h, rfl⟩⟩, ?_⟩
      rintro rfl t mem among
      rcases List.mem_cons.1 among with kind | among
      · obtain ⟨_, text, span⟩ := t
        cases kind
        obtain ⟨more, rfl⟩ := List.head?_eq_some_iff.1 mem
        exact notNot text span more rfl
      · exact none rfl t mem among
    · cases tail

theorem logicExpr_stops (sound : Sound .atom atom) (stops : Stops .atom atom) :
    Stops .logicExpr (logicExpr atom) := by
  have negation := negation_stops sound stops
  have conjunction : Stops .conjunction (conjunction atom) :=
    chain_stops isChain_conjunction (by decide) (negation_sound sound) negation
  have disjunction : Stops .disjunction (disjunction atom) :=
    chain_stops isChain_disjunction (by decide)
      (chain_sound isChain_conjunction (negation_sound sound)) conjunction
  exact nested_stops
    (wrapped_stops disjunction (fun h => ⟨_, derives_logicExpr.2 ⟨_, h, rfl⟩⟩) (by decide))

theorem expect_eq_error {kind : TokenKind} {wanted : String}
    (h : expect kind wanted toks = .error (.unexpected expected ahead)) : toks = ahead := by
  cases toks with
  | nil =>
    cases h
    rfl
  | cons t toks =>
    simp only [expect] at h
    split at h <;> cases h
    rfl

/-- A token of a kind, to continue with. -/
def anyToken (k : TokenKind) : Token := ⟨k, "", .point 0⟩

theorem indices_stops (sound : Sound .atom atom) (stops : Stops .atom atom) {bound : List Token}
    (h : indices atom room bound toks = .error (.unexpected expected ahead)) :
    ∃ used, toks = used ++ ahead ∧ used ≠ [] ∧
      ∃ rest xs, Matches (.many .index) (used ++ rest) xs := by
  fun_induction indices atom room bound toks with
  | case1 _ bound text span toks ih =>
    obtain refused | ⟨⟨index, more⟩, read, tail⟩ := bind_eq_error.1 h
    · obtain ⟨used, rfl, ⟨rest, t, derived⟩, _⟩ := arithExpr_stops sound stops refused
      refine ⟨⟨.leftBracket, text, span⟩ :: used, rfl, by simp,
        rest ++ [anyToken .rightBracket], [t], ?_⟩
      have one : Matches .index _ [t] := matches_enclosed.2
        ⟨⟨.leftBracket, text, span⟩, _, t, anyToken .rightBracket, rfl, derived, rfl, rfl, rfl⟩
      simpa using one.more .done
    · obtain ⟨us, rfl, derived, _⟩ := arithExpr_sound sound read
      have one (c : Token) (kind : c.kind = .rightBracket) :
          Matches .index (⟨.leftBracket, text, span⟩ :: (us ++ [c])) [index] :=
        matches_enclosed.2 ⟨_, us, index, c, rfl, derived, kind, rfl, rfl⟩
      dsimp only at tail
      obtain refused | ⟨rest, close, others⟩ := bind_eq_error.1 tail
      · obtain rfl := expect_eq_error refused
        refine ⟨⟨.leftBracket, text, span⟩ :: us, rfl, by simp, [anyToken .rightBracket],
          [index], ?_⟩
        simpa using (one (anyToken .rightBracket) rfl).more .done
      · obtain ⟨c, kind, rfl⟩ := expect_eq_ok close
        obtain refused | ⟨_, _, done⟩ := bind_eq_error.1 others
        · obtain ⟨used, rfl, _, rest, xs, many⟩ := ih rest refused
          refine ⟨⟨.leftBracket, text, span⟩ :: (us ++ [c]) ++ used, by simp, by simp, rest,
            [index] ++ xs, ?_⟩
          simpa using (one c kind).more many
        · cases done
  | case2 => cases h

/-- A literal by itself. -/
theorem derives_anyToken_int :
    Derives .atom [anyToken .int] (Rule.atom.node [Terminal.int.leaf "" (.point 0)]) :=
  derives_atom.2 (.inl ⟨.int, anyToken .int, rfl, rfl, rfl, rfl⟩)

theorem atomAround_stops (sound : Sound .atom atom) (stops : Stops .atom atom) :
    Stops .atom (atomAround atom) := by
  refine nested_stops fun room toks expected ahead h => ?_
  split at h
  next => cases h
  next => cases h
  next => cases h
  next => cases h
  next text span toks =>
    obtain refused | ⟨_, _, tail⟩ := bind_eq_error.1 h
    · obtain ⟨used, rfl, _, rest, xs, many⟩ := indices_stops sound stops refused
      have viable : Viable .atom (⟨.name, text, span⟩ :: used) :=
        ⟨rest, _, derives_atom.2 (.inr ⟨_, .inl (derives_variable.2
          ⟨_, _, xs, rfl, many, rfl, rfl⟩), rfl⟩)⟩
      exact .of_ne_nil viable (by simp)
    · cases tail
  next text span toks =>
    obtain refused | ⟨_, _, tail⟩ := bind_eq_error.1 h
    · refine (stops refused).after (List.cons_ne_nil ⟨.minus, text, span⟩ []) fun {ts t} h => ?_
      have negAtom : Derives .negAtom (⟨.minus, text, span⟩ :: ts) (Rule.negAtom.node [t]) :=
        (derives_unary rfl).2 ⟨_, ts, t, rfl, h, rfl, rfl⟩
      exact ⟨[], _, by simpa using derives_atom.2 (.inr ⟨_, .inr (.inl negAtom), rfl⟩)⟩
    · cases tail
  next text span toks =>
    have whole {c : Token} {ts : List Token} {u : Tree} (h : Derives .logicExpr ts u)
        (kind : c.kind = .rightParen) :
        ∃ v, Derives .atom (⟨.leftParen, text, span⟩ :: (ts ++ [c])) v :=
      ⟨_, derives_atom.2 (.inr ⟨_, .inr (.inr (derives_bracketed.2
        ⟨_, ts, u, c, rfl, h, kind, rfl, rfl⟩)), rfl⟩)⟩
    obtain refused | ⟨⟨inner, more⟩, read, tail⟩ := bind_eq_error.1 h
    · refine (logicExpr_stops sound stops refused).after
        (List.cons_ne_nil ⟨.leftParen, text, span⟩ []) fun h => ?_
      exact ⟨[anyToken .rightParen], whole h rfl⟩
    · obtain refused | ⟨_, _, tail⟩ := bind_eq_error.1 tail
      · obtain ⟨us, rfl, derived, _⟩ := logicExpr_sound sound read
        obtain rfl := expect_eq_error refused
        have viable : Viable .atom (⟨.leftParen, text, span⟩ :: us) :=
          ⟨[anyToken .rightParen], whole derived rfl⟩
        exact .of_ne_nil viable (by simp)
      · cases tail
  next toks int float isTrue isFalse name minus paren =>
    cases h
    refine ⟨[], rfl, ⟨_, _, derives_anyToken_int⟩, fun _ t mem among => ?_⟩
    obtain ⟨kind, text, span⟩ := t
    obtain ⟨more, rfl⟩ := List.head?_eq_some_iff.1 mem
    simp only [Rule.first, operandFirst, List.mem_cons, List.not_mem_nil, or_false] at among
    rcases among with rfl | rfl | rfl | rfl | rfl | rfl | rfl
    · exact int _ _ _ rfl
    · exact float _ _ _ rfl
    · exact isTrue _ _ _ rfl
    · exact isFalse _ _ _ rfl
    · exact name _ _ _ rfl
    · exact minus _ _ _ rfl
    · exact paren _ _ _ rfl

theorem atomUpTo_stops (bound : Nat) : Stops .atom (atomUpTo bound) := by
  induction bound with
  | zero =>
    intro room toks expected ahead h
    cases h
  | succ bound ih => exact atomAround_stops (atomUpTo_sound bound) ih

theorem line_stops (sound : Sound .atom atom) (stops : Stops .atom atom) :
    Stops .line (line atom) := by
  intro room toks expected ahead h
  have logic := logicExpr_stops sound stops
  simp only [line] at h
  split at h
  next name nameSpan sign signSpan toks =>
    obtain refused | ⟨_, _, tail⟩ := bind_eq_error.1 h
    · refine (logic refused).after
        (List.cons_ne_nil ⟨.name, name, nameSpan⟩ [⟨.assign, sign, signSpan⟩]) fun {ts t} h => ?_
      have assign : Derives .assignVar
          (⟨.name, name, nameSpan⟩ :: ⟨.assign, sign, signSpan⟩ :: ts)
          (Rule.assignVar.node [Terminal.varName.leaf name nameSpan, t]) :=
        derives_assignVar.2 ⟨_, _, ts, t, rfl, rfl, h, rfl, rfl⟩
      exact ⟨[], _, by simpa using derives_line.2 ⟨_, .inl assign, rfl⟩⟩
    · cases tail
  next =>
    exact wrapped_stops logic (fun h => ⟨_, derives_line.2 ⟨_, .inr h, rfl⟩⟩) (by decide) h

theorem endOfLine_eq_error
    (h : endOfLine toks = .error (.unexpected expected ahead)) : toks = ahead := by
  cases toks with
  | nil => cases h
  | cons t toks =>
    simp only [endOfLine] at h
    split at h <;> cases h
    rfl

/-- Where a line is refused at once, there is no newline ahead. -/
theorem lines_stops (sound : Sound .atom atom) (stops : Stops .atom atom) {bound : List Token}
    (h : lines atom room bound toks = .error (.unexpected expected ahead)) :
    ∃ used, toks = used ++ ahead ∧ (used = [] → ¬EndsLine ahead) ∧
      ∃ rest xs, Lines (used ++ rest) xs := by
  fun_induction lines atom room bound toks with
  | case1 _ bound n toks newline ih =>
    obtain ⟨used, rfl, _, rest, xs, whole⟩ := ih h
    exact ⟨n :: used, rfl, by simp, rest, xs, .newline newline whole⟩
  | case2 _ bound n toks other ih =>
    obtain refused | ⟨⟨first, more⟩, read, tail⟩ := bind_eq_error.1 h
    · obtain ⟨used, split, ⟨rest, t, derived⟩, _⟩ := line_stops sound stops refused
      refine ⟨used, split, ?_, rest, [t], ?_⟩
      · rintro rfl ends
        rw [List.nil_append] at split
        exact other (ends n (by simp [← split]))
      · simpa using Lines.line derived (by simp [EndsLine]) .nil
    · obtain ⟨us, split, derived, _⟩ := line_sound sound read
      obtain ⟨o, os, rfl, _⟩ := derived.exists_first (by decide)
      dsimp only at tail
      obtain refused | ⟨_, ends, tail⟩ := bind_eq_error.1 tail
      · refine ⟨o :: os, by rw [← endOfLine_eq_error refused, split], by simp, [], [first], ?_⟩
        simpa using Lines.line derived (by simp [EndsLine]) .nil
      · obtain refused | ⟨_, _, tail⟩ := bind_eq_error.1 tail
        · obtain ⟨used, rfl, notEnds, rest, xs, whole⟩ := ih more refused
          have ends : EndsLine (used ++ rest) := by
            cases used with
            | nil => exact absurd (endOfLine_eq_ok.1 ends) (notEnds rfl)
            | cons v used => simpa [EndsLine] using endOfLine_eq_ok.1 ends
          refine ⟨o :: os ++ used, by simpa using split, by simp, rest, first :: xs, ?_⟩
          simpa using Lines.line derived ends whole
        · cases tail
  | case3 => cases h

theorem block_stops (sound : Sound .atom atom) (stops : Stops .atom atom) :
    Stops .block (block atom) := by
  intro room toks expected ahead h
  obtain refused | ⟨_, _, tail⟩ := bind_eq_error.1 h
  · obtain ⟨used, rfl, _, rest, xs, whole⟩ := lines_stops sound stops refused
    exact ⟨used, rfl, ⟨rest, _, derives_block.2 ⟨xs, whole, rfl⟩⟩, by simp [Rule.first]⟩
  · cases tail

theorem Start.parser_stops (sound : Sound .atom atom) (stops : Stops .atom atom) (start : Start) :
    Stops start.rule (start.parser atom) := by
  cases start with
  | program => exact block_stops sound stops
  | line => exact line_stops sound stops
  | expression => exact logicExpr_stops sound stops
  | arith => exact arithExpr_stops sound stops

/-- The tokens before a refused one begin a sentence. -/
theorem viable_of_parseTokens {start : Start}
    (h : parseTokens start limit toks = .error (.unexpected expected ahead)) :
    ∃ used, toks = used ++ ahead ∧ Viable start.rule used := by
  have sound := atomUpTo_sound limit
  obtain refused | ⟨⟨t, rest⟩, read, tail⟩ := bind_eq_error.1 h
  · obtain ⟨used, rfl, viable, _⟩ := start.parser_stops sound (atomUpTo_stops limit) refused
    exact ⟨used, rfl, viable⟩
  · obtain ⟨used, rfl, derived, _⟩ := start.parser_sound sound read
    cases rest with
    | nil => cases tail
    | cons r rest =>
      cases tail
      exact ⟨used, rfl, .of_derives derived⟩

end

end Grammar
end Reckon
