import Reckon.Proofs.Coverage
import Reckon.Proofs.Recognition
import Reckon.Proofs.Scanning
import Reckon.Proofs.Shape
import Reckon.Proofs.Term

/-!
What is written is read and compiled back. The tokens of a term are derived from the rule of its
level, a rule of a lower level takes in the rules of all higher ones, and parentheses bring every
term up to the highest level.
-/

namespace Reckon

open Grammar

/-- The rule for terms of a level. -/
def Grammar.Rule.ofLevel : Nat → Rule
  | 0 | 1 => .disjunction
  | 2 => .conjunction
  | 3 => .negation
  | 4 => .comparison
  | 5 => .sum
  | 6 => .product
  | _ => .atom

/-- The tokens have a derivation from the rule that compiles to the expression, if there is enough
room and not too many transparent rules come before. -/
def Written (e : Expr) (r : Rule) (toks : List Token) : Prop :=
  ∃ t height, Derives r toks t ∧
    ∀ limit room hops, height ≤ room → hops ≤ r.rung → compileAt limit room hops t = .ok e

/-- The same for the indices of a variable. -/
def WrittenIndices (es : List Expr) (toks : List Token) : Prop :=
  ∃ ts height, Matches (.many .index) toks ts ∧
    ∀ limit room, height ≤ room → Tree.compileAll .standard limit room ts = .ok es

section
variable {e l u : Expr} {es : List Expr} {r s left right : Rule} {k : TokenKind}
  {toks ts us : List Token} {t : Tree} {o c : Token}

/-- A part needs one level more than its own parts. -/
theorem compilePart_eq_ok {height limit room : Nat}
    (h : ∀ limit room hops, height ≤ room → hops ≤ r.rung → compileAt limit room hops t = .ok e)
    (enough : height + 1 ≤ room) : compilePart limit room t = .ok e := by
  cases room with
  | zero => cases enough
  | succ room => exact h limit room 0 (Nat.le_of_succ_le_succ enough) (Nat.zero_le _)

theorem Written.transparent (h : Written e s toks) (transparent : r.construct? = none)
    (mem : s ∈ r.body.rules) : Written e r toks := by
  obtain ⟨t, height, derived, compiled⟩ := h
  refine ⟨r.node [t], height, .rule (matches_of_mem_rules mem derived), ?_⟩
  intro limit room hops enough few
  rw [compileAt_transparent transparent (Rule.few_hops few)]
  exact compiled limit room (hops + 1) enough (Nat.lt_of_le_of_lt few (Rule.rung_lt mem))

theorem Written.group (h : Written e .logicExpr toks) (ho : o.kind = .leftParen)
    (hc : c.kind = .rightParen) : Written e .bracketed (o :: (toks ++ [c])) := by
  obtain ⟨t, height, derived, compiled⟩ := h
  refine ⟨_, height + 1, derives_bracketed.2 ⟨o, toks, t, c, ho, derived, hc, rfl, rfl⟩, ?_⟩
  intro limit room hops enough few
  rw [compileAt_group (Rule.few_hops few)]
  exact compilePart_eq_ok compiled enough

theorem Written.unary {op : UnaryOp} (h : Written e s toks)
    (body : r.body = .silent k ++ .rule s) (construct : r.construct? = some (.unary op))
    (ho : o.kind = k) : Written (.unary op e) r (o :: toks) := by
  obtain ⟨t, height, derived, compiled⟩ := h
  refine ⟨_, height + 1, (derives_unary body).2 ⟨o, toks, t, ho, derived, rfl, rfl⟩, ?_⟩
  intro limit room hops enough few
  rw [compileAt_unary construct (Rule.few_hops few), compilePart_eq_ok compiled enough]
  rfl

theorem Written.binary {op : BinaryOp} (hl : Written l left ts) (hu : Written u right us)
    (body : r.body = .binary left k right) (construct : r.construct? = some (.binary op))
    (ho : o.kind = k) : Written (.binary op l u) r (ts ++ o :: us) := by
  obtain ⟨lt, lh, derivedL, compiledL⟩ := hl
  obtain ⟨ut, uh, derivedU, compiledU⟩ := hu
  refine ⟨_, max lh uh + 1,
    (derives_binary body).2 ⟨ts, lt, o, us, ut, derivedL, ho, derivedU, rfl, rfl⟩, ?_⟩
  intro limit room hops enough few
  rw [compileAt_binary construct (Rule.few_hops few), compilePart_eq_ok compiledL (by omega), ok_bind,
    compilePart_eq_ok compiledU (by omega)]
  rfl

theorem WrittenIndices.nil : WrittenIndices [] [] :=
  ⟨[], 0, .done, fun _ _ _ => by rw [Tree.compileAll]⟩

theorem WrittenIndices.cons (h : Written e .arithExpr ts) (hs : WrittenIndices es us)
    (ho : o.kind = .leftBracket) (hc : c.kind = .rightBracket) :
    WrittenIndices (e :: es) (o :: (ts ++ [c]) ++ us) := by
  obtain ⟨t, height, derived, compiled⟩ := h
  obtain ⟨trees, heights, matched, compiledAll⟩ := hs
  refine ⟨t :: trees, max (height + 1) heights,
    .more (matches_enclosed.2 ⟨o, ts, t, c, ho, derived, hc, rfl, rfl⟩) matched, ?_⟩
  intro limit room enough
  rw [compileAll_cons, compilePart_eq_ok compiled (by omega), ok_bind,
    compiledAll limit room (by omega)]
  rfl

theorem Written.variable (hs : WrittenIndices es us) (ho : o.kind = .name) :
    Written (.variable o.text es) .variable (o :: us) := by
  obtain ⟨trees, height, matched, compiled⟩ := hs
  refine ⟨_, height, derives_variable.2 ⟨o, us, trees, ho, matched, rfl, rfl⟩, ?_⟩
  intro limit room hops enough few
  rw [compileAt_variable (Rule.few_hops few), compiled limit room enough]
  rfl

theorem Written.literal {k : Terminal} {construct : Construct} (literal : k.isLiteral)
    (kind : o.kind = k.kind) (known : k.construct? = some construct)
    (value : ∀ span, Tree.compileTerminal k.name o.text span construct = .ok e) :
    Written e .atom [o] := by
  refine ⟨_, 0, derives_atom.2 (.inl ⟨k, o, literal, kind, rfl, rfl⟩), ?_⟩
  intro limit room hops _ few
  have next : hops + 1 ≤ maxPassThrough := Nat.lt_of_le_of_lt few (Rule.rung_lt_maxPassThrough _)
  rw [compileAt_transparent rfl (Nat.le_of_succ_le next), compileAt_leaf known next, value]

theorem Written.arith (h : Written e .sum toks) : Written e .arithExpr toks :=
  h.transparent rfl (by decide)

/-- A rule takes in what the rules of higher levels derive. -/
theorem Written.lower {need level : Nat} (h : Written e (.ofLevel level) toks)
    (le : need ≤ level) : Written e (.ofLevel need) toks := by
  have step (n : Nat) (h : Written e (.ofLevel (n + 1)) toks) : Written e (.ofLevel n) toks := by
    match n with
    | 0 => exact h
    | 1 | 2 | 3 | 5 | 6 => exact h.transparent rfl (by decide)
    | 4 => exact h.arith.transparent rfl (by decide)
    | n + 7 => exact h
  induction le with
  | refl => exact h
  | step _ ih => exact ih (step _ h)

/-- Parentheses bring a term up to the highest level. -/
theorem Written.parenthesized (h : Written e .disjunction toks) (ho : o.kind = .leftParen)
    (hc : c.kind = .rightParen) (need : Nat) : Written e (.ofLevel need) (o :: (toks ++ [c])) := by
  have logic : Written e .logicExpr toks := h.transparent rfl (by decide)
  have atom : Written e .atom (o :: (toks ++ [c])) :=
    (logic.group ho hc).transparent rfl (by decide)
  have highest : Written e (.ofLevel (need + 7)) (o :: (toks ++ [c])) := atom
  exact highest.lower (Nat.le_add_right need 7)

theorem Written.operation {op : BinaryOp} (hl : Written l (.ofLevel op.leftNeed) ts)
    (hu : Written u (.ofLevel op.rightNeed) us) (ho : o.kind = op.kind) :
    Written (.binary op l u) (.ofLevel op.level) (ts ++ o :: us) := by
  match op with
  | .logic .or =>
    exact Written.transparent (s := .orOp) (hl.binary hu rfl rfl ho) rfl (by decide)
  | .logic .and =>
    exact Written.transparent (s := .andOp) (hl.binary hu rfl rfl ho) rfl (by decide)
  | .relation op =>
    -- Between a comparison and its operands stands one more rule.
    have mem : .relation op ∈ Rule.comparison.body.rules := by cases op <;> decide
    exact (hl.arith.binary hu.arith rfl rfl ho).transparent rfl mem
  | .ring .add =>
    exact Written.transparent (s := .addition) (hl.binary hu rfl rfl ho) rfl (by decide)
  | .ring .sub =>
    exact Written.transparent (s := .subtraction) (hl.binary hu rfl rfl ho) rfl (by decide)
  | .ring .mul =>
    exact Written.transparent (s := .multiplication) (hl.binary hu rfl rfl ho) rfl (by decide)
  | .divide =>
    exact Written.transparent (s := .division) (hl.binary hu rfl rfl ho) rfl (by decide)

theorem Written.prefixed {op : UnaryOp} (h : Written e (.ofLevel op.level) toks)
    (ho : o.kind = op.kind) : Written (.unary op e) (.ofLevel op.level) (o :: toks) := by
  cases op with
  | negate => exact Written.transparent (s := .negAtom) (h.unary rfl rfl ho) rfl (by decide)
  | not => exact Written.transparent (s := .notOp) (h.unary rfl rfl ho) rfl (by decide)

end

namespace Term

section
variable {toks : List Token} {ps : List Piece}

/-- A term with or without parentheses, where some level is needed. -/
theorem written_placed {e : Expr} {need level : Nat}
    (h : ∀ toks : List Token, toks.map Token.piece = ps → Written e (.ofLevel level) toks)
    (pieces : toks.map Token.piece = placed need level ps) : Written e (.ofLevel need) toks := by
  rw [placed] at pieces
  split at pieces
  next =>
    obtain ⟨o, us, c, ho, hu, hc, rfl⟩ := exists_enclosed pieces
    exact Written.parenthesized ((h us hu).lower (Nat.zero_le _)) ho hc need
  next high => exact (h toks pieces).lower (Nat.le_of_not_lt high)

end

mutual

theorem written : (t : Term) → ∀ toks : List Token, toks.map Token.piece = t.pieces →
    Written t.expr (.ofLevel t.level) toks
  | .int n nonneg, toks, pieces => by
    obtain ⟨o, rfl, kind, text⟩ := exists_single pieces
    refine Written.literal (k := .int) rfl kind rfl fun span => ?_
    rw [Tree.compileTerminal, text, Numeral.int?_ofInt nonneg]
    rfl
  | .float text spelled, toks, pieces => by
    obtain ⟨o, rfl, kind, same⟩ := exists_single pieces
    refine Written.literal (k := .signedFloat) rfl kind rfl fun span => ?_
    rw [Tree.compileTerminal, same]
    split
    next x value => simp only [expr, value, Option.get_some]
    next none =>
      have float := Numeral.float?_isSome spelled
      rw [none] at float
      cases float
  | .bool true, toks, pieces => by
    obtain ⟨o, rfl, kind, text⟩ := exists_single pieces
    refine Written.literal (k := .true) rfl kind rfl fun span => ?_
    rw [text]
    rfl
  | .bool false, toks, pieces => by
    obtain ⟨o, rfl, kind, text⟩ := exists_single pieces
    refine Written.literal (k := .false) rfl kind rfl fun span => ?_
    rw [text]
    rfl
  | .variable name _ indices, toks, pieces => by
    obtain ⟨o, us, rfl, ho, hu⟩ := List.map_eq_cons_iff.1 pieces
    obtain rfl : o.text = name := congrArg Prod.snd ho
    have whole := Written.variable (writtenIndices indices us hu) (kind_of_piece ho)
    exact whole.transparent (r := .atom) rfl (by decide)
  | .unary op operand, toks, pieces => by
    obtain ⟨o, us, rfl, ho, hu⟩ := List.map_eq_cons_iff.1 pieces
    exact (written_placed operand.written hu).prefixed (kind_of_piece ho)
  | .binary op left right, toks, pieces => by
    obtain ⟨ts, rest, rfl, hl, h⟩ := List.map_eq_append_iff.1 pieces
    obtain ⟨o, us, rfl, ho, hr⟩ := List.map_eq_cons_iff.1 h
    exact (written_placed left.written hl).operation (written_placed right.written hr)
      (kind_of_piece ho)

theorem writtenIndices : (ts : List Term) → ∀ toks : List Token,
    toks.map Token.piece = indexPieces ts → WrittenIndices (exprs ts) toks
  | [], toks, pieces => by
    obtain rfl := List.map_eq_nil_iff.1 pieces
    exact .nil
  | t :: ts, toks, pieces => by
    obtain ⟨us, vs, rfl, hu, hv⟩ := List.map_eq_append_iff.1 pieces
    obtain ⟨o, ws, c, ho, hw, hc, rfl⟩ := exists_enclosed hu
    exact .cons (written_placed t.written hw).arith (writtenIndices ts vs hv) ho hc

end

end Term

/-- The text of a term, if spans reach its end, is read and compiled back to its expression, where
the limits are large enough. -/
theorem compile_parse_text (t : Term) (small : t.text.utf8ByteSize ≤ Span.maxOffset) :
    ∃ enough, ∀ parseLimit ≥ enough, ∀ limit ≥ enough, ∃ tree,
      parse t.text .expression parseLimit = .ok tree ∧
        tree.compile .standard limit = .ok t.expr := by
  obtain ⟨toks, scanned, _, pieces⟩ := Token.scan_spaced t.spelled_pieces
  have whole : Written t.expr .disjunction toks :=
    (t.written toks (pieces small)).lower (Nat.zero_le _)
  have logic : Written t.expr .logicExpr toks := whole.transparent rfl (by decide)
  obtain ⟨tree, height, derived, compiled⟩ := logic
  refine ⟨max tree.cost (height + 1), fun parseLimit hp limit hl => ⟨tree, ?_, ?_⟩⟩
  · exact parse_eq_ok_iff.2 ⟨toks, scanned, derived, by omega⟩
  · exact compilePart_eq_ok compiled (by omega)

/-- A product of a sum, in parentheses. -/
theorem compile_parse_text_product :
    ∃ t : Term, t.text = "2 * ( 3 + 4 )" ∧ t.text.utf8ByteSize ≤ Span.maxOffset ∧
      ∃ enough, ∀ parseLimit ≥ enough, ∀ limit ≥ enough, ∃ tree,
        parse t.text .expression parseLimit = .ok tree ∧
          tree.compile .standard limit = .ok t.expr := by
  let t : Term := .binary (.ring .mul) (.int 2 (by decide))
    (.binary (.ring .add) (.int 3 (by decide)) (.int 4 (by decide)))
  have small : t.text.utf8ByteSize ≤ Span.maxOffset := by decide
  exact ⟨t, rfl, small, compile_parse_text t small⟩

/-- The letter `a`, `n` times. -/
def longName (n : Nat) : String := String.ofList (List.replicate n 'a')

theorem spells_longName {n : Nat} (long : 5 < n) : Token.Spells .name (longName n).toList := by
  rw [longName, String.toList_ofList]
  constructor
  · obtain ⟨m, rfl⟩ := Nat.exists_eq_add_of_lt long
    refine ⟨rfl, fun d mem => ?_⟩
    rw [List.eq_of_mem_replicate mem]
    rfl
  · intro keyword
    have short : ∀ word ∈ Token.keywords, word.length ≤ 5 := by decide
    have length := short _ keyword
    rw [String.length_ofList, List.length_replicate] at length
    omega

section
variable {name : String}

/-- A quotient, and behind it a name with a constant as its index. -/
def indexedByTrue (spelled : Token.Spells .name name.toList) : Term :=
  .binary (.logic .or) (.binary .divide (.int 1 (by decide)) (.int 0 (by decide)))
    (.variable name spelled [.bool true])

theorem text_indexedByTrue (spelled : Token.Spells .name name.toList) :
    (indexedByTrue spelled).text = "1 / 0 or " ++ name ++ " [ True ]" := by
  rw [← String.toList_inj, Term.text, String.toList_intercalate, String.toList_append,
    String.toList_append]
  rfl

/-- Where the name takes up the last of the offsets, what stands behind it has no text. -/
theorem scan_indexedByTrue (spelled : Token.Spells .name name.toList)
    (far : Span.maxOffset ≤ 9 + name.utf8ByteSize) :
    Token.scan ("1 / 0 or " ++ name ++ " [ True ]") =
      .ok [⟨.int, "1", ⟨0, 1⟩⟩, ⟨.slash, "/", ⟨2, 3⟩⟩, ⟨.int, "0", ⟨4, 5⟩⟩, ⟨.or, "or", ⟨6, 8⟩⟩,
        Token.placed .name name.toList 9, Token.bare .leftBracket, Token.bare .true,
        Token.bare .rightBracket] := by
  have alone : Token.scan " [ True ]" = .ok [⟨.leftBracket, "[", ⟨1, 2⟩⟩,
      ⟨.true, "True", ⟨3, 7⟩⟩, ⟨.rightBracket, "]", ⟨8, 9⟩⟩] := rfl
  have cut : Token.first? (name.toList ++ " [ True ]".toList) = some (.name, name.toList) :=
    Token.first?_append spelled (by simp [Token.Apart, Token.isBlank])
  have behind := Token.scanFrom_straddling cut (by rwa [String.ofList_toList]) alone
  have digit (c : Char) (h : c.isDigit = true) : Token.Spells .int [c] :=
    ⟨List.cons_ne_nil c [], List.forall_mem_singleton.2 h⟩
  have or := Token.scanFrom_space (show Token.Spells .or ['o', 'r'] from rfl) behind
  have zero := Token.scanFrom_space (digit '0' rfl) or
  have slash := Token.scanFrom_space (show Token.Spells .slash ['/'] from rfl) zero
  have one := Token.scanFrom_space (digit '1' rfl) slash
  have chars : ("1 / 0 or " ++ name ++ " [ True ]").toList =
      ['1'] ++ ' ' :: (['/'] ++ ' ' :: (['0'] ++ ' ' :: (['o', 'r'] ++ ' ' ::
        (name.toList ++ " [ True ]".toList)))) := by
    rw [String.toList_append, String.toList_append, List.append_assoc]
    rfl
  rw [Token.scan_eq, chars, one]
  rfl

end

/-- A constant behind a name that takes up the last of the offsets has no text and is refused. -/
theorem compile_parse_text_fails :
    ∃ t : Term, t.text = "1 / 0 or " ++ longName 4294967286 ++ " [ True ]" ∧
      ∀ parseLimit limit tree, parse t.text .expression parseLimit = .ok tree →
        tree.compile .standard limit ≠ .ok t.expr := by
  have spelled : Token.Spells .name (longName 4294967286).toList := spells_longName (by decide)
  have far : Span.maxOffset ≤ 9 + (longName 4294967286).utf8ByteSize := by
    rw [longName, Token.utf8ByteSize_replicate rfl]
    decide
  refine ⟨indexedByTrue spelled, text_indexedByTrue spelled, fun parseLimit limit tree read => ?_⟩
  rw [text_indexedByTrue] at read
  exact compile_ne_ok (scan_indexedByTrue spelled far) read rfl

end Reckon
