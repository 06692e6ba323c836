import Reckon.Proofs.Coverage
import Reckon.Proofs.EvaluationDepth
import Reckon.Proofs.IntegerArithmetic
import Reckon.Proofs.Levels

/-!
Sources of integers. What is written with integer literals, `+`, `-`, `*`, unary minus and
parentheses stands for an expression over the integers, and its program computes that expression in
words. It compiles unless a literal is beyond 64 bits, and then yields the exact value or says which
operation has none in 64 bits.
-/

namespace Reckon

namespace Grammar

/-- The tokens of integer arithmetic. -/
def integerKinds : List TokenKind := [.int, .plus, .minus, .star, .leftParen, .rightParen]

/-- Rules with one part, which stands for them. -/
def wrappers : List Rule :=
  [.line, .logicExpr, .disjunction, .conjunction, .negation, .comparison, .arithExpr, .sum,
    .product, .atom, .bracketed]

/-- The operation of a rule with two operands. -/
def ringOp? (name : String) : Option RingOp :=
  if name = Rule.addition.name then some .add
  else if name = Rule.subtraction.name then some .sub
  else if name = Rule.multiplication.name then some .mul
  else none

/-- The values of the integer literals, from left to right. -/
def integersOf (toks : List Token) : List Nat :=
  (toks.filter (·.kind = .int)).map fun t => Nat.ofDigitChars 10 t.text.toList 0

end Grammar

open Grammar

/-- What a tree stands for, if it is one of integer arithmetic. -/
def Tree.integer? : Tree → Option IntExpr
  | .terminal kind text _ =>
    if kind = Terminal.int.name then some (.numeral (Nat.ofDigitChars 10 text.toList 0)) else none
  | .rule name [t] =>
    if name = Rule.negAtom.name then t.integer?.map .negate
    else if name ∈ wrappers.map Rule.name then t.integer?
    else none
  | .rule name [t, u] => do
    let op ← ringOp? name
    return .ring op (← t.integer?) (← u.integer?)
  | .rule _ _ => none

namespace Grammar

/-- The tree is one of integer arithmetic, with the literals among the tokens, and its program is
that of the expression it stands for. -/
structure Arithmetic (r : Rule) (ts : List Token) (t : Tree) (a : IntExpr) : Prop where
  form : t.integer? = some a
  numerals : a.numerals = integersOf ts
  program : ∀ {limit room hops e}, hops ≤ r.rung → compileAt limit room hops t = .ok e →
    e = a.program

section
variable {r s : Rule} {op : RingOp} {ts us : List Token} {t u : Tree} {a b : IntExpr} {o c : Token}
  {limit room : Nat} {e : Expr}

theorem integer?_wrapper (mem : r ∈ wrappers) : (r.node [t]).integer? = t.integer? := by
  have other : r.name ≠ Rule.negAtom.name := by
    revert r
    decide
  rw [Rule.node, Tree.integer?, if_neg other, if_pos (List.mem_map_of_mem mem)]

theorem integer?_int {text : String} {span : Span} :
    (Rule.atom.node [Terminal.int.leaf text span]).integer? =
      some (.numeral (Nat.ofDigitChars 10 text.toList 0)) := by
  rw [integer?_wrapper (by decide), Terminal.leaf, Tree.integer?, if_pos rfl]

theorem integer?_negAtom : (Rule.negAtom.node [t]).integer? = t.integer?.map .negate := by
  rw [Rule.node, Tree.integer?, if_pos rfl]

theorem integer?_ring (rule : ringOp? r.name = some op) (left : t.integer? = some a)
    (right : u.integer? = some b) : (r.node [t, u]).integer? = some (.ring op a b) := by
  rw [Rule.node, Tree.integer?, rule, left, right]
  rfl

theorem integersOf_append : integersOf (ts ++ us) = integersOf ts ++ integersOf us := by
  simp [integersOf]

theorem integersOf_silent (kind : o.kind ≠ .int) : integersOf (o :: ts) = integersOf ts := by
  simp [integersOf, kind]

theorem integersOf_enclosed (opening : o.kind ≠ .int) (closing : c.kind ≠ .int) :
    integersOf (o :: (ts ++ [c])) = integersOf ts := by
  rw [integersOf_silent opening, integersOf_append, integersOf_silent closing]
  exact List.append_nil _

/-- Where the tokens are does not matter. -/
theorem integersOf_congr (same : us.map Token.piece = ts.map Token.piece) :
    integersOf us = integersOf ts := by
  have ofPieces (ts : List Token) : integersOf ts =
      ((ts.map Token.piece).filter (·.1 = .int)).map fun p => Nat.ofDigitChars 10 p.2.toList 0 := by
    rw [List.filter_map, List.map_map]
    rfl
  rw [ofPieces, ofPieces, same]

theorem forall_integersOf {p : Nat → Prop} :
    (∀ n ∈ integersOf ts, p n) ↔
      ∀ l ∈ ts, l.kind = .int → p (Nat.ofDigitChars 10 l.text.toList 0) := by
  simp only [integersOf, List.forall_mem_map, List.mem_filter, decide_eq_true_eq, and_imp]

theorem Arithmetic.part (h : Arithmetic r ts t a) (compiled : compilePart limit room t = .ok e) :
    e = a.program := by
  obtain ⟨below, _, compiled⟩ := Tree.descend_eq_ok.1 compiled
  exact h.program (Nat.zero_le _) compiled

theorem Arithmetic.wrapper (h : Arithmetic s ts t a) (transparent : r.construct? = none)
    (mem : r ∈ wrappers) (rises : r.rung < s.rung) : Arithmetic r ts (r.node [t]) a where
  form := by rw [integer?_wrapper mem, h.form]
  numerals := h.numerals
  program few compiled := by
    rw [compileAt_transparent transparent (Rule.few_hops few)] at compiled
    exact h.program (Nat.lt_of_le_of_lt few rises) compiled

theorem Arithmetic.literal {l : Token} (kind : l.kind = .int)
    (digits : Token.IsDigits l.text.toList) :
    Arithmetic .atom [l] (Rule.atom.node [Terminal.int.leaf l.text l.span])
      (.numeral (Nat.ofDigitChars 10 l.text.toList 0)) where
  form := integer?_int
  numerals := by simp [IntExpr.numerals, integersOf, kind]
  program few compiled := by
    -- The literal stands one transparent rule below the atom.
    have next : _ + 1 ≤ maxPassThrough :=
      Nat.lt_of_le_of_lt few (Rule.rung_lt_maxPassThrough _)
    rw [compileAt_transparent rfl (Nat.le_of_succ_le next), compileAt_leaf rfl next,
      Tree.compileTerminal, Numeral.int?_of_isDigits digits, int64?] at compiled
    split at compiled
    next eq =>
      split at eq
      next =>
        cases eq
        cases compiled
        rfl
      next => cases eq
    next => cases compiled

theorem Arithmetic.group (h : Arithmetic .logicExpr ts t a) (opening : o.kind ≠ .int)
    (closing : c.kind ≠ .int) :
    Arithmetic .bracketed (o :: (ts ++ [c])) (Rule.bracketed.node [t]) a where
  form := by rw [integer?_wrapper (by decide), h.form]
  numerals := by rw [integersOf_enclosed opening closing, h.numerals]
  program few compiled := by
    rw [compileAt_group (Rule.few_hops few)] at compiled
    exact h.part compiled

theorem Arithmetic.negate (h : Arithmetic .atom ts t a) (sign : o.kind ≠ .int) :
    Arithmetic .negAtom (o :: ts) (Rule.negAtom.node [t]) (.negate a) where
  form := by
    rw [integer?_negAtom, h.form]
    rfl
  numerals := by
    rw [integersOf_silent sign]
    exact h.numerals
  program few compiled := by
    rw [compileAt_unary rfl (Rule.few_hops few)] at compiled
    obtain ⟨operand, part, ⟨⟩⟩ := bind_eq_ok.1 compiled
    rw [h.part part]
    rfl

theorem Arithmetic.ring {left right : Rule} (ha : Arithmetic left ts t a)
    (hb : Arithmetic right us u b) (named : ringOp? r.name = some op)
    (construct : r.construct? = some (.binary (.ring op))) (sign : o.kind ≠ .int) :
    Arithmetic r (ts ++ o :: us) (r.node [t, u]) (.ring op a b) where
  form := integer?_ring named ha.form hb.form
  numerals := by
    rw [integersOf_append, integersOf_silent sign, ← ha.numerals, ← hb.numerals]
    rfl
  program few compiled := by
    rw [compileAt_binary construct (Rule.few_hops few)] at compiled
    obtain ⟨x, partX, compiled⟩ := bind_eq_ok.1 compiled
    obtain ⟨y, partY, ⟨⟩⟩ := bind_eq_ok.1 compiled
    rw [ha.part partX, hb.part partY]
    rfl

/-- A derivation from tokens of integer arithmetic is one of integer arithmetic. -/
theorem Derives.arithmetic (h : Derives r ts t) (expression : r ≠ .block)
    (integers : ∀ l ∈ ts, l.kind ∈ integerKinds)
    (spelled : ∀ l ∈ ts, Token.Spells l.kind l.text.toList) : ∃ a, Arithmetic r ts t a := by
  refine h.token_induction (P := fun r ts t => r ≠ .block → (∀ l ∈ ts, l.kind ∈ integerKinds) →
    (∀ l ∈ ts, Token.Spells l.kind l.text.toList) → ∃ a, Arithmetic r ts t a)
    ?transparent ?literal ?group ?unary ?binary ?indexed ?assigned ?block
    expression integers spelled
  case transparent =>
    intro r s ts parts transparent mem ih _ integers spelled
    have rises := Rule.rung_lt mem
    have inner : s ≠ .block := by
      rintro rfl
      cases rises
    obtain ⟨a, h⟩ := ih inner integers spelled
    have wrapper : r ∈ wrappers := by
      cases r <;> first | decide | cases transparent
    exact ⟨a, h.wrapper transparent wrapper rises⟩
  case literal =>
    intro k l literal kind _ integers spelled
    have among := integers l (List.mem_singleton.2 rfl)
    have text := spelled l (List.mem_singleton.2 rfl)
    rw [kind] at among text
    cases k with
    | int => exact ⟨_, .literal kind text⟩
    | _ => exact absurd among (by decide)
  case group =>
    intro o c ts t opening closing ih _ integers spelled
    obtain ⟨_, integers⟩ := List.forall_mem_cons.1 integers
    obtain ⟨_, spelled⟩ := List.forall_mem_cons.1 spelled
    obtain ⟨a, h⟩ := ih (by decide) (List.forall_mem_append.1 integers).1
      (List.forall_mem_append.1 spelled).1
    exact ⟨a, h.group (by simp [opening]) (by simp [closing])⟩
  case unary =>
    intro r k s op o ts t body construct kind ih _ integers spelled
    obtain ⟨sign, integers⟩ := List.forall_mem_cons.1 integers
    obtain ⟨_, spelled⟩ := List.forall_mem_cons.1 spelled
    cases r with
    | negAtom =>
      cases body
      obtain ⟨a, h⟩ := ih (by decide) integers spelled
      exact ⟨_, h.negate (by simp [kind])⟩
    | notOp =>
      cases body
      rw [kind] at sign
      exact absurd sign (by decide)
    | _ => cases construct
  case binary =>
    intro r left k right op ts o us t u body construct kind iht ihu _ integers spelled
    obtain ⟨integersT, rest⟩ := List.forall_mem_append.1 integers
    obtain ⟨sign, integersU⟩ := List.forall_mem_cons.1 rest
    obtain ⟨spelledT, rest⟩ := List.forall_mem_append.1 spelled
    obtain ⟨_, spelledU⟩ := List.forall_mem_cons.1 rest
    rw [kind] at sign
    cases r with
    | addition | subtraction | multiplication =>
      cases body
      obtain ⟨a, ha⟩ := iht (by decide) integersT spelledT
      obtain ⟨b, hb⟩ := ihu (by decide) integersU spelledU
      exact ⟨_, ha.ring hb rfl rfl (by simp [kind])⟩
    | division | andOp | orOp | relation _ =>
      cases body
      exact absurd sign (by simp [integerKinds])
    | _ => cases construct
  -- Names are no tokens of integer arithmetic.
  case indexed =>
    intro name ts indices kind _ _ integers
    have among := integers name (List.mem_cons_self ..)
    rw [kind] at among
    exact absurd among (by decide)
  case assigned =>
    intro name sign ts t kind _ _ integers
    have among := integers name (List.mem_cons_self ..)
    rw [kind] at among
    exact absurd among (by decide)
  case block =>
    intro ts lines _ expression
    exact absurd rfl expression

/-- No literal is too large exactly if all integers among the tokens fit. -/
theorem Derives.find?_isTooLarge_eq_none (h : Derives r ts t) :
    t.leaves.find? Leaf.isTooLarge = none ↔ ∀ n ∈ integersOf ts, n ≤ 9223372036854775807 := by
  have greatest : Int64.maxValue.toInt = 9223372036854775807 := by decide
  rw [List.find?_eq_none, forall_integersOf]
  constructor
  · intro none l mem kind
    have leaf : ⟨Terminal.int.name, l.text, l.span⟩ ∈ t.leaves := by
      rw [h.leaves_eq]
      exact List.mem_filterMap.2 ⟨l, mem, by simp [leaf?, kind, Terminal.ofKind?]⟩
    have fits := none _ leaf
    simp only [Leaf.isTooLarge, greatest, decide_eq_true_eq, true_and] at fits
    omega
  · intro fits l mem large
    obtain ⟨tok, among, k, kind, rfl⟩ := h.exists_token mem
    obtain ⟨named, beyond⟩ := of_decide_eq_true large
    cases Terminal.name_injective (j := k) named
    have := fits tok among kind
    rw [greatest] at beyond
    dsimp only at beyond
    omega

/-- With enough levels, what is read compiles exactly if all integers in it fit. -/
theorem Derives.compiles_iff (h : Derives r ts t)
    (spelled : ∀ l ∈ ts, Token.Spells l.kind l.text.toList) (enough : t.levels .standard ≤ limit) :
    (∃ e, t.compile .standard limit = .ok e) ↔ ∀ n ∈ integersOf ts, n ≤ 9223372036854775807 := by
  have covered : Covered limit t.leaves (t.compile .standard limit) := h.compile_covered
  have gauged := Tree.compile_gauged .standard limit t
  rw [← h.find?_isTooLarge_eq_none, ← Option.map_eq_none_iff,
    ← Leaf.findSome?_refusal?_eq (h.leaves_spelled spelled)]
  generalize t.compile .standard limit = result at covered gauged
  cases covered with
  | ok none => exact ⟨fun _ => none, fun _ => ⟨_, rfl⟩⟩
  | tooDeep => exact absurd (gauged.tooFew rfl) (Nat.not_lt.2 enough)
  | refused first =>
    rw [first]
    exact ⟨nofun, nofun⟩

/-- What compiles yields what the program of the expression yields. -/
theorem Arithmetic.run (h : Arithmetic r ts t a) (compiled : t.compile .standard limit = .ok e)
    (fits : ∀ n ∈ integersOf ts, n ≤ 9223372036854775807) (env : Environment) :
    ∃ result, e.eval limit env = (result, env) ∧ a.Computes result := by
  obtain rfl := h.part compiled
  rw [← h.numerals] at fits
  rw [Tree.eval_eq_plain compiled]
  exact IntExpr.plain_program fits env

end

end Grammar

/-- A source of integer literals, `+`, `-`, `*`, unary minus and parentheses that is read, and that
spans reach the end of, stands for an expression over the integers with these literals. Where the
limits are large enough, it compiles exactly if all literals fit 64 bits. Its program then yields the
exact value if the values of all subexpressions fit, and if not, the overflow of the first operation,
in postorder, whose operands fit and whose value does not. Whatever value it yields is exact. -/
theorem integer_program_exact (source : String) (start : Start) (parseLimit : Nat)
    (toks : List Token) (tree : Tree) (small : source.utf8ByteSize ≤ Span.maxOffset)
    (expression : start ≠ .program) (scanned : Token.scan source = .ok toks)
    (integers : ∀ t ∈ toks, t.kind ∈ integerKinds)
    (read : parse source start parseLimit = .ok tree) :
    ∃ a, tree.integer? = some a ∧ a.numerals = integersOf toks ∧
      ∃ enough, ∀ limit ≥ enough,
        parse source start limit = .ok tree ∧
        ((∃ e, tree.compile .standard limit = .ok e) ↔
          ∀ n ∈ integersOf toks, n ≤ 9223372036854775807) ∧
        ∀ e env, tree.compile .standard limit = .ok e →
          ((∃ n : Int64, e.eval limit env = (.ok (.int n), env) ∧ n.toInt = a.exact) ↔
            ∀ s ∈ a.postorder, InWord s.exact) ∧
          ((¬∀ s ∈ a.postorder, InWord s.exact) →
            ∃ s op, a.postorder.find? (·.Overflows) = some s ∧ s.operation? = some op ∧
              e.eval limit env = (.error (.integerOverflow op), env)) ∧
          ∀ v left, e.eval limit env = (.ok v, left) →
            ∃ n : Int64, v = .int n ∧ n.toInt = a.exact := by
  obtain ⟨toks', scanned', derived, cost⟩ := parse_eq_ok_iff.1 read
  obtain rfl := Except.ok.inj (scanned.symm.trans scanned')
  have spelled := Token.scan_spells small scanned
  have noBlock : start.rule ≠ .block := by
    cases start <;> first | decide | exact absurd rfl expression
  obtain ⟨a, arithmetic⟩ := derived.arithmetic noBlock integers spelled
  refine ⟨a, arithmetic.form, arithmetic.numerals,
    max tree.cost (tree.levels .standard), fun limit enough => ?_⟩
  obtain ⟨costFits, levelsFit⟩ : tree.cost ≤ limit ∧ tree.levels .standard ≤ limit := by omega
  have compiles := derived.compiles_iff spelled levelsFit
  refine ⟨parse_eq_ok_iff.2 ⟨toks, scanned, derived, costFits⟩, compiles, fun e env compiled => ?_⟩
  obtain ⟨result, run, computes⟩ := arithmetic.run compiled (compiles.1 ⟨e, compiled⟩) env
  rw [run]
  simp only [Prod.mk.injEq, and_true]
  refine ⟨computes.ok_iff, computes.error_of_beyond, ?_⟩
  rintro v left ⟨rfl, rfl⟩
  exact computes.exact_of_ok

/-- The least word is the value of a difference, and it has no negation. -/
theorem integer_program_exact_negation :
    ∃ tree enough, ∀ limit ≥ enough,
      parse "2 * -(-9223372036854775807 - 1)" .expression limit = .ok tree ∧
        ∃ e, tree.compile .standard limit = .ok e ∧
          ∀ env, e.eval limit env = (.error (.integerOverflow .negate), env) := by
  obtain ⟨toks, tree, scanned, read, integers, literals, form⟩ : ∃ toks tree,
      Token.scan "2 * -(-9223372036854775807 - 1)" = .ok toks ∧
      parse "2 * -(-9223372036854775807 - 1)" .expression 100 = .ok tree ∧
      (∀ t ∈ toks, t.kind ∈ integerKinds) ∧ integersOf toks = [2, 9223372036854775807, 1] ∧
      tree.integer? = some (.ring .mul (.numeral 2) (.negate (.ring .sub
        (.negate (.numeral 9223372036854775807)) (.numeral 1)))) :=
    ⟨_, _, rfl, rfl, by decide, rfl, rfl⟩
  obtain ⟨a, stands, _, enough, exact⟩ := integer_program_exact
    "2 * -(-9223372036854775807 - 1)" .expression 100 toks tree (by decide) (by decide) scanned
    integers read
  obtain rfl := Option.some.inj (form.symm.trans stands)
  refine ⟨tree, enough, fun limit le => ?_⟩
  obtain ⟨read, compiles, runs⟩ := exact limit le
  obtain ⟨e, compiled⟩ := compiles.2 (by rw [literals]; decide)
  refine ⟨read, e, compiled, fun env => ?_⟩
  obtain ⟨s, op, first, operation, failed⟩ := (runs e env compiled).2.1 (by decide)
  cases first
  cases operation
  exact failed

/-- Beyond the largest offset a literal has no text and stands for no integer. -/
theorem integer_program_beyond_spans :
    ∃ toks tree, Token.scan (Token.spaces 4294967296 ++ "1") = .ok toks ∧
      (∀ t ∈ toks, t.kind ∈ integerKinds) ∧
      parse (Token.spaces 4294967296 ++ "1") .expression 2 = .ok tree ∧
      (∀ n ∈ integersOf toks, n ≤ 9223372036854775807) ∧
      ∀ limit e, tree.compile .standard limit ≠ .ok e := by
  have alone : Token.scan "1" = .ok [⟨.int, "1", ⟨0, 1⟩⟩] := rfl
  have scanned : Token.scan (Token.spaces 4294967296 ++ "1") = .ok [Token.bare .int] :=
    Token.scan_far (by decide) alone
  obtain ⟨tree, read⟩ : ∃ tree,
      parse (Token.spaces 4294967296 ++ "1") .expression 2 = .ok tree := by
    rw [parse, scanned]
    exact ⟨_, rfl⟩
  exact ⟨_, tree, scanned, by decide, read, by decide, fun _ _ => compile_ne_ok scanned read rfl⟩

end Reckon
