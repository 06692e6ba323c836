import Reckon.Proofs.LongSources
import Reckon.Proofs.Numerals
import Reckon.Proofs.Recognition
import Reckon.Proofs.Shape
import Reckon.Proofs.SourceText

/-!
The standard vocabulary covers the grammar: what the parser returns compiles, unless it is nested too
deeply or a literal in it has a text that is none of its kind. Up to the largest offset of a span
that is an integer beyond 64 bits and nothing else; farther on, literals may be cut short. Every rule
is known with the parts it has or is transparent with one part, and the rungs of the grammar keep
rows of transparent rules short.
-/

namespace Reckon

open Grammar

/-- Texts that are read as values of the kind. -/
def LiteralKind.accepts (kind : LiteralKind) (text : String) : Bool :=
  match kind with
  | .integer => (Numeral.int? text).isSome
  | .float => (Numeral.float? text).isSome
  | .boolean => text = "True" ∨ text = "False"

namespace Leaf

/-- What the terminal is a literal of. -/
def literalKind? (l : Leaf) : Option LiteralKind :=
  if l.kind = Terminal.int.name then some .integer
  else if l.kind = Terminal.signedFloat.name then some .float
  else if l.kind = Terminal.true.name ∨ l.kind = Terminal.false.name then some .boolean
  else none

/-- The error of a literal whose text is none of its kind. -/
def refusal? (l : Leaf) : Option CompileError :=
  match l.literalKind? with
  | some kind => if kind.accepts l.text then none else some (.invalidLiteral kind l.text l.span)
  | none => none

/-- An integer literal beyond 64 bits. -/
def isTooLarge (l : Leaf) : Bool :=
  l.kind = Terminal.int.name ∧ Int64.maxValue.toInt < Nat.ofDigitChars 10 l.text.toList 0

/-- The text of the terminal is one of its kind. -/
def IsSpelled (l : Leaf) : Prop :=
  ∃ k : Terminal, l.kind = k.name ∧ Token.Spells k.kind l.text.toList

variable {l : Leaf} {leaves : List Leaf} {text : String} {span : Span} {e : CompileError}

theorem refusal?_varName : refusal? ⟨Terminal.varName.name, text, span⟩ = none := rfl

theorem refusal?_eq {kind : LiteralKind} (literal : l.literalKind? = some kind) :
    l.refusal? =
      if kind.accepts l.text then none else some (.invalidLiteral kind l.text l.span) := by
  rw [refusal?, literal]

/-- A literal is refused as the literal it is, at its place. -/
theorem exists_of_refusal? (refused : l.refusal? = some e) :
    ∃ kind, l.literalKind? = some kind ∧ e = .invalidLiteral kind l.text l.span := by
  rw [refusal?] at refused
  split at refused
  next kind literal =>
    split at refused <;> cases refused
    exact ⟨kind, literal, rfl⟩
  next => cases refused

theorem isTooLarge_iff_of_int :
    isTooLarge ⟨Terminal.int.name, text, span⟩ ↔
      Int64.maxValue.toInt < Nat.ofDigitChars 10 text.toList 0 := by
  rw [isTooLarge, decide_eq_true_iff, and_iff_right rfl]

/-- Of the literals that are spelled as what they are, only integers that are too large are
refused. -/
theorem IsSpelled.refusal?_eq (h : l.IsSpelled) :
    l.refusal? = if l.isTooLarge then some (.invalidLiteral .integer l.text l.span) else none := by
  obtain ⟨kind, text, span⟩ := l
  obtain ⟨k, rfl, spelled⟩ := h
  have exactly {s : String} (h : some s = some (String.ofList text.toList)) : text = s := by
    rw [Option.some.inj h, String.ofList_toList]
  cases k with
  | int =>
    have large : Numeral.int? text = none ↔ isTooLarge ⟨Terminal.int.name, text, span⟩ :=
      (Numeral.int?_eq_none_iff spelled).trans isTooLarge_iff_of_int.symm
    rw [Leaf.refusal?_eq rfl, LiteralKind.accepts]
    cases beyond : isTooLarge ⟨Terminal.int.name, text, span⟩ with
    | true => rw [large.2 beyond, if_neg nofun, if_pos rfl]
    | false =>
      have reads : (Numeral.int? text).isSome := Option.isSome_iff_ne_none.2 fun value =>
        Bool.false_ne_true (beyond.symm.trans (large.1 value))
      rw [if_pos reads, if_neg nofun]
  | signedFloat => exact if_pos (Numeral.float?_isSome spelled)
  | true =>
    rw [exactly spelled]
    rfl
  | false =>
    rw [exactly spelled]
    rfl
  | varName => rfl

theorem findSome?_refusal?_eq (spelled : ∀ l ∈ leaves, l.IsSpelled) :
    leaves.findSome? refusal? =
      (leaves.find? isTooLarge).map fun l => .invalidLiteral .integer l.text l.span := by
  induction leaves with
  | nil => rfl
  | cons l ls ih =>
    obtain ⟨head, tail⟩ := List.forall_mem_cons.1 spelled
    rw [List.findSome?_cons, List.find?_cons, head.refusal?_eq, ih tail]
    cases l.isTooLarge <;> rfl

end Leaf

/-- Compiling what has these terminals succeeds and meets no literal to refuse, or it stops at the
first of them or for lack of levels. -/
inductive Covered (limit : Nat) (leaves : List Leaf) {α : Type} : Except CompileError α → Prop where
  | ok {a : α} (none : leaves.findSome? Leaf.refusal? = none) : Covered limit leaves (.ok a)
  | tooDeep : Covered limit leaves (.error (.depthExceeded limit))
  | refused {e : CompileError} (first : leaves.findSome? Leaf.refusal? = some e) :
      Covered limit leaves (.error e)

namespace Covered

variable {limit : Nat} {as bs : List Leaf} {α β : Type} {x : Except CompileError α}

/-- Only the first refusal matters. -/
theorem of_findSome? (hx : Covered limit as x)
    (same : bs.findSome? Leaf.refusal? = as.findSome? Leaf.refusal?) : Covered limit bs x := by
  cases hx with
  | ok none => exact .ok (same.trans none)
  | tooDeep => exact .tooDeep
  | refused first => exact .refused (same.trans first)

/-- One step after the other: the terminals of the first step come first. -/
theorem bind {f : α → Except CompileError β} (hx : Covered limit as x)
    (hf : ∀ a, Covered limit bs (f a)) : Covered limit (as ++ bs) (x >>= f) := by
  cases hx with
  | @ok a none =>
    refine (hf a).of_findSome? ?_
    rw [List.findSome?_append, none, Option.none_or]
  | tooDeep => exact .tooDeep
  | refused first =>
    refine .refused ?_
    rw [List.findSome?_append, first, Option.some_or]

theorem map {f : α → β} (hx : Covered limit as x) :
    Covered limit as (do return f (← x)) := by
  have done (a : α) : Covered limit [] (pure (f a) : Except CompileError β) := .ok rfl
  have both := hx.bind done
  rw [List.append_nil] at both
  exact both

theorem descend {room : Nat} {k : Nat → Except CompileError Expr}
    (hk : ∀ room, Covered limit as (k room)) : Covered limit as (Tree.descend limit room k) := by
  cases room with
  | zero => exact .tooDeep
  | succ room => exact hk room

/-- A literal compiles if its text is accepted, and is refused if not. -/
theorem literal {l : Leaf} {kind : LiteralKind} (literal : l.literalKind? = some kind)
    (result : if kind.accepts l.text then ∃ a, x = .ok a
      else x = .error (.invalidLiteral kind l.text l.span)) : Covered limit [l] x := by
  split at result
  next accepted =>
    obtain ⟨a, rfl⟩ := result
    refine .ok ?_
    rw [List.findSome?_singleton, Leaf.refusal?_eq literal, if_pos accepted]
  next refused =>
    rw [result]
    refine .refused ?_
    rw [List.findSome?_singleton, Leaf.refusal?_eq literal, if_neg refused]

/-- A step behind a terminal that is not refused. -/
theorem behind {l : Leaf} (hx : Covered limit as x) (kept : l.refusal? = none) :
    Covered limit (l :: as) x := by
  refine hx.of_findSome? ?_
  rw [List.findSome?_cons, kept]

end Covered

namespace Grammar

section
variable {limit room hops : Nat}

theorem literal_covered {k : Terminal} {text : String} {span : Span} (literal : k.isLiteral)
    (few : hops ≤ maxPassThrough) :
    Covered limit [⟨k.name, text, span⟩] (compileAt limit room hops (k.leaf text span)) := by
  cases k with
  | varName => cases literal
  | int =>
    rw [compileAt_leaf rfl few, Tree.compileTerminal]
    refine .literal rfl ?_
    cases value : Numeral.int? text <;> simp [LiteralKind.accepts, value, Tree.invalid]
  | signedFloat =>
    rw [compileAt_leaf rfl few, Tree.compileTerminal]
    refine .literal rfl ?_
    cases value : Numeral.float? text <;> simp [LiteralKind.accepts, value, Tree.invalid]
  | true | false =>
    rw [compileAt_leaf rfl few, Tree.compileTerminal]
    refine .literal rfl ?_
    by_cases yes : text = "True"
    · simp [LiteralKind.accepts, yes]
    · by_cases no : text = "False" <;> simp [LiteralKind.accepts, yes, no, Tree.invalid]

theorem compileAll_covered {ts : List Tree}
    (h : ∀ t ∈ ts, ∀ room, Covered limit t.leaves (compileAt limit room 0 t)) :
    Covered limit (ts.flatMap Tree.leaves) (Tree.compileAll .standard limit room ts) := by
  induction ts with
  | nil =>
    rw [Tree.compileAll]
    exact .ok rfl
  | cons t ts ih =>
    obtain ⟨head, tail⟩ := List.forall_mem_cons.1 h
    rw [compileAll_cons, List.flatMap_cons]
    exact (Covered.descend head).bind fun _ => (ih tail).map

theorem Terminal.name_injective {j k : Terminal} (h : j.name = k.name) : j = k := by
  cases j <;> cases k <;> first | rfl | exact absurd h (by decide)

theorem Terminal.kind_injective {j k : Terminal} (h : j.kind = k.kind) : j = k := by
  cases j <;> cases k <;> first | rfl | cases h

/-- The literals of a derivation are met from left to right. -/
theorem Derives.covered {r : Rule} {ts : List Token} {t : Tree} (h : Derives r ts t)
    (few : hops ≤ r.rung) : Covered limit t.leaves (compileAt limit room hops t) := by
  refine h.induction (P := fun r t => ∀ room hops, hops ≤ r.rung →
    Covered limit t.leaves (compileAt limit room hops t))
    ?transparent ?literal ?group ?unary ?binary ?indexed ?assigned ?block room hops few
  case transparent =>
    intro r s parts transparent mem ih room hops few
    rw [leaves_node, List.flatMap_singleton, compileAt_transparent transparent (Rule.few_hops few)]
    exact ih room (hops + 1) (Nat.lt_of_le_of_lt few (Rule.rung_lt mem))
  case literal =>
    intro k l literal _ room hops few
    -- The literal stands one transparent rule below the atom.
    have next : hops + 1 ≤ maxPassThrough :=
      Nat.lt_of_le_of_lt few (Rule.rung_lt_maxPassThrough _)
    rw [leaves_node, List.flatMap_singleton, leaves_leaf,
      compileAt_transparent rfl (Nat.le_of_succ_le next)]
    exact literal_covered literal next
  case group =>
    intro t ih room hops few
    rw [leaves_node, List.flatMap_singleton, compileAt_group (Rule.few_hops few)]
    exact .descend fun room => ih room 0 (Nat.zero_le _)
  case unary =>
    intro r k s op t _ unary ih room hops few
    rw [leaves_node, List.flatMap_singleton, compileAt_unary unary (Rule.few_hops few)]
    exact .map (.descend fun room => ih room 0 (Nat.zero_le _))
  case binary =>
    intro r left k right op t u _ binary iht ihu room hops few
    rw [leaves_node, List.flatMap_cons, List.flatMap_singleton,
      compileAt_binary binary (Rule.few_hops few)]
    refine .bind (.descend fun room => iht room 0 (Nat.zero_le _)) fun _ => ?_
    exact .map (.descend fun room => ihu room 0 (Nat.zero_le _))
  case indexed =>
    intro text span indices ih room hops few
    rw [leaves_node, List.flatMap_cons, leaves_leaf, List.singleton_append,
      compileAt_variable (Rule.few_hops few)]
    refine .behind (.map (compileAll_covered fun t mem room => ?_)) Leaf.refusal?_varName
    exact ih t mem room 0 (Nat.zero_le _)
  case assigned =>
    intro text span t ih room hops few
    rw [leaves_node, List.flatMap_cons, List.flatMap_singleton, leaves_leaf,
      List.singleton_append, compileAt_assignVar (Rule.few_hops few)]
    refine .behind (.map (.descend fun room => ?_)) Leaf.refusal?_varName
    exact ih room 0 (Nat.zero_le _)
  case block =>
    intro lines ih room hops few
    rw [leaves_node, compileAt_block (Rule.few_hops few)]
    exact .map (compileAll_covered fun t mem room => ih t mem room 0 (Nat.zero_le _))

theorem Derives.compile_covered {r : Rule} {ts : List Token} {t : Tree} (h : Derives r ts t) :
    Covered limit t.leaves (t.compile .standard limit) :=
  .descend fun _ => h.covered (Nat.zero_le _)

theorem Derives.leaves_spelled {r : Rule} {ts : List Token} {t : Tree} (h : Derives r ts t)
    (spelled : ∀ t ∈ ts, Token.Spells t.kind t.text.toList) : ∀ l ∈ t.leaves, l.IsSpelled := by
  intro l mem
  obtain ⟨tok, among, k, kind, rfl⟩ := h.exists_token mem
  exact ⟨k, rfl, kind ▸ spelled tok among⟩

end

end Grammar

/-- What holds a literal to refuse does not compile, however many levels there are. -/
theorem compile_ne_ok {source : String} {start : Start} {parseLimit limit : Nat}
    {toks : List Token} {t : Tree} {e : Expr} {err : CompileError}
    (scanned : Token.scan source = .ok toks) (read : parse source start parseLimit = .ok t)
    (refused : (toks.filterMap leaf?).findSome? Leaf.refusal? = some err) :
    t.compile .standard limit ≠ .ok e := by
  intro compiled
  have derived := derives_of_parse scanned read
  have covered : Covered limit t.leaves (t.compile .standard limit) := derived.compile_covered
  rw [compiled, derived.leaves_eq] at covered
  cases covered with
  | ok none =>
    rw [refused] at none
    cases none

/-- Whatever is read compiles, or it is refused for its depth or for the leftmost literal in it whose
text is none of its kind; no other error is possible. In a source that spans reach the end of, that
is the leftmost integer beyond 64 bits. -/
theorem compile_standard_covers (source : String) (start : Start) (parseLimit limit : Nat)
    (t : Tree) (read : parse source start parseLimit = .ok t) :
    ((∃ e, t.compile .standard limit = .ok e) ∨
      t.compile .standard limit = .error (.depthExceeded limit) ∨
      ∃ kind text span,
        t.leaves.findSome? Leaf.refusal? = some (.invalidLiteral kind text span) ∧
        t.compile .standard limit = .error (.invalidLiteral kind text span)) ∧
    (source.utf8ByteSize ≤ Span.maxOffset →
      (∃ e, t.compile .standard limit = .ok e) ∨
        t.compile .standard limit = .error (.depthExceeded limit) ∨
        ∃ l, t.leaves.find? Leaf.isTooLarge = some l ∧
          t.compile .standard limit = .error (.invalidLiteral .integer l.text l.span)) := by
  obtain ⟨toks, scanned, derived, _⟩ := parse_eq_ok_iff.1 read
  have covered : Covered limit t.leaves (t.compile .standard limit) := derived.compile_covered
  generalize t.compile .standard limit = result at covered ⊢
  cases covered with
  | ok _ => exact ⟨.inl ⟨_, rfl⟩, fun _ => .inl ⟨_, rfl⟩⟩
  | tooDeep => exact ⟨.inr (.inl rfl), fun _ => .inr (.inl rfl)⟩
  | refused first =>
    refine ⟨.inr (.inr ?_), fun small => .inr (.inr ?_)⟩
    · obtain ⟨l, _, refused⟩ := List.exists_of_findSome?_eq_some first
      obtain ⟨kind, _, rfl⟩ := Leaf.exists_of_refusal? refused
      exact ⟨kind, l.text, l.span, first, rfl⟩
    · have spelled := derived.leaves_spelled (Token.scan_spells small scanned)
      rw [Leaf.findSome?_refusal?_eq spelled] at first
      obtain ⟨l, large, rfl⟩ := Option.map_eq_some_iff.1 first
      exact ⟨l, large, rfl⟩

theorem compile_standard_covers_overflow :
    ∃ t, parse "x = .5 - 9223372036854775808" .program 4 = .ok t ∧
      "x = .5 - 9223372036854775808".utf8ByteSize ≤ Span.maxOffset ∧
      ((∃ e, t.compile .standard 9 = .ok e) ∨
        t.compile .standard 9 = .error (.depthExceeded 9) ∨
        ∃ l, t.leaves.find? Leaf.isTooLarge = some l ∧
          t.compile .standard 9 = .error (.invalidLiteral .integer l.text l.span)) :=
  ⟨_, rfl, by decide,
    (compile_standard_covers "x = .5 - 9223372036854775808" .program 4 9 _ rfl).2 (by decide)⟩

/-- A literal beyond the largest offset has no text, and is refused although it is no integer. -/
theorem compile_standard_refuses_boolean :
    ∃ t, parse (Token.spaces 4294967296 ++ "True") .program 2 = .ok t ∧
      t.compile .standard 2 =
        .error (.invalidLiteral .boolean "" ⟨Span.maxOffset, Span.maxOffset⟩) := by
  have alone : Token.scan "True" = .ok [⟨.true, "True", ⟨0, 4⟩⟩] := rfl
  rw [parse, Token.scan_far (by decide) alone]
  exact ⟨_, rfl, rfl⟩

end Reckon
