import Reckon.Proofs.Leaves
import Reckon.Proofs.Nesting
import Reckon.Proofs.Recognition
import Reckon.Proofs.SourceText

/-!
The spans of a tree that was read. Its terminals are the names and literals of the source, in order
and each where its span says. The span of a node covers the terminals below it, so where these are in
order it reaches from the first to the last of them, and the spans of parts of one node follow each
other.
-/

namespace Reckon

namespace Tree

/-- The smallest span covering all terminals of a row; none if there are none. -/
def hull : List Leaf → Option Span
  | [] => none
  | l :: ls => mergeSpans (some l.span) (hull ls)

/-- `u` is a node of the tree. -/
inductive Within (u : Tree) : Tree → Prop where
  | root : Within u u
  | part {name : String} {parts : List Tree} {t : Tree} (mem : t ∈ parts) (h : Within u t) :
      Within u (.rule name parts)

/-- The terminals of the row stand one behind the other. -/
structure InOrder (ls : List Leaf) : Prop where
  placed : ∀ l ∈ ls, l.span.start ≤ l.span.stop
  ordered : ls.Pairwise fun l m => l.span.stop ≤ m.span.start

section
variable {a b c : Option Span} {ls ms : List Leaf} {t u : Tree} {s : Span}

@[simp] theorem mergeSpans_none : mergeSpans a none = a := by
  cases a <;> rfl

@[simp] theorem none_mergeSpans : mergeSpans none a = a := by
  cases a <;> rfl

theorem mergeSpans_assoc : mergeSpans (mergeSpans a b) c = mergeSpans a (mergeSpans b c) := by
  rcases a with _ | a
  · simp
  rcases b with _ | b
  · simp
  rcases c with _ | c
  · simp
  · exact congrArg some (Span.merge_assoc a b c)

theorem hull_append : hull (ls ++ ms) = mergeSpans (hull ls) (hull ms) := by
  induction ls with
  | nil => exact none_mergeSpans.symm
  | cons l ls ih => rw [List.cons_append, hull, hull, ih, mergeSpans_assoc]

/-- The span of a node covers the terminals below it and nothing more. -/
theorem span?_eq_hull (t : Tree) : t.span? = hull t.leaves := by
  induction t using Tree.induction with
  | terminal kind text span => rfl
  | rule name parts ih =>
    rw [span?, leaves_rule]
    induction parts with
    | nil => rfl
    | cons t ts rest =>
      obtain ⟨head, tail⟩ := List.forall_mem_cons.1 ih
      rw [spanAll?, List.flatMap_cons, hull_append, head, rest tail]

theorem Within.leaves_sublist (h : u.Within t) : u.leaves.Sublist t.leaves := by
  induction h with
  | root => exact .refl _
  | @part name parts t mem _ ih =>
    rw [leaves_rule, List.flatMap_def]
    exact ih.trans (List.sublist_flatten_of_mem (List.mem_map_of_mem mem))

theorem InOrder.sublist (h : InOrder ms) (sub : ls.Sublist ms) : InOrder ls :=
  ⟨fun l mem => h.placed l (sub.mem mem), h.ordered.sublist sub⟩

/-- Where terminals are in order, the first and the last are the ends of what covers them. -/
theorem InOrder.hull_eq (h : InOrder ls) (nonempty : ls ≠ []) :
    hull ls = some ⟨(ls.head nonempty).span.start, (ls.getLast nonempty).span.stop⟩ := by
  induction ls with
  | nil => exact absurd rfl nonempty
  | cons l ls ih =>
    have here := h.placed l (List.mem_cons_self ..)
    have front := (List.pairwise_cons.1 h.ordered).1
    have tail := h.sublist (List.sublist_cons_self l ls)
    by_cases empty : ls = []
    · subst empty
      rfl
    · have next := front _ (List.head_mem empty)
      have last := front _ (List.getLast_mem empty)
      have lastPlaced := tail.placed _ (List.getLast_mem empty)
      rw [hull, ih tail empty, List.head_cons, List.getLast_cons empty, mergeSpans, Span.merge,
        Nat.min_eq_left (by dsimp only; omega), Nat.max_eq_right (by dsimp only; omega)]

/-- A node whose terminals are in order begins where one of them does and ends where one does. -/
theorem InOrder.exists_ends (h : InOrder t.leaves) (covers : t.span? = some s) :
    ∃ first ∈ t.leaves, ∃ last ∈ t.leaves, s = ⟨first.span.start, last.span.stop⟩ := by
  rw [span?_eq_hull] at covers
  by_cases empty : t.leaves = []
  · rw [empty] at covers
    cases covers
  · rw [h.hull_eq empty] at covers
    cases covers
    exact ⟨_, List.head_mem empty, _, List.getLast_mem empty, rfl⟩

/-- Where terminals are in order, the parts of a node are. -/
theorem InOrder.children_ordered (h : InOrder t.leaves) :
    t.children.Pairwise fun u v => ∀ s ∈ u.span?, ∀ r ∈ v.span?, s.stop ≤ r.start := by
  cases t with
  | terminal => exact .nil
  | rule name parts =>
    have inner {u : Tree} (mem : u ∈ parts) : InOrder u.leaves :=
      h.sublist (Within.part mem .root).leaves_sublist
    have apart := h.ordered
    rw [leaves_rule] at apart
    refine (List.pairwise_flatMap.1 apart).2.imp_of_mem fun {u v} memU memV apart s hs r hr => ?_
    obtain ⟨_, _, last, among, rfl⟩ := (inner memU).exists_ends hs
    obtain ⟨first, among', _, _, rfl⟩ := (inner memV).exists_ends hr
    exact apart last among first among'

end

end Tree

/-- The tree lies on the source: its terminals are the names and literals among the tokens, each
where its span says, and every node reaches from its first terminal to its last. -/
structure Tree.LiesOn (t : Tree) (source : String) (toks : List Token) : Prop where
  leaves : t.leaves = toks.filterMap Grammar.leaf?
  text : ∀ l ∈ t.leaves, l.span.start < l.span.stop ∧ l.span.stop ≤ source.utf8ByteSize ∧
    l.span.bytes source = l.text.toUTF8
  ordered : t.leaves.Pairwise fun l m => l.span.stop ≤ m.span.start
  span : ∀ u : Tree, u.Within t → ∀ nonempty : u.leaves ≠ [], u.span? =
    some ⟨(u.leaves.head nonempty).span.start, (u.leaves.getLast nonempty).span.stop⟩
  children : ∀ u : Tree, u.Within t →
    u.children.Pairwise fun v w => ∀ s ∈ v.span?, ∀ r ∈ w.span?, s.stop ≤ r.start

section
variable {source : String} {toks : List Token} {t : Tree} {r : Grammar.Rule} {l : Leaf}

/-- Every terminal of what was read stands in the source at its span, and is not empty. -/
theorem Grammar.Derives.shows (small : source.utf8ByteSize ≤ Span.maxOffset)
    (scanned : Token.scan source = .ok toks) (h : Derives r toks t) (mem : l ∈ t.leaves) :
    l.span.Shows source l.text ∧ l.text ≠ "" := by
  obtain ⟨tok, among, k, _, rfl⟩ := h.exists_token mem
  exact ⟨Token.shows_of_scan scanned among, Token.text_ne_empty_of_scan small scanned among⟩

theorem Grammar.leaf?_span {tok : Token} (h : l ∈ leaf? tok) : l.span = tok.span := by
  obtain ⟨_, _, rfl⟩ := Option.map_eq_some_iff.1 h
  rfl

theorem Grammar.Derives.leaves_inOrder (small : source.utf8ByteSize ≤ Span.maxOffset)
    (scanned : Token.scan source = .ok toks) (h : Derives r toks t) : Tree.InOrder t.leaves := by
  refine ⟨fun l mem => (h.shows small scanned mem).1.ordered, ?_⟩
  rw [h.leaves_eq, List.pairwise_filterMap]
  refine (Token.ordered_of_scan small scanned).imp fun {t u} before l hl m hm => ?_
  rwa [leaf?_span hl, leaf?_span hm]

end

/-- A tree that was read lies on the source it was read from. -/
theorem liesOn_of_parse (source : String) (start : Grammar.Start) (limit : Nat) (t : Tree)
    (small : source.utf8ByteSize ≤ Span.maxOffset) (read : parse source start limit = .ok t) :
    ∃ toks, Token.scan source = .ok toks ∧ t.LiesOn source toks := by
  obtain ⟨toks, scanned, derived, _⟩ := parse_eq_ok_iff.1 read
  have inOrder := derived.leaves_inOrder small scanned
  refine ⟨toks, scanned, derived.leaves_eq, fun l mem => ?_, inOrder.ordered, fun u below => ?_,
    fun u below => (inOrder.sublist below.leaves_sublist).children_ordered⟩
  · obtain ⟨shows, ne⟩ := derived.shows small scanned mem
    exact ⟨shows.start_lt_stop ne, shows.within, shows.bytes_eq⟩
  · rw [Tree.span?_eq_hull]
    exact (inOrder.sublist below.leaves_sublist).hull_eq

/-- The spans reach over the operators, brackets and blanks between the terminals. -/
theorem liesOn_of_parse_chain :
    ∃ t, parse "x = (2 - y[1])\n True" .program 9 = .ok t ∧
      ∃ toks, Token.scan "x = (2 - y[1])\n True" = .ok toks ∧
        t.LiesOn "x = (2 - y[1])\n True" toks :=
  ⟨_, rfl, liesOn_of_parse "x = (2 - y[1])\n True" .program 9 _ (by decide) rfl⟩

end Reckon
