import Mathlib.Order.Bounds.Basic
import Reckon.Proofs.TreeSpans

/-!
The span of a node as the hull of its terminals. Only which spans its terminals have counts: not the
rules they are parts of, not their order, and not the rules that hold no terminal. Nothing is asked
of the spans; they may be empty, reversed or overlap.
-/

namespace Reckon

/-- The span begins where one of the spans does and none begins before, and ends where one of them
does and none ends after. -/
structure Span.IsHull (spans : Set Span) (s : Span) : Prop where
  start : IsLeast (Span.start '' spans) s.start
  stop : IsGreatest (Span.stop '' spans) s.stop

/-- Spans merged from left to right, beginning with the first. -/
def Span.mergeFirst? : List Span → Option Span
  | [] => none
  | s :: rest => some (rest.foldl Span.merge s)

instance : Std.Associative Span.merge := ⟨Span.merge_assoc⟩

namespace Span.IsHull

variable {spans : Set Span} {s r : Span}

theorem single (s : Span) : IsHull {s} s := by
  refine ⟨?_, ?_⟩ <;> rw [Set.image_singleton]
  · exact isLeast_singleton
  · exact isGreatest_singleton

theorem insert (h : IsHull spans s) (r : Span) : IsHull (insert r spans) (r.merge s) := by
  refine ⟨?_, ?_⟩ <;> rw [Set.image_insert_eq]
  · exact h.start.insert r.start
  · exact h.stop.insert r.stop

theorem nonempty (h : IsHull spans s) : spans.Nonempty :=
  Set.image_nonempty.1 h.start.nonempty

theorem unique (hs : IsHull spans s) (hr : IsHull spans r) : s = r := by
  have start := hs.start.unique hr.start
  have stop := hs.stop.unique hr.stop
  cases s
  cases r
  exact congrArg₂ Span.mk start stop

end Span.IsHull

namespace Tree

/-- The spans of the terminals among the nodes of the tree. -/
def terminalSpans (t : Tree) : Set Span := {s | ∃ kind text, (Tree.terminal kind text s).Within t}

section
variable {l : Leaf} {ls : List Leaf} {t : Tree} {s : Span} {name : String} {parts : List Tree}

theorem mem_leaves_iff : l ∈ t.leaves ↔ (Tree.terminal l.kind l.text l.span).Within t := by
  constructor
  · intro mem
    induction t using Tree.induction with
    | terminal kind text span =>
      cases List.mem_singleton.1 mem
      exact .root
    | rule name parts ih =>
      rw [leaves_rule] at mem
      obtain ⟨part, among, mem⟩ := List.mem_flatMap.1 mem
      exact .part among (ih part among mem)
  · intro below
    exact below.leaves_sublist.mem (List.mem_singleton_self l)

theorem terminalSpans_eq (t : Tree) : t.terminalSpans = {s | s ∈ t.leaves.map Leaf.span} := by
  refine Set.ext fun s => ⟨?_, fun mem => ?_⟩
  · rintro ⟨kind, text, below⟩
    exact List.mem_map.2 ⟨⟨kind, text, s⟩, mem_leaves_iff.2 below, rfl⟩
  · obtain ⟨l, among, rfl⟩ := List.mem_map.1 mem
    exact ⟨l.kind, l.text, mem_leaves_iff.1 among⟩

theorem hull_eq_none_iff : hull ls = none ↔ ls = [] := by
  cases ls with
  | nil => exact iff_of_true rfl rfl
  | cons l ls =>
    refine iff_of_false (fun none => ?_) (List.cons_ne_nil l ls)
    rw [hull] at none
    cases rest : hull ls <;> rw [rest] at none <;> cases none

/-- What covers a row of terminals is the hull of their spans, however they lie. -/
theorem isHull_of_hull (h : hull ls = some s) : s.IsHull {r | r ∈ ls.map Leaf.span} := by
  induction ls generalizing s with
  | nil => cases h
  | cons l ls ih =>
    have spans : {r | r ∈ (l :: ls).map Leaf.span} = insert l.span {r | r ∈ ls.map Leaf.span} :=
      Set.ext fun r => List.mem_cons
    rw [spans]
    cases rest : hull ls with
    | none =>
      rw [hull, rest] at h
      cases h
      obtain rfl := hull_eq_none_iff.1 rest
      simpa using Span.IsHull.single l.span
    | some r =>
      rw [hull, rest] at h
      cases h
      exact (ih rest).insert l.span

theorem span?_eq_none_iff : t.span? = none ↔ t.terminalSpans = ∅ := by
  rw [span?_eq_hull, hull_eq_none_iff, terminalSpans_eq, Set.eq_empty_iff_forall_notMem]
  simp [List.eq_nil_iff_forall_not_mem]

theorem span?_eq_some_iff : t.span? = some s ↔ s.IsHull t.terminalSpans := by
  have covers {r : Span} (h : t.span? = some r) : r.IsHull t.terminalSpans := by
    rw [span?_eq_hull] at h
    rw [terminalSpans_eq]
    exact isHull_of_hull h
  refine ⟨covers, fun least => ?_⟩
  cases found : t.span? with
  | none =>
    rw [span?_eq_none_iff] at found
    exact absurd found least.nonempty.ne_empty
  | some r => rw [(covers found).unique least]

theorem spanAll?_eq_mergeFirst? (ts : List Tree) :
    spanAll? ts = Span.mergeFirst? (ts.filterMap span?) := by
  induction ts with
  | nil => rfl
  | cons t ts ih =>
    rw [spanAll?, ih]
    cases here : t.span? with
    | none => rw [List.filterMap_cons_none here, none_mergeSpans]
    | some s =>
      rw [List.filterMap_cons_some here]
      cases ts.filterMap span? with
      | nil => rfl
      | cons r rest => exact congrArg some List.foldl_assoc.symm

end

/-- The span of a node is the hull of the terminals below it: there is none exactly if there is no
terminal, and else it begins with the least of their starts and ends with the greatest of their
ends. So trees whose terminals have the same spans have the same span themselves, however the
terminals are grouped, in whatever order they stand, and whatever rules without terminals stand
among them. It comes about by merging the spans of the parts that have one, from left to right. -/
theorem span_is_hull_of_terminals :
    (∀ t : Tree, (t.span? = none ↔ t.terminalSpans = ∅) ∧
      ∀ s, t.span? = some s ↔ s.IsHull t.terminalSpans) ∧
    (∀ t u : Tree, t.terminalSpans = u.terminalSpans → t.span? = u.span?) ∧
    ∀ name parts, (Tree.rule name parts).span? = Span.mergeFirst? (parts.filterMap span?) := by
  refine ⟨fun t => ⟨span?_eq_none_iff, fun s => span?_eq_some_iff⟩, fun t u same => ?_,
    fun name parts => spanAll?_eq_mergeFirst? parts⟩
  refine Option.ext fun s => ?_
  rw [span?_eq_some_iff, span?_eq_some_iff, same]

/-- A reversed span and an empty one, in another order, under other rules and beside other rules
without terminals. -/
theorem span_is_hull_of_terminals_regrouped :
    ∃ t u : Tree, t.leaves.map Leaf.span = [⟨7, 2⟩, ⟨3, 3⟩] ∧
      u.leaves.map Leaf.span = [⟨3, 3⟩, ⟨7, 2⟩] ∧ t.terminalSpans = u.terminalSpans ∧
        t.span? = u.span? ∧ u.span? = some ⟨3, 3⟩ := by
  let t := Tree.rule "a"
    [.rule "b" [], .terminal "k" "x" ⟨7, 2⟩, .rule "c" [.terminal "k" "y" ⟨3, 3⟩]]
  let u := Tree.rule "d"
    [.terminal "l" "y" ⟨3, 3⟩, .rule "e" [.rule "f" [], .rule "f" []], .terminal "k" "z" ⟨7, 2⟩]
  have same : t.terminalSpans = u.terminalSpans := by
    rw [terminalSpans_eq, terminalSpans_eq]
    exact Set.ext fun s => (List.Perm.swap (⟨3, 3⟩ : Span) ⟨7, 2⟩ []).mem_iff
  exact ⟨t, u, rfl, rfl, same, span_is_hull_of_terminals.2.1 t u same, rfl⟩

end Tree
end Reckon
