import Reckon.Proofs.Form

/-!
The terminals of a tree from left to right. Those of a derivation are the names and literals among
its tokens, each with its text and its place, in the same order.
-/

namespace Reckon

namespace Tree

mutual

theorem leavesOnto_eq (rest : List Leaf) : (t : Tree) → t.leavesOnto rest = t.leaves ++ rest
  | .terminal _ _ _ => rfl
  | .rule name parts => by
    rw [leaves, leavesOnto, leavesOnto, leavesAllOnto_eq rest parts, leavesAllOnto_eq [] parts,
      List.append_nil]

theorem leavesAllOnto_eq (rest : List Leaf) :
    (ts : List Tree) → leavesAllOnto ts rest = ts.flatMap leaves ++ rest
  | [] => rfl
  | t :: ts => by
    rw [leavesAllOnto, leavesAllOnto_eq rest ts, leavesOnto_eq _ t, List.flatMap_cons,
      List.append_assoc]

end

theorem leaves_rule (name : String) (parts : List Tree) :
    (Tree.rule name parts).leaves = parts.flatMap leaves := by
  rw [leaves, leavesOnto, leavesAllOnto_eq, List.append_nil]

end Tree

namespace Grammar

/-- The terminal for tokens of this kind, if it is not silent. -/
def Terminal.ofKind? : TokenKind → Option Terminal
  | .int => some .int
  | .float => some .signedFloat
  | .true => some .true
  | .false => some .false
  | .name => some .varName
  | _ => none

/-- The trace a token leaves in the tree. -/
def leaf? (t : Token) : Option Leaf :=
  (Terminal.ofKind? t.kind).map fun k => ⟨k.name, t.text, t.span⟩

theorem Terminal.ofKind?_kind (k : Terminal) : ofKind? k.kind = some k := by
  cases k <;> rfl

theorem leaves_node (r : Rule) (parts : List Tree) :
    (r.node parts).leaves = parts.flatMap Tree.leaves :=
  Tree.leaves_rule r.name parts

theorem leaves_leaf (k : Terminal) (text : String) (span : Span) :
    (k.leaf text span).leaves = [⟨k.name, text, span⟩] := rfl

/-- The silent tokens of the form are of kinds that no terminal has. -/
def Form.quiet : Form → Bool
  | .nothing | .rule _ | .terminal _ => true
  | .silent k => Terminal.ofKind? k = none
  | .seq first second => first.quiet && second.quiet
  | .choice left right => left.quiet && right.quiet
  | .many form => form.quiet

theorem Rule.quiet_body (r : Rule) : r.body.quiet := by
  cases r <;> rfl

theorem Matches.leaves_eq {f : Form} {ts : List Token} {xs : List Tree} (h : Matches f ts xs)
    (quiet : f.quiet) : xs.flatMap Tree.leaves = ts.filterMap leaf? := by
  induction h with
  | nothing | done => rfl
  | @rule r ts parts _ ih =>
    rw [List.flatMap_singleton, leaves_node]
    exact ih r.quiet_body
  | @terminal k t kind =>
    rw [List.flatMap_singleton, leaves_leaf]
    simp [leaf?, kind, Terminal.ofKind?_kind]
  | @silent k t kind =>
    have none := of_decide_eq_true quiet
    simp [leaf?, kind, none]
  | seq _ _ ih₁ ih₂ =>
    have both := Bool.and_eq_true_iff.1 quiet
    rw [List.flatMap_append, List.filterMap_append, ih₁ both.1, ih₂ both.2]
  | left _ ih => exact ih (Bool.and_eq_true_iff.1 quiet).1
  | right _ ih => exact ih (Bool.and_eq_true_iff.1 quiet).2
  | more _ _ ih₁ ih₂ => rw [List.flatMap_append, List.filterMap_append, ih₁ quiet, ih₂ quiet]

theorem Derives.leaves_eq {r : Rule} {ts : List Token} {t : Tree} (h : Derives r ts t) :
    t.leaves = ts.filterMap leaf? := by
  simpa using Matches.leaves_eq h rfl

theorem Terminal.kind_of_ofKind? {k : Terminal} {kind : TokenKind} (h : ofKind? kind = some k) :
    kind = k.kind := by
  unfold ofKind? at h
  split at h <;> cases h <;> rfl

/-- Every terminal of a derivation stands for one of the tokens. -/
theorem Derives.exists_token {r : Rule} {ts : List Token} {t : Tree} {l : Leaf}
    (h : Derives r ts t) (mem : l ∈ t.leaves) :
    ∃ tok ∈ ts, ∃ k : Terminal, tok.kind = k.kind ∧ l = ⟨k.name, tok.text, tok.span⟩ := by
  rw [h.leaves_eq] at mem
  obtain ⟨tok, among, trace⟩ := List.mem_filterMap.1 mem
  obtain ⟨k, kind, rfl⟩ := Option.map_eq_some_iff.1 trace
  exact ⟨tok, among, k, Terminal.kind_of_ofKind? kind, rfl⟩

end Grammar
end Reckon
