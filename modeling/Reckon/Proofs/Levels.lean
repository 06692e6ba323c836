import Reckon.Proofs.Compilation
import Reckon.Proofs.Nesting

/-!
The levels a tree takes up while it is compiled. A node that stands for a construct takes one level
more than the deepest of its parts, and a transparent one takes as many as its part. Compiling runs
out of levels only if there are fewer than that, and succeeds only if there are as many.
-/

namespace Reckon
namespace Tree

mutual

/-- The levels open at the deepest place while the tree is compiled. The names of variables are not
compiled, and a node that cannot be compiled takes the level it stands on. -/
def levels (vocabulary : Vocabulary) : Tree → Nat
  | .terminal _ _ _ => 1
  | .rule name parts =>
    match vocabulary.get? name with
    | none =>
      match parts with
      | [only] => levels vocabulary only
      | _ => 1
    | some .assignment | some .variable =>
      match parts with
      | [] => 1
      | _ :: others => levelsAll vocabulary others + 1
    | some _ => levelsAll vocabulary parts + 1

def levelsAll (vocabulary : Vocabulary) : List Tree → Nat
  | [] => 0
  | t :: ts => max (levels vocabulary t) (levelsAll vocabulary ts)

end

/-- The result of compiling something of `levels` levels where `room` levels are left: they are
too few if it says so, and enough if it succeeds. -/
structure Gauged (levels room : Nat) {α : Type} (result : Except CompileError α) : Prop where
  tooFew : ∀ {limit}, result = .error (.depthExceeded limit) → room < levels
  enough : ∀ {a}, result = .ok a → levels ≤ room

namespace Gauged

variable {α β : Type} {m n room limit : Nat} {x : Except CompileError α}

theorem ok {a : α} (enough : n ≤ room) : Gauged n room (.ok a : Except CompileError α) where
  tooFew h := nomatch h
  enough _ := enough

theorem error {e : CompileError} (other : ∀ limit, e ≠ .depthExceeded limit) :
    Gauged n room (.error e : Except CompileError α) where
  tooFew h := absurd (Except.error.inj h) (other _)
  enough h := nomatch h

theorem bind {f : α → Except CompileError β} (hx : Gauged m room x)
    (hf : ∀ a, Gauged n room (f a)) : Gauged (max m n) room (x >>= f) := by
  cases x with
  | error e =>
    refine ⟨?_, fun h => nomatch h⟩
    intro limit h
    cases h
    exact Nat.lt_of_lt_of_le (hx.tooFew rfl) (Nat.le_max_left m n)
  | ok a =>
    refine ⟨?_, ?_⟩
    · intro limit h
      exact Nat.lt_of_lt_of_le ((hf a).tooFew h) (Nat.le_max_right m n)
    · intro b h
      exact Nat.max_le.2 ⟨hx.enough rfl, (hf a).enough h⟩

theorem map {f : α → β} (hx : Gauged n room x) : Gauged n room (do return f (← x)) := by
  have done (a : α) : Gauged 0 room (pure (f a) : Except CompileError β) := .ok (Nat.zero_le _)
  have both := hx.bind done
  rw [Nat.max_zero] at both
  exact both

/-- A level more on both sides. -/
theorem succ (hx : Gauged n room x) : Gauged (n + 1) (room + 1) x where
  tooFew h := Nat.succ_lt_succ (hx.tooFew h)
  enough h := Nat.succ_le_succ (hx.enough h)

theorem descend {k : Nat → Except CompileError Expr} (pos : 0 < n)
    (hk : ∀ room, Gauged n (room + 1) (k room)) : Gauged n room (Tree.descend limit room k) := by
  cases room with
  | zero => exact ⟨fun _ => pos, fun h => nomatch h⟩
  | succ room => exact hk room

end Gauged

theorem levels_pos (vocabulary : Vocabulary) (t : Tree) : 0 < t.levels vocabulary := by
  induction t using Tree.induction with
  | terminal kind text span =>
    rw [levels]
    decide
  | rule name parts ih =>
    rw [levels.eq_def]
    dsimp only
    split
    · split
      next only => exact ih only (List.mem_singleton.2 rfl)
      next => decide
    · split <;> simp
    · split <;> simp
    · exact Nat.succ_pos _

theorem compileTerminal_gauged {kind text : String} {span : Span} {room : Nat}
    (construct : Construct) :
    Gauged 1 (room + 1) (compileTerminal kind text span construct) := by
  unfold compileTerminal
  split
  · split
    · exact .ok (Nat.le_add_left 1 room)
    · exact .error nofun
  · split
    · exact .ok (Nat.le_add_left 1 room)
    · exact .error nofun
  · split
    · exact .ok (Nat.le_add_left 1 room)
    · split
      · exact .ok (Nat.le_add_left 1 room)
      · exact .error nofun
  all_goals exact .error nofun

/-- A part opens its own level. -/
theorem compilePart_gauged {vocabulary : Vocabulary} {limit room : Nat} {t : Tree}
    (h : ∀ room, Gauged (t.levels vocabulary) (room + 1) (t.compileFrom vocabulary limit room 0)) :
    Gauged (levelsAll vocabulary [t]) room
      (Tree.descend limit room fun room => t.compileFrom vocabulary limit room 0) := by
  rw [levelsAll, levelsAll, Nat.max_zero]
  exact .descend (t.levels_pos vocabulary) h

mutual

theorem compileFrom_gauged (vocabulary : Vocabulary) (limit : Nat) : (t : Tree) →
    ∀ room hops, Gauged (t.levels vocabulary) (room + 1) (t.compileFrom vocabulary limit room hops)
  | .terminal kind text span, room, hops => by
    rw [levels, compileFrom]
    split
    · exact .error nofun
    · split
      · exact .error nofun
      · exact compileTerminal_gauged _
  | .rule name parts, room, hops => by
    rw [levels.eq_def, compileFrom.eq_def]
    dsimp only
    by_cases many : maxPassThrough < hops
    · rw [if_pos many]
      exact .error nofun
    rw [if_neg many]
    cases vocabulary.get? name with
    | none =>
      match parts with
      | [only] => exact compileFrom_gauged vocabulary limit only room (hops + 1)
      | [] | _ :: _ :: _ => exact .error nofun
    | some construct =>
      cases construct with
      | program => exact (compileAll_gauged vocabulary limit parts room).map.succ
      | assignment =>
        match parts with
        | [.terminal _ _ _, value] =>
          exact (compilePart_gauged fun room =>
            compileFrom_gauged vocabulary limit value room 0).map.succ
        | [] | [.terminal _ _ _] | .terminal _ _ _ :: _ :: _ :: _ | .rule _ _ :: _ =>
          exact .error nofun
      | «variable» =>
        match parts with
        | .terminal _ _ _ :: indices =>
          exact (compileAll_gauged vocabulary limit indices room).map.succ
        | [] | .rule _ _ :: _ => exact .error nofun
      | group =>
        match parts with
        | [inner] =>
          exact (compilePart_gauged fun room =>
            compileFrom_gauged vocabulary limit inner room 0).succ
        | [] | _ :: _ :: _ => exact .error nofun
      | unary op =>
        match parts with
        | [operand] =>
          exact (compilePart_gauged fun room =>
            compileFrom_gauged vocabulary limit operand room 0).map.succ
        | [] | _ :: _ :: _ => exact .error nofun
      | binary op =>
        match parts with
        | [left, right] =>
          refine (Gauged.bind (Gauged.descend (left.levels_pos vocabulary) fun room =>
            compileFrom_gauged vocabulary limit left room 0) fun _ => ?_).succ
          exact (compilePart_gauged fun room =>
            compileFrom_gauged vocabulary limit right room 0).map
        | [] | [_] | _ :: _ :: _ :: _ => exact .error nofun
      | int | float | bool => exact .error nofun

theorem compileAll_gauged (vocabulary : Vocabulary) (limit : Nat) : (ts : List Tree) →
    ∀ room, Gauged (levelsAll vocabulary ts) room (compileAll vocabulary limit room ts)
  | [], room => by
    rw [levelsAll, compileAll]
    exact .ok (Nat.zero_le room)
  | t :: ts, room => by
    rw [levelsAll, compileAll]
    refine Gauged.bind (Gauged.descend (t.levels_pos vocabulary) fun room =>
      compileFrom_gauged vocabulary limit t room 0) fun _ => ?_
    exact (compileAll_gauged vocabulary limit ts room).map

end

theorem compile_gauged (vocabulary : Vocabulary) (limit : Nat) (t : Tree) :
    Gauged (t.levels vocabulary) limit (t.compile vocabulary limit) :=
  .descend (t.levels_pos vocabulary) fun room => compileFrom_gauged vocabulary limit t room 0

theorem levelsAll_le {vocabulary : Vocabulary} {n : Nat} {ts : List Tree}
    (h : ∀ t ∈ ts, t.levels vocabulary ≤ n) : levelsAll vocabulary ts ≤ n := by
  induction ts with
  | nil =>
    rw [levelsAll]
    exact Nat.zero_le n
  | cons t ts ih =>
    obtain ⟨head, tail⟩ := List.forall_mem_cons.1 h
    rw [levelsAll]
    exact Nat.max_le.2 ⟨head, ih tail⟩

end Tree

namespace Grammar

section
variable {r : Rule} {t : Tree} {parts : List Tree}

@[simp] theorem levels_leaf (k : Terminal) (text : String) (span : Span) :
    (k.leaf text span).levels .standard = 1 := by
  rw [Terminal.leaf, Tree.levels]

theorem levels_transparent (transparent : r.construct? = none) :
    (r.node [t]).levels .standard = t.levels .standard := by
  rw [Rule.node, Tree.levels, standard_get?_rule, transparent]

theorem levels_node {c : Construct} (construct : r.construct? = some c)
    (compiled : c ≠ .assignment ∧ c ≠ .variable) :
    (r.node parts).levels .standard = Tree.levelsAll .standard parts + 1 := by
  rw [Rule.node, Tree.levels.eq_def]
  dsimp only
  rw [standard_get?_rule, construct]
  cases c <;> first | rfl | exact absurd rfl compiled.1 | exact absurd rfl compiled.2

/-- The name in front is not compiled. -/
theorem levels_named (named : r = .assignVar ∨ r = .variable) :
    (r.node (t :: parts)).levels .standard = Tree.levelsAll .standard parts + 1 := by
  rw [Rule.node, Tree.levels.eq_def]
  dsimp only
  rw [standard_get?_rule]
  rcases named with rfl | rfl <;> rfl

theorem levelsAll_single : Tree.levelsAll .standard [t] = t.levels .standard := by
  rw [Tree.levelsAll, Tree.levelsAll, Nat.max_zero]

theorem levels_unary {op : UnaryOp} (construct : r.construct? = some (.unary op)) :
    (r.node [t]).levels .standard = t.levels .standard + 1 := by
  rw [levels_node construct ⟨nofun, nofun⟩, levelsAll_single]

theorem levels_binary {op : BinaryOp} {u : Tree} (construct : r.construct? = some (.binary op)) :
    (r.node [t, u]).levels .standard = max (t.levels .standard) (u.levels .standard) + 1 := by
  rw [levels_node construct ⟨nofun, nofun⟩, Tree.levelsAll, levelsAll_single]

theorem levels_group : (Rule.bracketed.node [t]).levels .standard = t.levels .standard + 1 := by
  have construct : Rule.bracketed.construct? = some .group := rfl
  rw [levels_node construct ⟨nofun, nofun⟩, levelsAll_single]

theorem levels_block :
    (Rule.block.node parts).levels .standard = Tree.levelsAll .standard parts + 1 := by
  have construct : Rule.block.construct? = some .program := rfl
  exact levels_node construct ⟨nofun, nofun⟩

end

end Grammar
end Reckon
