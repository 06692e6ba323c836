import Mathlib.Data.List.Perm.Basic
import Reckon.Proofs.TreeHeight

/-!
Walks over a tree that keep a list of what is still to be visited. An item is taken off the list,
wherever it stands, and its parts are put on it, wherever and in whatever order. If it does not
matter in which order values are put together, then all such walks gather the same: at every moment
what the visited items have given and what recursion makes of the items on the list is, put
together, what recursion makes of the whole. The two walks of this library, which count the nodes of
a program and find the depth of a tree, keep the list as a stack.
-/

namespace Reckon

section
variable {α M : Type}

/-- A walk visits the items of the second list, in that order; the first list is what is to be
visited at its beginning, the last one what is to be visited at its end. -/
inductive Visits (parts : α → List α) : List α → List α → List α → Prop where
  | stop {pending : List α} : Visits parts pending [] pending
  | visit {item : α} {pending rest next visited left : List α} (taken : pending.Perm (item :: rest))
      (put : next.Perm (parts item ++ rest)) (more : Visits parts next visited left) :
      Visits parts pending (item :: visited) left

/-- The values of the items, put together. -/
def gather (op : M → M → M) (none : M) (value : α → M) (items : List α) : M :=
  (items.map value).foldr op none

variable {parts : α → List α} {item : α} {rest visited left pending : List α}

/-- A visit where the list is a stack with its top in front, on which the last part comes to lie. -/
theorem Visits.top (more : Visits parts ((parts item).reverse ++ rest) visited left) :
    Visits parts (item :: rest) (item :: visited) left :=
  .visit (.refl _) ((List.reverse_perm _).append_right rest) more

/-- A visit where the list is a stack with its top at the end. -/
theorem Visits.back (rest : List α) (more : Visits parts (rest ++ parts item) visited left) :
    Visits parts (rest ++ [item]) (item :: visited) left :=
  .visit List.perm_append_comm List.perm_append_comm more

variable (op : M → M → M) (none : M)

theorem gather_append [Std.Associative op] [Std.LawfulIdentity op none] (value : α → M)
    (xs ys : List α) :
    gather op none value (xs ++ ys) = op (gather op none value xs) (gather op none value ys) := by
  induction xs with
  | nil => exact (Std.LawfulLeftIdentity.left_id _).symm
  | cons x xs ih =>
    calc
      op (value x) (gather op none value (xs ++ ys))
        = op (value x) (op (gather op none value xs) (gather op none value ys)) := by rw [ih]
      _ = op (op (value x) (gather op none value xs)) (gather op none value ys) :=
        (Std.Associative.assoc _ _ _).symm

theorem gather_perm [Std.Associative op] [Std.Commutative op] (value : α → M) {xs ys : List α}
    (h : xs.Perm ys) : gather op none value xs = gather op none value ys :=
  (h.map value).foldr_op_eq

/-- What has been gathered and what the items on the list come to make up the whole. -/
theorem Visits.gather_eq [Std.Associative op] [Std.Commutative op] [Std.LawfulIdentity op none]
    {own total : α → M} (unfold : ∀ a, total a = op (own a) (gather op none total (parts a)))
    (h : Visits parts pending visited left) :
    gather op none total pending = op (gather op none own visited) (gather op none total left) := by
  have assoc (a b c : M) : op (op a b) c = op a (op b c) := Std.Associative.assoc a b c
  induction h with
  | stop => exact (Std.LawfulLeftIdentity.left_id _).symm
  | @visit item pending rest next visited left taken put _ ih =>
    calc
      gather op none total pending
        = op (total item) (gather op none total rest) := gather_perm op none total taken
      _ = op (own item) (gather op none total (parts item ++ rest)) := by
        rw [unfold, gather_append, assoc]
      _ = op (own item) (op (gather op none own visited) (gather op none total left)) := by
        rw [← gather_perm op none total put, ih]
      _ = op (gather op none own (item :: visited)) (gather op none total left) :=
        (assoc _ _ _).symm

end

namespace Expr

variable {visited left pending : List Expr}

theorem gather_size (es : List Expr) : gather (· + ·) 0 size es = sizeAll es := by
  induction es with
  | nil => rfl
  | cons e es ih => exact congrArg (e.size + ·) ih

/-- The nodes visited and those of the trees on the list are all the nodes. -/
theorem length_visited (h : Visits children pending visited left) :
    visited.length + sizeAll left = sizeAll pending := by
  have length (es : List Expr) : gather (· + ·) 0 (fun _ => 1) es = es.length := by
    induction es with
    | nil => rfl
    | cons e es ih => rw [List.length_cons, ← ih, Nat.add_comm]; rfl
  have unfold (e : Expr) : e.size = 1 + gather (· + ·) 0 size e.children := by
    rw [gather_size, size_eq]
  have whole := h.gather_eq (fun m n : Nat => m + n) 0 unfold
  rw [gather_size, gather_size, length] at whole
  exact whole.symm

/-- The walk that counts. -/
theorem exists_visits (counted : Nat) (pending : List Expr) :
    ∃ visited, Visits children pending visited [] ∧
      countPending counted pending = counted + visited.length := by
  fun_induction countPending counted pending with
  | case1 counted => exact ⟨[], .stop, rfl⟩
  | case2 counted e pending ih =>
    obtain ⟨visited, walk, count⟩ := ih
    refine ⟨e :: visited, walk.top, ?_⟩
    rw [count, List.length_cons, Nat.add_assoc, Nat.add_comm 1]

end Expr

namespace Tree

/-- The parts of a tree, on the level below its own. -/
def nextLevel (placed : Tree × Nat) : List (Tree × Nat) :=
  placed.1.children.map (·, placed.2 + 1)

/-- The lowest level that a tree reaches from its own. -/
def lowest (placed : Tree × Nat) : Nat := placed.2 + heightAll placed.1.children

variable {visited left pending : List (Tree × Nat)}

theorem lowest_eq (placed : Tree × Nat) :
    lowest placed = max placed.2 (gather max 0 lowest (nextLevel placed)) := by
  obtain ⟨t, level⟩ := placed
  have row (ts : List Tree) :
      max level (gather max 0 lowest (ts.map (·, level + 1))) = level + heightAll ts := by
    induction ts with
    | nil => exact Nat.max_zero level
    | cons t ts ih =>
      calc
        max level (max (level + 1 + heightAll t.children)
            (gather max 0 lowest (ts.map (·, level + 1))))
          = max (level + t.height) (level + heightAll ts) := by
            rw [← ih, height_eq_children]
            omega
        _ = level + heightAll (t :: ts) := Nat.add_max_add_left level _ _
  exact (row t.children).symm

/-- The levels visited and those that the trees on the list reach go as low as the whole. -/
theorem lowest_visited (h : Visits nextLevel pending visited left) :
    max (gather max 0 Prod.snd visited) (gather max 0 lowest left) = gather max 0 lowest pending :=
  (h.gather_eq max 0 lowest_eq).symm

/-- The walk that finds the depth. -/
theorem exists_visits (deepest : Nat) (pending : List (Tree × Nat)) :
    ∃ visited, Visits nextLevel pending visited [] ∧
      deepestLevel deepest pending = max deepest (gather max 0 Prod.snd visited) := by
  fun_induction deepestLevel deepest pending with
  | case1 deepest => exact ⟨[], .stop, (Nat.max_zero deepest).symm⟩
  | case2 deepest t level pending ih =>
    obtain ⟨visited, walk, deep⟩ := ih
    refine ⟨(t, level) :: visited, walk.top, ?_⟩
    rw [deep, Nat.max_assoc]
    rfl

end Tree

/-- The walks without recursion come to what recursion comes to, on trees of any shape. The count is
the number of nodes and the depth is the height. The order of the walk does not matter: as long as
there is something left, the nodes visited so far and those of the trees on the list are all the
nodes, and the levels visited so far and those that the trees on the list reach go down to the
height. -/
theorem worklists_exact :
    (∀ e : Expr, e.count = e.size ∧
      (∃ visited, Visits Expr.children [e] visited [] ∧ e.count = visited.length) ∧
      ∀ visited left, Visits Expr.children [e] visited left →
        visited.length + Expr.sizeAll left = e.size) ∧
    ∀ t : Tree, t.depth = t.height ∧
      (∃ visited, Visits Tree.nextLevel [(t, 1)] visited [] ∧
        t.depth = gather max 0 Prod.snd visited) ∧
      ∀ visited left, Visits Tree.nextLevel [(t, 1)] visited left →
        max (gather max 0 Prod.snd visited) (gather max 0 Tree.lowest left) = t.height := by
  refine ⟨fun e => ⟨e.count_eq_size, ?_, fun visited left walk => ?_⟩,
    fun t => ⟨t.depth_eq_height, ?_, fun visited left walk => ?_⟩⟩
  · obtain ⟨visited, walk, count⟩ := Expr.exists_visits 0 [e]
    exact ⟨visited, walk, count.trans (Nat.zero_add _)⟩
  · exact Expr.length_visited walk
  · obtain ⟨visited, walk, deep⟩ := Tree.exists_visits 0 [(t, 1)]
    exact ⟨visited, walk, deep.trans (Nat.zero_max _)⟩
  · calc
      max (gather max 0 Prod.snd visited) (gather max 0 Tree.lowest left)
        = Tree.lowest (t, 1) := (Tree.lowest_visited walk).trans (Nat.max_zero _)
      _ = t.height := by rw [Tree.height_eq_children, Tree.lowest, Nat.add_comm]

/-- Both walks from the back of the list, which visit the last part first. -/
theorem worklists_exact_back :
    (∃ (e : Expr) (visited : List Expr), Visits Expr.children [e] visited [] ∧
      visited.length + Expr.sizeAll [] = e.size ∧ e.size = 5) ∧
    ∃ (t : Tree) (visited : List (Tree × Nat)), Visits Tree.nextLevel [(t, 1)] visited [] ∧
      max (gather max 0 Prod.snd visited) (gather max 0 Tree.lowest []) = t.height ∧
        t.height = 3 := by
  let one := Expr.literal (.int 1)
  let item := Expr.variable "x" [one]
  let negated := Expr.unary .negate one
  let product := Expr.binary (.ring .mul) item negated
  have nodes : Visits Expr.children [product] [product, negated, one, item, one] [] :=
    .back [] (.back [item] (.back [item] (.back [] (.back [] .stop))))
  let leaf := Tree.terminal "k" "x" ⟨0, 1⟩
  let upper := Tree.rule "a" []
  let lower := Tree.rule "b" [leaf]
  let whole := Tree.rule "c" [upper, lower]
  have levels : Visits Tree.nextLevel [(whole, 1)]
      [(whole, 1), (lower, 2), (leaf, 3), (upper, 2)] [] :=
    .back [] (.back [(upper, 2)] (.back [(upper, 2)] (.back [] .stop)))
  exact ⟨⟨product, _, nodes, (worklists_exact.1 product).2.2 _ [] nodes, rfl⟩,
    whole, _, levels, (worklists_exact.2 whole).2.2 _ [] levels, rfl⟩

end Reckon
