import Reckon.Span

/-!
Syntax trees. A rule node carries the name of the rule and its parts in source order, a terminal
the kind, text and place of a token. Names are open: any grammar can produce these trees.
-/

namespace Reckon

inductive Tree where
  | rule (name : String) (children : List Tree)
  | terminal (kind : String) (text : String) (span : Span)

/-- A terminal by itself. -/
structure Leaf where
  kind : String
  text : String
  span : Span
deriving DecidableEq

namespace Tree

def isRule : Tree → Bool
  | .rule .. => true
  | .terminal .. => false

/-- The name of a rule, the kind of a terminal. -/
def name : Tree → String
  | .rule name _ => name
  | .terminal kind _ _ => kind

def children : Tree → List Tree
  | .rule _ children => children
  | .terminal .. => []

/-- The text of a terminal. -/
def text? : Tree → Option String
  | .rule .. => none
  | .terminal _ text _ => some text

mutual

def beq : Tree → Tree → Bool
  | .rule n cs, .rule m ds => n == m && beqAll cs ds
  | .terminal k t s, .terminal l u r => k == l && t == u && s == r
  | _, _ => false

def beqAll : List Tree → List Tree → Bool
  | [], [] => true
  | t :: ts, u :: us => beq t u && beqAll ts us
  | _, _ => false

end

instance : BEq Tree := ⟨beq⟩

/-- The smallest span covering what is there of two spans. -/
def mergeSpans : Option Span → Option Span → Option Span
  | some a, some b => some (a.merge b)
  | some a, none => some a
  | none, b => b

mutual

/-- The smallest span covering all terminals below; none if there are none. -/
def span? : Tree → Option Span
  | .terminal _ _ span => some span
  | .rule _ children => spanAll? children

def spanAll? : List Tree → Option Span
  | [] => none
  | t :: ts => mergeSpans (span? t) (spanAll? ts)

end

mutual

/-- The terminals in source order, in front of `rest`. -/
def leavesOnto : Tree → List Leaf → List Leaf
  | .terminal kind text span, rest => ⟨kind, text, span⟩ :: rest
  | .rule _ children, rest => leavesAllOnto children rest

def leavesAllOnto : List Tree → List Leaf → List Leaf
  | [], rest => rest
  | t :: ts, rest => leavesOnto t (leavesAllOnto ts rest)

end

def leaves (t : Tree) : List Leaf := t.leavesOnto []

mutual

/-- The number of nodes. -/
def size : Tree → Nat
  | .terminal .. => 1
  | .rule _ children => 1 + sizeAll children

def sizeAll : List Tree → Nat
  | [] => 0
  | t :: ts => size t + sizeAll ts

end

/-- The sizes of the trees on a stack, summed up. -/
def pendingSize : List (Tree × Nat) → Nat
  | [] => 0
  | (t, _) :: rest => t.size + pendingSize rest

theorem pendingSize_append (xs ys : List (Tree × Nat)) :
    pendingSize (xs ++ ys) = pendingSize xs + pendingSize ys := by
  induction xs with
  | nil => simp [pendingSize]
  | cons x xs ih => simp [pendingSize, ih, Nat.add_assoc]

theorem pendingSize_map (ts : List Tree) (level : Nat) :
    pendingSize (ts.map (·, level)) = sizeAll ts := by
  induction ts with
  | nil => rfl
  | cons t ts ih => simp [pendingSize, sizeAll, ih]

theorem pendingSize_reverse (xs : List (Tree × Nat)) : pendingSize xs.reverse = pendingSize xs := by
  induction xs with
  | nil => rfl
  | cons x xs ih =>
    rw [List.reverse_cons, pendingSize_append, ih, pendingSize, pendingSize, pendingSize,
      Nat.add_comm, Nat.add_zero]

theorem sizeAll_children_lt (t : Tree) : sizeAll t.children < t.size := by
  cases t <;> simp [children, size, sizeAll]

/-- The deepest level met on a stack of trees with their levels, or `deepest` if that is more. The
stack has its top in front, and the parts of a tree are pushed from left to right. A tree of any
depth needs no deep recursion. -/
def deepestLevel (deepest : Nat) : List (Tree × Nat) → Nat
  | [] => deepest
  | (t, level) :: pending =>
    deepestLevel (max deepest level) ((t.children.map (·, level + 1)).reverse ++ pending)
termination_by pending => pendingSize pending
decreasing_by
  rw [pendingSize_append, pendingSize_reverse, pendingSize_map, pendingSize]
  have := sizeAll_children_lt t
  omega

/-- The number of levels; a terminal has one. -/
def depth (t : Tree) : Nat := deepestLevel 0 [(t, 1)]

end Tree

end Reckon
