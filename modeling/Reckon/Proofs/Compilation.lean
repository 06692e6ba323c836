import Mathlib.Data.List.Nodup
import Reckon.Proofs.Constructs

/-!
Compiling trees of the grammar against the standard vocabulary, rule by rule: no two rules have the
same name, which rules the vocabulary knows, and one equation for each construct.
-/

namespace Reckon

theorem Tree.descend_eq_ok {limit room : Nat} {k : Nat → Except CompileError Expr} {e : Expr} :
    descend limit room k = .ok e ↔ ∃ below, room = below + 1 ∧ k below = .ok e := by
  cases room with
  | zero => simp [descend]
  | succ room => simp [descend]

namespace Grammar

def Rule.all : List Rule :=
  [.block, .line, .assignVar, .logicExpr, .disjunction, .orOp, .conjunction, .andOp, .negation,
    .notOp, .comparison, .arithExpr, .sum, .addition, .subtraction, .product, .multiplication,
    .division, .atom, .negAtom, .bracketed, .variable]
    ++ Vocabulary.relations.map .relation

theorem Rule.mem_all (r : Rule) : r ∈ Rule.all := by
  cases r with
  | relation op => cases op <;> decide
  | _ => decide

theorem Rule.nodup_names : (Rule.all.map Rule.name).Nodup := by decide +kernel

theorem Rule.name_injective {r s : Rule} (h : r.name = s.name) : r = s :=
  List.inj_on_of_nodup_map Rule.nodup_names r.mem_all s.mem_all h

/-- What the standard vocabulary makes of a rule; nothing if it is transparent. -/
def Rule.construct? : Rule → Option Construct
  | .block => some .program
  | .assignVar => some .assignment
  | .variable => some .variable
  | .bracketed => some .group
  | .negAtom => some (.unary .negate)
  | .notOp => some (.unary .not)
  | .addition => some (.binary (.ring .add))
  | .subtraction => some (.binary (.ring .sub))
  | .multiplication => some (.binary (.ring .mul))
  | .division => some (.binary .divide)
  | .andOp => some (.binary (.logic .and))
  | .orOp => some (.binary (.logic .or))
  | .relation op => some (.binary (.relation op))
  | .line | .logicExpr | .disjunction | .conjunction | .negation | .comparison | .arithExpr
  | .sum | .product | .atom => none

def Terminal.construct? : Terminal → Option Construct
  | .int => some .int
  | .signedFloat => some .float
  | .true | .false => some .bool
  | .varName => none

theorem standard_get?_rule (r : Rule) : Vocabulary.standard.get? r.name = r.construct? := by
  cases r with
  | relation op => cases op <;> decide
  | _ => decide

theorem standard_get?_terminal (k : Terminal) :
    Vocabulary.standard.get? k.name = k.construct? := by
  cases k <;> decide

/-- The program of a tree of the grammar, `hops` transparent rules below an open level. -/
abbrev compileAt (limit room hops : Nat) (t : Tree) : Except CompileError Expr :=
  Tree.compileFrom .standard limit room hops t

/-- The program of a part, which opens a level. -/
abbrev compilePart (limit room : Nat) (t : Tree) : Except CompileError Expr :=
  Tree.descend limit room fun room => compileAt limit room 0 t

section
variable {r : Rule} {limit room hops : Nat} {t left right : Tree} {parts : List Tree}

theorem compileAt_leaf {k : Terminal} {text : String} {span : Span} {c : Construct}
    (construct : k.construct? = some c) (few : hops ≤ maxPassThrough) :
    compileAt limit room hops (k.leaf text span) =
      Tree.compileTerminal k.name text span c := by
  rw [Terminal.leaf, compileAt, Tree.compileFrom_terminal few, standard_get?_terminal, construct]

theorem compileAt_transparent (transparent : r.construct? = none) (few : hops ≤ maxPassThrough) :
    compileAt limit room hops (r.node [t]) = compileAt limit room (hops + 1) t := by
  rw [← standard_get?_rule] at transparent
  rw [Rule.node, compileAt, Tree.compileFrom_transparent few transparent]

theorem compileAt_group (few : hops ≤ maxPassThrough) :
    compileAt limit room hops (Rule.bracketed.node [t]) = compilePart limit room t := by
  rw [Rule.node, compileAt, Tree.compileFrom, if_neg (Nat.not_lt.2 few), standard_get?_rule,
    Rule.construct?]

theorem compileAt_unary {op : UnaryOp} (unary : r.construct? = some (.unary op))
    (few : hops ≤ maxPassThrough) :
    compileAt limit room hops (r.node [t]) = do
      return .unary op (← compilePart limit room t) := by
  rw [Rule.node, compileAt, Tree.compileFrom, if_neg (Nat.not_lt.2 few), standard_get?_rule, unary]

theorem compileAt_binary {op : BinaryOp} (binary : r.construct? = some (.binary op))
    (few : hops ≤ maxPassThrough) :
    compileAt limit room hops (r.node [left, right]) = do
      let l ← compilePart limit room left
      let r ← compilePart limit room right
      return .binary op l r := by
  rw [Rule.node, compileAt, Tree.compileFrom.eq_def]
  dsimp only
  rw [if_neg (Nat.not_lt.2 few), standard_get?_rule, binary]

theorem compileAll_cons {ts : List Tree} :
    Tree.compileAll .standard limit room (t :: ts) = do
      let e ← compilePart limit room t
      let es ← Tree.compileAll .standard limit room ts
      return e :: es := by
  rw [Tree.compileAll]

theorem compileAt_block (few : hops ≤ maxPassThrough) :
    compileAt limit room hops (Rule.block.node parts) = do
      return .program (← Tree.compileAll .standard limit room parts) := by
  rw [Rule.node, compileAt, Tree.compileFrom.eq_def]
  dsimp only
  rw [if_neg (Nat.not_lt.2 few), standard_get?_rule, Rule.construct?]

theorem compileAt_assignVar {k : Terminal} {text : String} {span : Span}
    (few : hops ≤ maxPassThrough) :
    compileAt limit room hops (Rule.assignVar.node [k.leaf text span, t]) = do
      return .assign text (← compilePart limit room t) := by
  rw [Rule.node, compileAt, Tree.compileFrom.eq_def]
  dsimp only
  rw [if_neg (Nat.not_lt.2 few), standard_get?_rule, Rule.construct?]
  rfl

theorem compileAt_variable {k : Terminal} {text : String} {span : Span}
    (few : hops ≤ maxPassThrough) :
    compileAt limit room hops (Rule.variable.node (k.leaf text span :: parts)) = do
      return .variable text (← Tree.compileAll .standard limit room parts) := by
  rw [Rule.node, compileAt, Tree.compileFrom.eq_def]
  dsimp only
  rw [if_neg (Nat.not_lt.2 few), standard_get?_rule, Rule.construct?]
  rfl

end

end Grammar
end Reckon
