import Mathlib.Data.List.Forall2
import Reckon.Proofs.Constructs
import Reckon.Proofs.Footprint
import Reckon.Proofs.Shape

/-!
Induction over derivations together with what they compile to. Compiling adds nothing to the shape
of a derivation: a transparent rule or a group has the expression of its part, and every other rule
makes one node of the expressions of its parts, in their order. So the nodes of an expression come
from the rules that its derivation can use.
-/

namespace Reckon

namespace Expr

/-- The construct that the node itself is of. Literals are of three. -/
def construct? : Expr → Option Construct
  | .program _ => some .program
  | .assign _ _ => some .assignment
  | .variable _ _ => some .variable
  | .literal _ => none
  | .unary op _ => some (.unary op)
  | .binary op _ _ => some (.binary op)

end Expr

namespace Grammar

theorem Form.uses_of_mem_rules {f : Form} {tokens : TokenKind → Bool} {rules : Rule → Bool}
    {s : Rule} (uses : f.uses tokens rules) (mem : s ∈ f.rules) : rules s := by
  induction f with
  | rule r =>
    cases List.mem_singleton.1 mem
    exact uses
  | choice left right ihl ihr =>
    have both := Bool.and_eq_true_iff.1 uses
    rcases List.mem_append.1 mem with mem | mem
    · exact ihl both.1 mem
    · exact ihr both.2 mem
  | nothing | terminal _ | silent _ | seq _ _ _ _ | many _ _ => cases mem

section
variable {r : Rule} {ts : List Token} {t : Tree} {limit room hops : Nat} {e : Expr}

theorem forall_of_forall₂ {α β : Type} {R : α → β → Prop} {Q : β → Prop} {as : List α} {bs : List β}
    (h : List.Forall₂ R as bs) (imp : ∀ {a b}, R a b → Q b) : ∀ b ∈ bs, Q b := by
  induction h with
  | nil => exact nofun
  | cons head _ ih => exact List.forall_mem_cons.2 ⟨imp head, ih⟩

theorem forall₂_of_compileAll {Q : Tree → Expr → Prop} {parts : List Tree} {es : List Expr}
    (h : ∀ t ∈ parts, ∀ room e, compileAt limit room 0 t = .ok e → Q t e)
    (compiled : Tree.compileAll .standard limit room parts = .ok es) :
    List.Forall₂ Q parts es := by
  induction parts generalizing es with
  | nil =>
    cases compiled
    exact .nil
  | cons t parts ih =>
    obtain ⟨head, tail⟩ := List.forall_mem_cons.1 h
    rw [compileAll_cons] at compiled
    obtain ⟨e, first, compiled⟩ := bind_eq_ok.1 compiled
    obtain ⟨es, others, ⟨⟩⟩ := bind_eq_ok.1 compiled
    obtain ⟨below, _, first⟩ := Tree.descend_eq_ok.1 first
    exact .cons (head below e first) (ih tail others)

/-- What holds of all derivations that compile and of their expressions: one case for a transparent
rule, one for a literal, and one for every construct that has parts. -/
theorem Derives.program_induction {P : Rule → Tree → Expr → Prop}
    (transparent : ∀ {r s parts e}, r.construct? = none → s ∈ r.body.rules →
      P s (s.node parts) e → P r (r.node [s.node parts]) e)
    (literal : ∀ {k : Terminal} {text span c l}, k.construct? = some c →
      Tree.compileTerminal k.name text span c = .ok (.literal l) →
      P .atom (Rule.atom.node [k.leaf text span]) (.literal l))
    (group : ∀ {t e}, P .logicExpr t e → P .bracketed (Rule.bracketed.node [t]) e)
    (unary : ∀ {r k s op t e}, r.body = .silent k ++ .rule s → r.construct? = some (.unary op) →
      P s t e → P r (r.node [t]) (.unary op e))
    (binary : ∀ {r left k right op t u d e}, r.body = .binary left k right →
      r.construct? = some (.binary op) → P left t d → P right u e →
      P r (r.node [t, u]) (.binary op d e))
    («variable» : ∀ {text span indices es}, List.Forall₂ (P .arithExpr) indices es →
      P .variable (Rule.variable.node (Terminal.varName.leaf text span :: indices))
        (.variable text es))
    (assignVar : ∀ {text span t e}, P .logicExpr t e →
      P .assignVar (Rule.assignVar.node [Terminal.varName.leaf text span, t]) (.assign text e))
    (block : ∀ {lines es}, List.Forall₂ (P .line) lines es →
      P .block (Rule.block.node lines) (.program es))
    (h : Derives r ts t) (few : hops ≤ r.rung) (compiled : compileAt limit room hops t = .ok e) :
    P r t e := by
  -- A part is compiled on a level of its own, no transparent rule below it.
  have part {r : Rule} {t : Tree} {room : Nat} {e : Expr}
      (h : ∀ room hops e, hops ≤ r.rung → compileAt limit room hops t = .ok e → P r t e)
      (compiled : compilePart limit room t = .ok e) : P r t e := by
    obtain ⟨below, _, compiled⟩ := Tree.descend_eq_ok.1 compiled
    exact h below 0 e (Nat.zero_le _) compiled
  refine h.induction
    (P := fun r t => ∀ room hops e, hops ≤ r.rung → compileAt limit room hops t = .ok e → P r t e)
    ?transparent ?literal ?group ?unary ?binary ?indexed ?assigned ?block room hops e few compiled
  case transparent =>
    intro r s parts through mem ih room hops e few compiled
    rw [compileAt_transparent through (Rule.few_hops few)] at compiled
    exact transparent through mem
      (ih room (hops + 1) e (Nat.lt_of_le_of_lt few (Rule.rung_lt mem)) compiled)
  case literal =>
    intro k l _ _ room hops e few compiled
    -- The literal stands one transparent rule below the atom.
    have next : hops + 1 ≤ maxPassThrough :=
      Nat.lt_of_le_of_lt few (Rule.rung_lt_maxPassThrough _)
    rw [compileAt_transparent rfl (Nat.le_of_succ_le next), Terminal.leaf, compileAt,
      Tree.compileFrom_terminal next] at compiled
    split at compiled
    next => cases compiled
    next found =>
      obtain ⟨l, rfl⟩ := Tree.exists_literal_of_compileTerminal compiled
      rw [standard_get?_terminal] at found
      exact literal found compiled
  case group =>
    intro t ih room hops e few compiled
    rw [compileAt_group (Rule.few_hops few)] at compiled
    exact group (part ih compiled)
  case unary =>
    intro r k s op t body construct ih room hops e few compiled
    rw [compileAt_unary construct (Rule.few_hops few)] at compiled
    obtain ⟨v, operand, ⟨⟩⟩ := bind_eq_ok.1 compiled
    exact unary body construct (part ih operand)
  case binary =>
    intro r left k right op t u body construct iht ihu room hops e few compiled
    rw [compileAt_binary construct (Rule.few_hops few)] at compiled
    obtain ⟨v, operandT, compiled⟩ := bind_eq_ok.1 compiled
    obtain ⟨w, operandU, ⟨⟩⟩ := bind_eq_ok.1 compiled
    exact binary body construct (part iht operandT) (part ihu operandU)
  case indexed =>
    intro text span indices ih room hops e few compiled
    rw [compileAt_variable (Rule.few_hops few)] at compiled
    obtain ⟨es, all, ⟨⟩⟩ := bind_eq_ok.1 compiled
    exact «variable» (forall₂_of_compileAll
      (fun t mem room e => ih t mem room 0 e (Nat.zero_le _)) all)
  case assigned =>
    intro text span t ih room hops e few compiled
    rw [compileAt_assignVar (Rule.few_hops few)] at compiled
    obtain ⟨v, value, ⟨⟩⟩ := bind_eq_ok.1 compiled
    exact assignVar (part ih value)
  case block =>
    intro lines ih room hops e few compiled
    rw [compileAt_block (Rule.few_hops few)] at compiled
    obtain ⟨es, all, ⟨⟩⟩ := bind_eq_ok.1 compiled
    exact block (forall₂_of_compileAll
      (fun t mem room e => ih t mem room 0 e (Nat.zero_le _)) all)

/-- The node is of a construct of one of the rules, or a literal. -/
def MadeBy (rules : Rule → Bool) (e : Expr) : Prop :=
  ∀ c, e.construct? = some c → ∃ s, rules s ∧ s.construct? = some c

/-- Where rules lead to each other only, they make all nodes of what is derived by one of them. -/
theorem Derives.makes_nodes (rules : Rule → Bool)
    (closed : ∀ r, rules r → r.body.uses (fun _ => true) rules) (h : Derives r ts t)
    (few : hops ≤ r.rung) (compiled : compileAt limit room hops t = .ok e) (inside : rules r) :
    ∀ part ∈ e.nodes, MadeBy rules part := by
  have made {r : Rule} {e : Expr} (inside : rules r) (construct : r.construct? = e.construct?) :
      MadeBy rules e :=
    fun c eq => ⟨r, inside, construct.trans eq⟩
  refine h.program_induction
    (P := fun r _ e => rules r → ∀ part ∈ e.nodes, MadeBy rules part)
    ?transparent ?literal ?group ?unary ?binary ?indexed ?assigned ?block few compiled inside
  case transparent =>
    intro r s parts e _ mem ih inside
    exact ih (Form.uses_of_mem_rules (closed r inside) mem)
  case literal =>
    intro k text span c l _ _ _
    exact Expr.forall_mem_nodes.2 ⟨nofun, nofun⟩
  case group =>
    intro t e ih inside
    exact ih (by simpa [Rule.body, Form.uses] using closed .bracketed inside)
  case unary =>
    intro r k s op t e body construct ih inside
    have inner := closed r inside
    rw [body] at inner
    exact Expr.forall_mem_nodes.2 ⟨made inside construct, List.forall_mem_singleton.2 (ih inner)⟩
  case binary =>
    intro r left k right op t u d e body construct iht ihu inside
    have inner := closed r inside
    rw [body] at inner
    obtain ⟨first, second⟩ := Bool.and_eq_true_iff.1 inner
    refine Expr.forall_mem_nodes.2 ⟨made inside construct, List.forall_mem_cons.2 ⟨?_, ?_⟩⟩
    · exact iht (Bool.and_eq_true_iff.1 first).1
    · exact List.forall_mem_singleton.2 (ihu second)
  case indexed =>
    intro text span indices es all inside
    have index : rules .arithExpr := by
      simpa [Rule.body, Form.uses] using closed .variable inside
    exact Expr.forall_mem_nodes.2 ⟨made inside rfl, forall_of_forall₂ all fun ih => ih index⟩
  case assigned =>
    intro text span t e ih inside
    have value : rules .logicExpr := by
      simpa [Rule.body, Form.uses] using closed .assignVar inside
    exact Expr.forall_mem_nodes.2 ⟨made inside rfl, List.forall_mem_singleton.2 (ih value)⟩
  case block =>
    intro lines es all inside
    have line : rules .line := by
      simpa [Rule.body, Form.newlines, Form.optional, Form.uses] using closed .block inside
    exact Expr.forall_mem_nodes.2 ⟨made inside rfl, forall_of_forall₂ all fun ih => ih line⟩

end

end Grammar
end Reckon
