import Reckon.Proofs.Compilation
import Reckon.Proofs.Constructs
import Reckon.Proofs.Cost
import Reckon.Proofs.Form

/-!
Places do not matter. When every token is put at another place, a derivation of the tokens is still
one, the terminals of the tree have moved with the tokens, and the tree takes up as many levels and
compiles to the same program as before.
-/

namespace Reckon

/-- The span `distance` bytes further on. -/
def Span.shift (distance : Nat) (s : Span) : Span := ⟨s.start + distance, s.stop + distance⟩

/-- The span `distance` bytes further back. -/
def Span.unshift (distance : Nat) (s : Span) : Span := ⟨s.start - distance, s.stop - distance⟩

theorem Span.unshift_shift (distance : Nat) (s : Span) :
    (s.shift distance).unshift distance = s := by
  simp [shift, unshift]

/-- The token at another place. -/
def Token.move (g : Span → Span) (t : Token) : Token := { t with span := g t.span }

@[simp] theorem Token.move_kind (g : Span → Span) (t : Token) : (t.move g).kind = t.kind := rfl

@[simp] theorem Token.move_text (g : Span → Span) (t : Token) : (t.move g).text = t.text := rfl

theorem Token.map_move_cancel {g back : Span → Span} (cancel : ∀ s, back (g s) = s)
    (toks : List Token) : (toks.map (move g)).map (move back) = toks := by
  rw [List.map_map]
  exact List.map_id'' (fun t => by simp [move, cancel]) toks

namespace Tree

mutual

/-- The tree with all terminals at other places. -/
def move (g : Span → Span) : Tree → Tree
  | .terminal kind text span => .terminal kind text (g span)
  | .rule name children => .rule name (moveAll g children)

def moveAll (g : Span → Span) : List Tree → List Tree
  | [] => []
  | t :: ts => move g t :: moveAll g ts

end

variable {g : Span → Span}

theorem moveAll_eq_map (ts : List Tree) : moveAll g ts = ts.map (move g) := by
  induction ts with
  | nil => rw [moveAll, List.map_nil]
  | cons t ts ih => rw [moveAll, ih, List.map_cons]

@[simp] theorem move_terminal (kind text : String) (span : Span) :
    (terminal kind text span).move g = .terminal kind text (g span) := by
  rw [move]

@[simp] theorem move_rule (name : String) (children : List Tree) :
    (rule name children).move g = .rule name (children.map (move g)) := by
  rw [move, moveAll_eq_map]

end Tree

namespace Grammar

variable {g : Span → Span}

@[simp] theorem move_node (r : Rule) (parts : List Tree) :
    (r.node parts).move g = r.node (parts.map (Tree.move g)) :=
  Tree.move_rule ..

@[simp] theorem move_leaf (k : Terminal) (text : String) (span : Span) :
    (k.leaf text span).move g = k.leaf text (g span) :=
  Tree.move_terminal ..

theorem Matches.move {f : Form} {ts : List Token} {xs : List Tree} (h : Matches f ts xs) :
    Matches f (ts.map (Token.move g)) (xs.map (Tree.move g)) := by
  induction h with
  | nothing => exact .nothing
  | rule _ ih =>
    rw [List.map_singleton, move_node]
    exact .rule ih
  | @terminal k t kind =>
    have moved : Matches (.terminal k) [t.move g] [k.leaf t.text (g t.span)] := .terminal kind
    rw [List.map_singleton, List.map_singleton, move_leaf]
    exact moved
  | @silent k t kind =>
    have moved : Matches (.silent k) [t.move g] [] := .silent kind
    exact moved
  | seq _ _ first second =>
    rw [List.map_append, List.map_append]
    exact .seq first second
  | left _ ih => exact .left ih
  | right _ ih => exact .right ih
  | done => exact .done
  | more _ _ head tail =>
    rw [List.map_append, List.map_append]
    exact .more head tail

end Grammar

namespace Tree

variable {g : Span → Span}

theorem links_move (t : Tree) : (t.move g).links = t.links := by
  fun_induction links t with
  | case1 _ name left _ link ih => simp [links, link, ih]
  | case2 _ name left _ link => simp [links, link]
  | case3 t plain =>
    rcases t with ⟨outer, _ | ⟨⟨name, _ | ⟨left, _ | ⟨right, _ | ⟨more, parts⟩⟩⟩⟩ | ⟨_, _, _⟩,
      _ | ⟨next, rest⟩⟩⟩ | ⟨_, _, _⟩
    case rule.cons.rule.cons.cons.nil.nil => exact (plain outer name left right rfl).elim
    all_goals simp [links]

theorem costAll_move {ts : List Tree} (h : ∀ t ∈ ts, (t.move g).cost = t.cost) :
    costAll (ts.map (move g)) = costAll ts := by
  induction ts with
  | nil => rfl
  | cons t ts ih =>
    obtain ⟨head, tail⟩ := List.forall_mem_cons.1 h
    rw [List.map_cons, costAll, costAll, head, ih tail]

theorem cost_move (t : Tree) : (t.move g).cost = t.cost := by
  induction t using Tree.induction with
  | terminal kind text span => rw [move_terminal, cost, cost]
  | rule name children ih =>
    have all := costAll_move ih
    rw [move_rule]
    rcases children with _ | ⟨left, _ | ⟨right, _ | ⟨more, rest⟩⟩⟩
    case cons.cons.nil =>
      simp only [List.map_cons, List.map_nil]
      rw [cost, cost, links_move, ih left (by simp), ih right (by simp)]
    case nil => rfl
    all_goals
      simp only [List.map_cons, List.map_nil] at all ⊢
      rw [cost, cost, all] <;> simp

end Tree

namespace Tree

variable {g : Span → Span} {vocabulary : Vocabulary} {limit room hops : Nat} {e : Expr}

theorem compileTerminal_move {kind text : String} {span : Span} {c : Construct}
    (h : compileTerminal kind text span c = .ok e) :
    compileTerminal kind text (g span) c = .ok e := by
  cases c with
  | int | float =>
    rw [compileTerminal] at h ⊢
    split at h
    next => exact h
    next => cases h
  | bool =>
    rw [compileTerminal] at h ⊢
    split at h
    next yes =>
      rw [if_pos yes]
      exact h
    next no =>
      rw [if_neg no]
      split at h
      next yes =>
        rw [if_pos yes]
        exact h
      next => cases h
  | _ => cases h

theorem headText?_move (children : List Tree) :
    Construct.headText? children = Construct.headText? (children.map (move g)) := by
  rcases children with _ | ⟨_ | _, _⟩
  · rfl
  · simp only [Construct.headText?, List.map_cons, move_rule, List.head?_cons, Option.bind_some,
      text?]
  · simp only [Construct.headText?, List.map_cons, move_terminal, List.head?_cons,
      Option.bind_some, text?]

/-- The second tree compiles to what the first one compiles to. -/
def Follows (vocabulary : Vocabulary) (limit : Nat) (t u : Tree) : Prop :=
  ∀ ⦃room hops e⦄, t.compileFrom vocabulary limit room hops = .ok e →
    u.compileFrom vocabulary limit room hops = .ok e

theorem compileAll_follows {ts us : List Tree} {es : List Expr}
    (h : List.Forall₂ (Follows vocabulary limit) ts us)
    (compiled : compileAll vocabulary limit room ts = .ok es) :
    compileAll vocabulary limit room us = .ok es := by
  induction h generalizing es with
  | nil => exact compiled
  | cons head _ ih =>
    rw [compileAll] at compiled
    obtain ⟨e, first, compiled⟩ := bind_eq_ok.1 compiled
    obtain ⟨es, rest, eq⟩ := bind_eq_ok.1 compiled
    obtain ⟨below, rfl, first⟩ := descend_eq_ok.1 first
    rw [compileAll, descend, head first, ok_bind, ih rest, ok_bind]
    exact eq

theorem forall₂_move {ts : List Tree} (h : ∀ t ∈ ts, Follows vocabulary limit t (t.move g)) :
    List.Forall₂ (Follows vocabulary limit) ts (ts.map (move g)) :=
  List.forall₂_map_right_iff.2 (List.forall₂_same.2 h)

/-- A moved tree compiles to the same program. -/
theorem follows_move (t : Tree) : Follows vocabulary limit t (t.move g) := by
  induction t using Tree.induction with
  | terminal kind text span =>
    intro room hops e h
    have few := few_of_compileFrom h
    rw [compileFrom_terminal few] at h
    rw [move_terminal, compileFrom_terminal few]
    split at h
    next => cases h
    next c mapped => exact compileTerminal_move h
  | rule name children ih =>
    intro room hops e h
    have few := few_of_compileFrom h
    rw [move_rule]
    cases mapped : vocabulary.get? name with
    | none =>
      rw [compileFrom_transparent few mapped] at h ⊢
      split at h
      next only => exact ih only (List.mem_singleton.2 rfl) h
      next => cases h
    | some c =>
      rw [compileFrom_construct few mapped] at h ⊢
      rcases Construct.parts_congr (forall₂_move ih) fun _ => headText?_move children with
        ⟨misfit, fits, _⟩ | ⟨ts, us, fits, fits', parts⟩
      · rw [fits] at h
        cases h
      · rw [fits] at h
        rw [fits']
        obtain ⟨es, compiled, ⟨⟩⟩ := bind_eq_ok.1 h
        dsimp only
        rw [compileAll_follows parts compiled, ok_bind,
          Construct.assemble_congr fun _ => headText?_move children]
        rfl

end Tree
end Reckon
