import Reckon.Proofs.Execution
import Reckon.Proofs.Failures
import Reckon.Proofs.Joining
import Reckon.Proofs.OperatorKinds
import Reckon.Proofs.Programs

/-!
Where lists and missing values come from. Operators and literals yield scalars, and an index step
yields an item of a list. So a property that scalars have, and that lists hand down to their items,
is kept by evaluation: if the variables have it before, then they have it afterwards, and so has the
result. The one exception is a program without statements, which yields `void`, and in what is read
from a source text such a program can only be the whole.
-/

namespace Reckon

/-- The value `u` is `v`, or occurs in an item of the list `v`. -/
inductive Value.OccursIn (u : Value) : Value → Prop where
  | self : OccursIn u u
  | item {items : List Value} {v : Value} (mem : v ∈ items) (inside : OccursIn u v) :
    OccursIn u (.list items)

/-- The value `u` occurs, at some depth, in the value of a variable. -/
def Environment.Has (env : Environment) (u : Value) : Prop :=
  ∃ name v, env.get? name = some v ∧ u.OccursIn v

theorem Value.exists_items_of_list? {v : Value} {items : List Value} (h : v.list? = some items) :
    v = .list items := by
  cases v <;> cases h
  rfl

/-- What an index step yields is an item. -/
theorem Value.exists_mem_of_index {base index v : Value} (h : base.index index = .ok v) :
    ∃ items, base = .list items ∧ v ∈ items := by
  unfold Value.index at h
  split at h
  · cases h
  · cases h
  next i items _ list =>
    refine ⟨items, Value.exists_items_of_list? list, ?_⟩
    split at h
    next item found =>
      cases h
      split at found
      · exact List.mem_of_getElem? found
      · cases found
    · cases h

theorem Value.exists_items_of_range {base index : Value} {i : Int64} {length : Nat}
    (h : base.index index = .error (.indexOutOfRange i length)) :
    ∃ items, base = .list items ∧ items.length = length := by
  unfold Value.index at h
  split at h
  · cases h
  · cases h
  next j items _ list =>
    refine ⟨items, Value.exists_items_of_list? list, ?_⟩
    split at h
    · cases h
    · cases h
      rfl

/-- A property that scalars have, and that lists hand down to their items. -/
structure Hereditary (P : Value → Prop) : Prop where
  scalar {v : Value} (h : v.kind.isScalar) : P v
  item {items : List Value} {v : Value} (h : P (.list items)) (mem : v ∈ items) : P v

/-- All variables have values with the property. -/
def Environment.All (P : Value → Prop) (env : Environment) : Prop :=
  ∀ name v, env.get? name = some v → P v

theorem Environment.All.insert {P : Value → Prop} {env : Environment} {v : Value}
    (h : env.All P) (name : String) (value : P v) : Environment.All P (env.insert name v) := by
  intro key w bound
  rw [NameMap.get?_insert] at bound
  split at bound
  · cases bound
    exact value
  · exact h key w bound

/-- The value and all variables have the property; and an index is out of range only for a list
that has it. -/
structure Inherits (P : Value → Prop) (y : Yield Value) : Prop where
  value : ∀ v, y.1 = .ok v → P v
  env : Environment.All P y.2
  range : ∀ i length, y.1 = .error (.indexOutOfRange i length) →
    ∃ items, P (.list items) ∧ items.length = length

/-- From variables with the property the run yields values with it. -/
def Run.Keeps (P : Value → Prop) (x : Run Value) : Prop :=
  ∀ env, Environment.All P env → Inherits P (x.on env)

namespace Run.Keeps

variable {P : Value → Prop} {v : Value} {e : EvalError} {x : Run Value} {f : Value → Run Value}

theorem pure (h : P v) : Run.Keeps P (Pure.pure v) := by
  intro env all
  refine ⟨?_, all, nofun⟩
  rintro _ ⟨⟩
  exact h

theorem throw (other : ∀ i length, e ≠ .indexOutOfRange i length) :
    Run.Keeps P (MonadExcept.throw e) := by
  intro env all
  refine ⟨nofun, all, ?_⟩
  rintro i length ⟨⟩
  exact absurd rfl (other i length)

theorem bind (first : x.Keeps P) (next : ∀ v, P v → (f v).Keeps P) : Run.Keeps P (x >>= f) := by
  intro env all
  have kept := first env all
  rw [on_bind]
  generalize x.on env = y at kept
  obtain ⟨answer, mid⟩ := y
  cases answer with
  | ok v => exact next v (kept.value v rfl) mid kept.env
  | error e => exact ⟨nofun, kept.env, fun i length eq => kept.range i length eq⟩

theorem store (name : String) (h : P v) :
    Run.Keeps P (do modify (·.insert name v); return v) := by
  intro env all
  refine ⟨?_, Environment.All.insert all name h, ?_⟩
  · rintro _ ⟨⟩
    exact h
  · rintro _ _ ⟨⟩

theorem lookUp (name : String) (hit : ∀ v, P v → (f v).Keeps P) :
    Run.Keeps P (do
      match (← get).get? name with
      | some v => f v
      | none => MonadExcept.throw (.undefinedVariable name)) := by
  intro env all
  rw [on_get_bind]
  cases bound : env.get? name with
  | some v => exact hit v (all name v bound) env all
  | none => exact throw (fun _ _ other => by cases other) env all

theorem lift {y : Except EvalError Value} (value : ∀ v, y = .ok v → P v)
    (range : ∀ i length, y = .error (.indexOutOfRange i length) →
      ∃ items, P (.list items) ∧ items.length = length) :
    Run.Keeps P (liftExcept y) := by
  intro env all
  rw [on_liftExcept]
  exact ⟨value, all, range⟩

variable (hereditary : Hereditary P)
include hereditary

theorem unary (op : UnaryOp) (v : Value) : Run.Keeps P (liftExcept (op.apply v)) := by
  refine lift (fun w done => hereditary.scalar ?_) fun i length failed => ?_
  · have ofKind := op.apply_ofKind v
    rw [done] at ofKind
    exact UnaryOp.isScalar_of_kindOn ofKind.eq_of_ok
  · obtain ⟨_, other⟩ | other := UnaryOp.error_of_apply failed <;> cases other

theorem binary (op : BinaryOp) (l r : Value) : Run.Keeps P (liftExcept (op.apply l r)) := by
  refine lift (fun w done => hereditary.scalar ?_) fun i length failed => ?_
  · have ofKind := op.apply_ofKind l r
    rw [done] at ofKind
    exact BinaryOp.isScalar_of_kindOn ofKind.eq_of_ok
  · obtain ⟨_, _, other⟩ | other | ⟨_, other⟩ := BinaryOp.error_of_apply failed <;> cases other

theorem index {base : Value} (h : P base) (i : Value) :
    Run.Keeps P (liftExcept (base.index i)) := by
  refine lift (fun v found => ?_) fun _ length failed => ?_
  · obtain ⟨items, rfl, mem⟩ := Value.exists_mem_of_index found
    exact hereditary.item h mem
  · obtain ⟨items, rfl, eq⟩ := Value.exists_items_of_range failed
    exact ⟨items, h, eq⟩

end Run.Keeps

namespace Expr

section
variable {P : Value → Prop} {limit room : Nat} {last base : Value} {e : Expr} {es : List Expr}

/-- The value before the statements is the result only if there are none. -/
theorem runAll_keeps (h : ∀ e ∈ es, (evalWithin limit room e).Keeps P) (empty : es = [] → P last) :
    (runAll limit room last es).Keeps P := by
  induction es generalizing last with
  | nil =>
    rw [runAll]
    exact .pure (empty rfl)
  | cons e es ih =>
    obtain ⟨head, tail⟩ := List.forall_mem_cons.1 h
    rw [runAll]
    exact head.bind fun v value => ih tail fun _ => value

theorem followAll_keeps (hereditary : Hereditary P)
    (h : ∀ e ∈ es, (evalWithin limit room e).Keeps P) (value : P base) :
    (followAll limit room base es).Keeps P := by
  induction es generalizing base with
  | nil =>
    rw [followAll]
    exact .pure value
  | cons e es ih =>
    obtain ⟨head, tail⟩ := List.forall_mem_cons.1 h
    rw [followAll]
    refine head.bind fun i _ => ?_
    exact (Run.Keeps.index hereditary value i).bind fun v value => ih tail value

/-- Evaluation keeps the property, if `void` has it or no program without statements is a node. -/
theorem evalWithin_keeps (hereditary : Hereditary P) (limit room : Nat) (e : Expr)
    (void : .program [] ∈ e.nodes → P .void) : (evalWithin limit room e).Keeps P := by
  induction room generalizing e with
  | zero =>
    rw [evalWithin]
    exact .throw fun _ _ other => by cases other
  | succ room ih =>
    have part (part : Expr) (mem : part ∈ e.children) : (evalWithin limit room part).Keeps P :=
      ih part fun below => void (nodes_subset mem below)
    cases e with
    | program statements =>
      rw [evalWithin]
      refine runAll_keeps part ?_
      rintro rfl
      exact void List.mem_cons_self
    | assign name value =>
      rw [evalWithin]
      exact (part value List.mem_cons_self).bind fun v value => .store name value
    | «variable» name indices =>
      rw [evalWithin]
      exact .lookUp name fun base value => followAll_keeps hereditary part value
    | literal l =>
      rw [evalWithin]
      exact .pure (hereditary.scalar (by cases l <;> rfl))
    | unary op operand =>
      rw [evalWithin]
      exact (part operand List.mem_cons_self).bind fun v _ => .unary hereditary op v
    | binary op left right =>
      rw [evalWithin]
      have second : right ∈ (Expr.binary op left right).children := by simp [children]
      exact (part left List.mem_cons_self).bind fun l _ =>
        (part right second).bind fun r _ => .binary hereditary op l r

end
end Expr

theorem Value.OccursIn.eq_of_kind {u v : Value} (h : u.OccursIn v) (flat : v.kind ≠ .list) :
    u = v := by
  cases h with
  | self => rfl
  | item _ _ => exact absurd rfl flat

/-- Scalars are neither lists nor `void`, and hold nothing else. -/
theorem Value.OccursIn.isScalar {u v : Value} (h : u.OccursIn v) (scalar : v.kind.isScalar) :
    u.kind.isScalar := by
  have flat : v.kind ≠ .list := by
    intro eq
    rw [eq] at scalar
    cases scalar
  rwa [h.eq_of_kind flat]

theorem hereditary_lists (env : Environment) :
    Hereditary fun v => ∀ items, (Value.list items).OccursIn v → env.Has (.list items) where
  scalar scalar _ occurs := nomatch occurs.isScalar scalar
  item lists mem items occurs := lists items (.item mem occurs)

theorem hereditary_not_void : Hereditary fun v => ¬Value.void.OccursIn v where
  scalar scalar occurs := nomatch occurs.isScalar scalar
  item none mem occurs := none (.item mem occurs)

/-- Every list that a run yields or leaves is one of the environment it runs on. -/
theorem Expr.eval_inherits_lists (limit : Nat) (e : Expr) (env : Environment) :
    Inherits (fun v => ∀ items, (Value.list items).OccursIn v → env.Has (.list items))
      (e.eval limit env) := by
  refine evalWithin_keeps (hereditary_lists env) limit limit e (fun _ _ occurs => ?_) env ?_
  · cases occurs
  · exact fun name v bound items occurs => ⟨name, v, bound, occurs⟩

/-- A program with statements yields no `void` and leaves none, unless a statement of its own is
without statements. -/
theorem Expr.eval_program_void (limit : Nat) {es : List Expr} {env : Environment}
    (whole : .program [] ∈ (Expr.program es).nodes → es = []) (none : ¬env.Has .void) :
    (∀ v left, (Expr.program es).eval limit env = (.ok v, left) → (v = .void ↔ es = [])) ∧
      ¬((Expr.program es).eval limit env).2.Has .void := by
  cases es with
  | nil =>
    cases limit with
    | zero => exact ⟨nofun, none⟩
    | succ room =>
      refine ⟨?_, none⟩
      rintro v left ⟨⟩
      exact ⟨fun _ => rfl, fun _ => rfl⟩
  | cons e es =>
    have kept : Inherits _ ((Expr.program (e :: es)).eval limit env) :=
      evalWithin_keeps hereditary_not_void limit limit _ (fun mem => nomatch whole mem) env
        fun name v bound occurs => none ⟨name, v, bound, occurs⟩
    constructor
    · intro v left ran
      refine ⟨?_, nofun⟩
      rintro rfl
      exact absurd .self (kept.value .void (congrArg Prod.fst ran))
    · rintro ⟨name, v, bound, occurs⟩
      exact kept.env name v bound occurs

namespace Grammar

section
variable {r : Rule} {ts : List Token} {t : Tree} {limit room hops : Nat} {e : Expr}

/-- Only the whole can be a program. -/
theorem Derives.program_not_mem_nodes (h : Derives r ts t) (ne : r ≠ .block) (few : hops ≤ r.rung)
    (compiled : compileAt limit room hops t = .ok e) (statements : List Expr) :
    .program statements ∉ e.nodes := by
  have closed (r : Rule) (_ : decide (r ≠ .block)) :
      r.body.uses (fun _ => true) fun r => r ≠ .block := by
    cases r <;> rfl
  intro mem
  obtain ⟨s, inside, construct⟩ :=
    h.makes_nodes _ closed few compiled (decide_eq_true ne) _ mem _ rfl
  have only : s = .block := by cases s <;> first | rfl | cases construct
  exact of_decide_eq_true inside only

/-- In a program that has lines there is no program without statements. -/
theorem eq_nil_of_program_nil_mem {lines : List Tree} {es : List Expr}
    (derived : ∀ l ∈ lines, ∃ ts, Derives .line ts l)
    (compiled : Tree.compileAll .standard limit room lines = .ok es)
    (mem : .program [] ∈ (Expr.program es).nodes) : es = [] := by
  rcases List.mem_cons.1 mem with same | below
  · cases same
    rfl
  · have none : ∀ e ∈ es, .program [] ∉ e.nodes := by
      refine forall_of_forall₂ (R := fun _ e => .program [] ∉ e.nodes)
        (forall₂_of_compileAll (fun l among room e compiled => ?_) compiled) id
      obtain ⟨_, line⟩ := derived l among
      exact line.program_not_mem_nodes nofun (Nat.zero_le _) compiled []
    rw [Expr.nodesAll_eq] at below
    obtain ⟨e, among, inside⟩ := List.mem_flatMap.1 below
    exact absurd inside (none e among)

end

end Grammar

open Grammar

/-- Programs make no lists and no missing values of their own. On variables in which no `void`
occurs, a program yields `void` only if it has no lines, and leaves no `void` in the variables,
whether it succeeds or fails; and the lists it yields or leaves occur in the variables it began
with. So a source text that is run on no variables never comes to a list, and no index of it is out
of range. -/
theorem lists_only_from_outside :
    (∀ (source : String) (depth room limit : Nat) (t : Tree) (e : Expr) (env : Environment),
      parse source .program depth = .ok t → t.compile .standard room = .ok e → ¬env.Has .void →
      (∀ v left, e.eval limit env = (.ok v, left) →
        (v = .void ↔ t.children = []) ∧
        ∀ items, (Value.list items).OccursIn v → env.Has (.list items)) ∧
      ¬(e.eval limit env).2.Has .void ∧
      ∀ items, (e.eval limit env).2.Has (.list items) → env.Has (.list items)) ∧
    ∀ (start : Start) (limit : Nat) (source : String),
      (∀ o, execute start limit source = .ok o →
        ∀ items, ¬(Value.list items).OccursIn o.value ∧ ¬o.env.Has (.list items)) ∧
      ∀ i length, execute start limit source ≠ .error (.eval (.indexOutOfRange i length)) := by
  constructor
  · intro source depth room limit t e env read compiled none
    obtain ⟨toks, lines, _, found, _, rfl⟩ := parse_program_eq_ok_iff.1 read
    obtain ⟨room, es, rfl, compiledAll, rfl⟩ := compile_block.1 compiled
    have whole := eq_nil_of_program_nil_mem found.lines compiledAll
    obtain ⟨result, left⟩ := Expr.eval_program_void limit whole none
    have lists := (Expr.program es).eval_inherits_lists limit env
    have empty : es = [] ↔ lines = [] := by
      rw [← List.isEmpty_iff, isEmpty_of_compileAll compiledAll, List.isEmpty_iff]
    refine ⟨fun v left ran => ⟨(result v left ran).trans empty, ?_⟩, left, ?_⟩
    · exact lists.value v (congrArg Prod.fst ran)
    · rintro items ⟨name, v, bound, occurs⟩
      exact lists.env name v bound items occurs
  · intro start limit source
    have bare (items : List Value) : ¬Environment.Has .empty (.list items) := by
      rintro ⟨name, v, ⟨⟩, _⟩
    constructor
    · intro o done items
      obtain ⟨t, e, _, _, ran, _⟩ := execute_eq_ok_iff.1 done
      have lists := e.eval_inherits_lists limit .empty
      rw [ran] at lists
      refine ⟨fun occurs => bare items (lists.value o.value rfl items occurs), ?_⟩
      rintro ⟨name, v, bound, occurs⟩
      exact bare items (lists.env name v bound items occurs)
    · intro i length failed
      obtain ⟨t, e, left, _, _, ran⟩ := execute_eq_eval_error_iff.1 failed
      have lists := e.eval_inherits_lists limit .empty
      rw [ran] at lists
      obtain ⟨items, inherited, _⟩ := lists.range i length rfl
      exact bare items (inherited items .self)

/-- An item of a nested list is stored. -/
theorem lists_only_from_outside_item :
    ∃ t e left, parse "b = a[0]" .program 9 = .ok t ∧ t.compile .standard 9 = .ok e ∧
      ¬Environment.Has (.ofList [("a", .list [.list [.int 1]])]) .void ∧
      e.eval 9 (.ofList [("a", .list [.list [.int 1]])]) = (.ok (.list [.int 1]), left) ∧
      t.children ≠ [] ∧ ¬left.Has .void ∧
      ∀ items, left.Has (.list items) →
        Environment.Has (.ofList [("a", .list [.list [.int 1]])]) (.list items) := by
  obtain ⟨t, read, compiled⟩ : ∃ t, parse "b = a[0]" .program 9 = .ok t ∧
      t.compile .standard 9 = .ok (.program
        [.assign "b" (.variable "a" [.literal (.int 0)])]) := ⟨_, rfl, rfl⟩
  obtain ⟨left, ran⟩ : ∃ left,
      (Expr.program [.assign "b" (.variable "a" [.literal (.int 0)])]).eval 9
        (.ofList [("a", .list [.list [.int 1]])]) = (.ok (.list [.int 1]), left) := ⟨_, rfl⟩
  have none : ¬Environment.Has (.ofList [("a", .list [.list [.int 1]])]) .void := by
    rintro ⟨name, v, bound, occurs⟩
    rw [NameMap.ofList, NameMap.insertMany, List.foldl_cons, List.foldl_nil,
      NameMap.get?_insert, NameMap.get?_empty] at bound
    split at bound <;> cases bound
    obtain _ | ⟨mem, occurs⟩ := occurs
    obtain rfl := List.mem_singleton.1 mem
    obtain _ | ⟨mem, occurs⟩ := occurs
    obtain rfl := List.mem_singleton.1 mem
    cases occurs
  obtain ⟨result, kept, lists⟩ :=
    lists_only_from_outside.1 "b = a[0]" 9 9 9 t _ _ read compiled none
  have lines : t.children ≠ [] := by
    intro empty
    cases (result _ _ ran).1.2 empty
  rw [ran] at kept lists
  exact ⟨t, _, left, read, compiled, none, ran, lines, kept, lists⟩

end Reckon
