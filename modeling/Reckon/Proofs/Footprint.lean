import Reckon.Proofs.Nesting
import Reckon.Proofs.Runs

/-!
What a run looks up and what it stores. The names that an expression refers to and the names that it
assigns to bound what evaluation has to do with the environment: on environments that agree on the
former there is one answer and one list of stores, all of them under the latter, and the environment
that is left is the one before with these stores made in order.
-/

namespace Reckon
namespace Expr

mutual

/-- The nodes of a tree, each before its parts. -/
def nodes : Expr → List Expr
  | .program statements => .program statements :: nodesAll statements
  | .assign name value => .assign name value :: nodes value
  | .variable name indices => .variable name indices :: nodesAll indices
  | .literal l => [.literal l]
  | .unary op operand => .unary op operand :: nodes operand
  | .binary op left right => .binary op left right :: (nodes left ++ nodes right)

def nodesAll : List Expr → List Expr
  | [] => []
  | e :: es => nodes e ++ nodesAll es

end

/-- The name that the node itself refers to. -/
def reference? : Expr → Option String
  | .variable name _ => some name
  | _ => none

/-- The name that the node itself assigns to. -/
def target? : Expr → Option String
  | .assign name _ => some name
  | _ => none

/-- The names referred to anywhere in the tree. -/
def reads (e : Expr) : List String := e.nodes.filterMap reference?

/-- The names assigned to anywhere in the tree. -/
def targets (e : Expr) : List String := e.nodes.filterMap target?

section
variable {e part : Expr}

theorem nodesAll_eq (es : List Expr) : nodesAll es = es.flatMap nodes := by
  induction es with
  | nil => rfl
  | cons e es ih => rw [nodesAll, ih, List.flatMap_cons]

theorem nodes_eq (e : Expr) : e.nodes = e :: e.children.flatMap nodes := by
  cases e <;> simp [nodes, children, nodesAll_eq]

theorem reads_eq (e : Expr) : e.reads = e.reference?.toList ++ e.children.flatMap reads := by
  rw [reads, nodes_eq, List.filterMap_cons, List.filterMap_flatMap]
  cases e.reference? <;> rfl

theorem targets_eq (e : Expr) : e.targets = e.target?.toList ++ e.children.flatMap targets := by
  rw [targets, nodes_eq, List.filterMap_cons, List.filterMap_flatMap]
  cases e.target? <;> rfl

theorem nodes_subset (mem : part ∈ e.children) : part.nodes ⊆ e.nodes := by
  rw [e.nodes_eq]
  exact fun _ among => List.mem_cons_of_mem _ (List.mem_flatMap_of_mem mem among)

theorem reads_subset (mem : part ∈ e.children) : part.reads ⊆ e.reads :=
  List.filterMap_subset _ (nodes_subset mem)

theorem targets_subset (mem : part ∈ e.children) : part.targets ⊆ e.targets :=
  List.filterMap_subset _ (nodes_subset mem)

theorem forall_mem_nodes {Q : Expr → Prop} :
    (∀ part ∈ e.nodes, Q part) ↔ Q e ∧ ∀ part ∈ e.children, ∀ below ∈ part.nodes, Q below := by
  simp only [nodes_eq e, List.forall_mem_cons, List.forall_mem_flatMap]

theorem mem_reads_variable (name : String) (indices : List Expr) :
    name ∈ (Expr.variable name indices).reads := by
  rw [reads, nodes]
  exact List.mem_cons_self

theorem mem_targets_assign (name : String) (value : Expr) :
    name ∈ (Expr.assign name value).targets := by
  rw [targets, nodes]
  exact List.mem_cons_self

end

end Expr

/-- The same value, or none in either, under each of the names. -/
def AgreeOn (names : List String) (env env' : Environment) : Prop :=
  ∀ name ∈ names, env.get? name = env'.get? name

namespace Run

/-- The run depends on `reads` alone and stores under `targets` alone. -/
def Within (reads targets : List String) {α : Type} (x : Run α) : Prop :=
  ∀ ⦃env env' : Environment⦄, AgreeOn reads env env' →
    ∃ answer stores, (∀ store ∈ stores, store.1 ∈ targets) ∧
      x.on env = (answer, env.insertMany stores) ∧ x.on env' = (answer, env'.insertMany stores)

namespace Within

variable {reads targets reads' targets' : List String} {α β : Type} {x : Run α}

theorem mono (h : x.Within reads targets) (more : reads ⊆ reads') (more' : targets ⊆ targets') :
    x.Within reads' targets' := by
  intro env env' agree
  obtain ⟨answer, stores, inside, left, left'⟩ := h fun name mem => agree name (more mem)
  exact ⟨answer, stores, fun store mem => more' (inside store mem), left, left'⟩

/-- A run that leaves every environment as it is, always with the same answer. -/
theorem of_const {answer : Except EvalError α} (h : ∀ env, x.on env = (answer, env)) :
    x.Within reads targets :=
  fun env env' _ => ⟨answer, [], by simp, h env, h env'⟩

theorem pure (a : α) : Run.Within reads targets (Pure.pure a : Run α) :=
  of_const fun _ => rfl

theorem throw (e : EvalError) : Run.Within reads targets (MonadExcept.throw e : Run α) :=
  of_const fun _ => rfl

theorem liftExcept (y : Except EvalError α) :
    Run.Within reads targets (liftExcept y : Run α) :=
  of_const fun _ => on_liftExcept y

/-- The stores of the first part are made in both environments, so they still agree. -/
theorem bind {f : α → Run β} (first : x.Within reads targets)
    (next : ∀ a, (f a).Within reads targets) : Run.Within reads targets (x >>= f) := by
  intro env env' agree
  obtain ⟨answer, stores, inside, left, left'⟩ := first agree
  rw [on_bind, on_bind, left, left']
  cases answer with
  | error e => exact ⟨.error e, stores, inside, rfl, rfl⟩
  | ok a =>
    have still : AgreeOn reads (env.insertMany stores) (env'.insertMany stores) :=
      fun name mem => NameMap.get?_insertMany_congr (agree name mem) stores
    obtain ⟨answer, others, inside', left, left'⟩ := next a still
    refine ⟨answer, stores ++ others, List.forall_mem_append.2 ⟨inside, inside'⟩, ?_, ?_⟩
    · rw [NameMap.insertMany_append]
      exact left
    · rw [NameMap.insertMany_append]
      exact left'

theorem store {name : String} (mem : name ∈ targets) (v : Value) :
    Run.Within reads targets (do modify (·.insert name v); return v : Run Value) := by
  intro env env' _
  exact ⟨.ok v, [(name, v)], by simpa using mem, rfl, rfl⟩

theorem lookUp {name : String} (mem : name ∈ reads) {found : Value → Run α} {missing : Run α}
    (hit : ∀ v, (found v).Within reads targets) (miss : missing.Within reads targets) :
    Run.Within reads targets (do
      match (← get).get? name with
      | some v => found v
      | none => missing) := by
  intro env env' agree
  rw [on_get_bind, on_get_bind, ← agree name mem]
  cases env.get? name with
  | some v => exact hit v agree
  | none => exact miss agree

end Within
end Run

namespace Expr

section
variable {limit room : Nat} {last base : Value} {es : List Expr} {reads targets : List String}

theorem runAll_within (h : ∀ e ∈ es, (evalWithin limit room e).Within reads targets) :
    (runAll limit room last es).Within reads targets := by
  induction es generalizing last with
  | nil =>
    rw [runAll]
    exact .pure last
  | cons e es ih =>
    obtain ⟨head, tail⟩ := List.forall_mem_cons.1 h
    rw [runAll]
    exact head.bind fun _ => ih tail

theorem followAll_within (h : ∀ e ∈ es, (evalWithin limit room e).Within reads targets) :
    (followAll limit room base es).Within reads targets := by
  induction es generalizing base with
  | nil =>
    rw [followAll]
    exact .pure base
  | cons e es ih =>
    obtain ⟨head, tail⟩ := List.forall_mem_cons.1 h
    rw [followAll]
    exact head.bind fun _ => .bind (.liftExcept _) fun _ => ih tail

end

/-- Evaluating the node looks up and stores no more than the names that occur in it. -/
def Confines (limit : Nat) (e : Expr) : Prop :=
  ∀ room, (evalWithin limit room e).Within e.reads e.targets

variable {e part : Expr} {limit : Nat}

/-- The names in a part are names in the whole. -/
theorem Confines.whole (h : part.Confines limit) (mem : part ∈ e.children) (room : Nat) :
    (evalWithin limit room part).Within e.reads e.targets :=
  (h room).mono (reads_subset mem) (targets_subset mem)

/-- A node that is not entered does nothing. -/
theorem confines_of_entered
    (h : ∀ room, (evalWithin limit (room + 1) e).Within e.reads e.targets) :
    e.Confines limit := by
  intro room
  cases room with
  | zero =>
    rw [evalWithin]
    exact .throw _
  | succ room => exact h room

theorem confines (limit : Nat) (e : Expr) : e.Confines limit := by
  induction e using induction with
  | program statements ih =>
    refine confines_of_entered fun room => ?_
    rw [evalWithin]
    exact runAll_within fun part mem =>
      Confines.whole (e := .program statements) (ih part mem) mem room
  | assign name value ih =>
    refine confines_of_entered fun room => ?_
    rw [evalWithin]
    exact (Confines.whole ih List.mem_cons_self room).bind fun v =>
      .store (mem_targets_assign name value) v
  | «variable» name indices ih =>
    refine confines_of_entered fun room => ?_
    rw [evalWithin]
    refine .lookUp (mem_reads_variable name indices) (fun base => ?_) (.throw _)
    exact followAll_within fun part mem =>
      Confines.whole (e := .variable name indices) (ih part mem) mem room
  | literal l =>
    refine confines_of_entered fun room => ?_
    rw [evalWithin]
    exact .pure l.value
  | unary op operand ih =>
    refine confines_of_entered fun room => ?_
    rw [evalWithin]
    exact (Confines.whole ih List.mem_cons_self room).bind fun _ => .liftExcept _
  | binary op left right ihl ihr =>
    refine confines_of_entered fun room => ?_
    rw [evalWithin]
    have second : right ∈ (Expr.binary op left right).children := by simp [children]
    exact (Confines.whole ihl List.mem_cons_self room).bind fun _ =>
      (Confines.whole ihr second room).bind fun _ => .liftExcept _

end Expr

section
variable {e : Expr} {limit : Nat} {env env' : Environment}

theorem Expr.exists_stores (e : Expr) (limit : Nat) (agree : AgreeOn e.reads env env') :
    ∃ answer stores, (∀ store ∈ stores, store.1 ∈ e.targets) ∧
      e.eval limit env = (answer, env.insertMany stores) ∧
      e.eval limit env' = (answer, env'.insertMany stores) :=
  e.confines limit limit agree

/-- An expression that assigns nothing leaves every environment as it is. -/
theorem Expr.eval_snd_of_targets_eq_nil (none : e.targets = []) : (e.eval limit env).2 = env := by
  have same : AgreeOn e.reads env env := fun _ _ => rfl
  obtain ⟨answer, stores, inside, left, _⟩ := e.exists_stores limit same
  cases stores with
  | nil => exact congrArg Prod.snd left
  | cons store stores =>
    have mem := inside store List.mem_cons_self
    rw [none] at mem
    cases mem

end

/-- Evaluation depends only on the names the expression refers to, and writes only to those it
assigns to. On two environments that agree on the former it gives the same answer and makes the
same stores, whether it succeeds or fails. So every name that is bound stays bound, and a name that
is not assigned to keeps its value. -/
theorem eval_footprint (e : Expr) (limit : Nat) (env env' : Environment)
    (agree : AgreeOn e.reads env env') :
    ∃ answer stores, (∀ store ∈ stores, store.1 ∈ e.targets) ∧
      e.eval limit env = (answer, env.insertMany stores) ∧
      e.eval limit env' = (answer, env'.insertMany stores) ∧
      (∀ name, env.contains name → (e.eval limit env).2.contains name) ∧
      ∀ name, name ∉ e.targets → (e.eval limit env).2.get? name = env.get? name := by
  obtain ⟨answer, stores, inside, left, left'⟩ := e.exists_stores limit agree
  refine ⟨answer, stores, inside, left, left', ?_, ?_⟩
  · intro name bound
    rw [left]
    exact NameMap.contains_insertMany bound stores
  · intro name other
    have apart : ∀ store ∈ stores, store.1 ≠ name := by
      rintro store mem rfl
      exact other (inside store mem)
    rw [left]
    exact NameMap.get?_insertMany_of_ne apart env

/-- The operand that fails comes after the one that assigns, and `u` is bound in only one of the two
environments. -/
theorem eval_footprint_undefined :
    AgreeOn ["x", "z"] (.ofList [("x", .int 1), ("u", .int 2)]) (.ofList [("x", .int 1)]) ∧
    ∃ stores, (∀ store ∈ stores, store.1 ∈ ["y"]) ∧
      (Expr.binary (.ring .add) (.assign "y" (.variable "x" [])) (.variable "z" [])).eval 9
          (.ofList [("x", .int 1), ("u", .int 2)]) =
        (.error (.undefinedVariable "z"),
          (NameMap.ofList [("x", .int 1), ("u", .int 2)]).insertMany stores) ∧
      (Expr.binary (.ring .add) (.assign "y" (.variable "x" [])) (.variable "z" [])).eval 9
          (.ofList [("x", .int 1)]) =
        (.error (.undefinedVariable "z"), (NameMap.ofList [("x", .int 1)]).insertMany stores) := by
  have agree : AgreeOn ["x", "z"] (.ofList [("x", .int 1), ("u", .int 2)])
      (.ofList [("x", .int 1)]) := by
    simp only [AgreeOn, List.forall_mem_cons]
    exact ⟨rfl, rfl, by simp⟩
  obtain ⟨answer, stores, inside, left, left', _⟩ := eval_footprint
    (.binary (.ring .add) (.assign "y" (.variable "x" [])) (.variable "z" [])) 9 _ _ agree
  obtain rfl : .error (.undefinedVariable "z") = answer := congrArg Prod.fst left
  exact ⟨agree, stores, inside, left, left'⟩

end Reckon
