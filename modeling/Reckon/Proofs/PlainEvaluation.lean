import Reckon.Proofs.Failures
import Reckon.Proofs.Nesting
import Reckon.Proofs.Runs

/-!
Evaluation without a bound on nesting, and how deep it goes. `plain` has no levels to count. Beside
it, `visits` lists the levels of the nodes it comes to, in the order in which it comes to them, and
stops where the evaluation fails. Nothing that is visited stands below the depth of the expression,
and an evaluation that succeeds has visited its deepest node, as no construct leaves out a part.
-/

namespace Reckon
namespace Expr

mutual

/-- The value of a node. Statements run in order and the last one gives the value; an assignment
stores its value before it yields it; a variable is looked up before its indices, which apply from
left to right; the left operand comes before the right one, and both come before the operator. -/
def plain : Expr → Run Value
  | .program statements => plainAll .void statements
  | .assign name value => do
    let v ← plain value
    modify (·.insert name v)
    return v
  | .variable name indices => do
    match (← get).get? name with
    | some base => plainAlong base indices
    | none => throw (.undefinedVariable name)
  | .literal l => return l.value
  | .unary op operand => do
    let v ← plain operand
    liftExcept (op.apply v)
  | .binary op left right => do
    let l ← plain left
    let r ← plain right
    liftExcept (op.apply l r)

/-- The value of the last statement, `last` if there is none. -/
def plainAll (last : Value) : List Expr → Run Value
  | [] => return last
  | e :: es => do
    let v ← plain e
    plainAll v es

/-- What is reached from `base` by one index after the other. -/
def plainAlong (base : Value) : List Expr → Run Value
  | [] => return base
  | e :: es => do
    let i ← plain e
    let v ← liftExcept (base.index i)
    plainAlong v es

end

end Expr

/-- What is visited after a run, if it succeeds. -/
def Yield.visitsAfter {α : Type} (x : Yield α) (f : α → Environment → List Nat) : List Nat :=
  match x with
  | (.ok a, left) => f a left
  | (.error _, _) => []

theorem Yield.mem_visitsAfter {α : Type} {l : Nat} {x : Yield α}
    {f : α → Environment → List Nat} :
    l ∈ x.visitsAfter f ↔ ∃ a left, x = (.ok a, left) ∧ l ∈ f a left := by
  obtain ⟨answer, left⟩ := x
  cases answer <;> simp [visitsAfter, and_assoc]

namespace Expr

mutual

/-- The levels of the nodes that plain evaluation on `env` comes to, in order, the node itself on
`level` and every part one below what it is part of. -/
def visits (level : Nat) (env : Environment) : Expr → List Nat
  | .program statements => level :: visitsAll (level + 1) env statements
  | .assign _ value => level :: visits (level + 1) env value
  | .variable name indices =>
    level ::
      match env.get? name with
      | some base => visitsAlong (level + 1) env base indices
      | none => []
  | .literal _ => [level]
  | .unary _ operand => level :: visits (level + 1) env operand
  | .binary _ left right =>
    level :: (visits (level + 1) env left
      ++ ((plain left).on env).visitsAfter fun _ env => visits (level + 1) env right)

def visitsAll (level : Nat) (env : Environment) : List Expr → List Nat
  | [] => []
  | e :: es =>
    visits level env e ++ ((plain e).on env).visitsAfter fun _ env => visitsAll level env es

def visitsAlong (level : Nat) (env : Environment) (base : Value) : List Expr → List Nat
  | [] => []
  | e :: es =>
    visits level env e ++ ((plain e).on env).visitsAfter fun i env =>
      match base.index i with
      | .ok v => visitsAlong level env v es
      | .error _ => []

end

theorem exists_visits_eq_cons (level : Nat) (env : Environment) (e : Expr) :
    ∃ others, e.visits level env = level :: others := by
  cases e <;> exact ⟨_, rfl⟩

section
variable {level n : Nat} {env left : Environment} {last base v : Value} {err : EvalError}
  {es : List Expr}

/-- Everything the expression visits from a level stands less than its depth below it. -/
def Confined (e : Expr) : Prop := ∀ level env, ∀ l ∈ e.visits level env, l < level + e.depth

theorem visitsAll_lt (h : ∀ e ∈ es, e.Confined) :
    ∀ l ∈ visitsAll level env es, l < level + depthAll es := by
  induction es generalizing env with
  | nil => simp [visitsAll]
  | cons e es ih =>
    obtain ⟨head, tail⟩ := List.forall_mem_cons.1 h
    intro l mem
    rw [depthAll]
    rcases List.mem_append.1 mem with mem | mem
    · have := head level env l mem
      omega
    · obtain ⟨_, _, _, mem⟩ := Yield.mem_visitsAfter.1 mem
      have := ih tail l mem
      omega

theorem visitsAlong_lt (h : ∀ e ∈ es, e.Confined) :
    ∀ l ∈ visitsAlong level env base es, l < level + depthAll es := by
  induction es generalizing env base with
  | nil => simp [visitsAlong]
  | cons e es ih =>
    obtain ⟨head, tail⟩ := List.forall_mem_cons.1 h
    intro l mem
    rw [depthAll]
    rcases List.mem_append.1 mem with mem | mem
    · have := head level env l mem
      omega
    · obtain ⟨i, mid, _, mem⟩ := Yield.mem_visitsAfter.1 mem
      cases step : base.index i with
      | ok v =>
        rw [step] at mem
        have := ih tail l mem
        omega
      | error e =>
        rw [step] at mem
        cases mem

/-- Nothing below the depth of the expression is visited. -/
theorem visits_lt (e : Expr) : e.Confined := by
  induction e using induction with
  | program statements ih =>
    intro level env l mem
    rw [depth]
    rcases List.mem_cons.1 mem with rfl | mem
    · omega
    · have := visitsAll_lt ih l mem
      omega
  | assign name value ih | unary op operand ih =>
    intro level env l mem
    rw [depth]
    rcases List.mem_cons.1 mem with rfl | mem
    · omega
    · have := ih _ _ l mem
      omega
  | «variable» name indices ih =>
    intro level env l mem
    rw [depth]
    rcases List.mem_cons.1 mem with rfl | mem
    · omega
    · cases bound : env.get? name with
      | none =>
        rw [bound] at mem
        cases mem
      | some base =>
        rw [bound] at mem
        have := visitsAlong_lt ih l mem
        omega
  | literal l =>
    intro level env l mem
    rw [List.mem_singleton.1 mem, depth]
    omega
  | binary op left right ihl ihr =>
    intro level env l mem
    rw [depth]
    rcases List.mem_cons.1 mem with rfl | mem
    · omega
    · rcases List.mem_append.1 mem with mem | mem
      · have := ihl _ _ l mem
        omega
      · obtain ⟨_, _, _, mem⟩ := Yield.mem_visitsAfter.1 mem
        have := ihr _ _ l mem
        omega

/-- An evaluation that succeeds has come down to the deepest node. -/
def Covering (e : Expr) : Prop :=
  ∀ level n env v left, (plain e).on env = (.ok v, left) → (∀ l ∈ e.visits level env, l ≤ n) →
    level + e.depth ≤ n + 1

theorem depthAll_le_of_plainAll (h : ∀ e ∈ es, e.Covering)
    (done : (plainAll last es).on env = (.ok v, left))
    (within : ∀ l ∈ visitsAll level env es, l ≤ n) (pos : level ≤ n + 1) :
    level + depthAll es ≤ n + 1 := by
  induction es generalizing env last with
  | nil => simpa [depthAll] using pos
  | cons e es ih =>
    obtain ⟨head, tail⟩ := List.forall_mem_cons.1 h
    obtain ⟨a, mid, first, rest⟩ := Run.on_bind_eq_ok.1 done
    rw [visitsAll, first] at within
    obtain ⟨here, after⟩ := List.forall_mem_append.1 within
    have := head _ _ _ _ _ first here
    have := ih tail rest after
    rw [depthAll]
    omega

theorem depthAll_le_of_plainAlong (h : ∀ e ∈ es, e.Covering)
    (done : (plainAlong base es).on env = (.ok v, left))
    (within : ∀ l ∈ visitsAlong level env base es, l ≤ n) (pos : level ≤ n + 1) :
    level + depthAll es ≤ n + 1 := by
  induction es generalizing env base with
  | nil => simpa [depthAll] using pos
  | cons e es ih =>
    obtain ⟨head, tail⟩ := List.forall_mem_cons.1 h
    obtain ⟨i, mid, first, rest⟩ := Run.on_bind_eq_ok.1 done
    obtain ⟨w, mid', step, rest⟩ := Run.on_bind_eq_ok.1 rest
    rw [Run.on_liftExcept] at step
    obtain ⟨indexed, rfl⟩ := Prod.mk.inj step
    rw [visitsAlong, first] at within
    obtain ⟨here, after⟩ := List.forall_mem_append.1 within
    simp only [Yield.visitsAfter, indexed] at after
    have := head _ _ _ _ _ first here
    have := ih tail rest after
    rw [depthAll]
    omega

theorem depth_le_of_plain (e : Expr) : e.Covering := by
  induction e using induction with
  | program statements ih =>
    intro level n env v left done within
    obtain ⟨here, below⟩ := List.forall_mem_cons.1 within
    have := depthAll_le_of_plainAll ih done below (Nat.succ_le_succ here)
    rw [depth]
    omega
  | assign name value ih | unary op operand ih =>
    intro level n env v left done within
    obtain ⟨here, below⟩ := List.forall_mem_cons.1 within
    obtain ⟨a, mid, first, _⟩ := Run.on_bind_eq_ok.1 done
    have := ih _ _ _ _ _ first below
    rw [depth]
    omega
  | «variable» name indices ih =>
    intro level n env v left done within
    obtain ⟨here, below⟩ := List.forall_mem_cons.1 within
    rw [plain, Run.on_get_bind] at done
    cases bound : env.get? name with
    | none =>
      rw [bound] at done
      cases done
    | some base =>
      rw [bound] at done below
      have := depthAll_le_of_plainAlong ih done below (Nat.succ_le_succ here)
      rw [depth]
      omega
  | literal l =>
    intro level n env v left _ within
    have := within level List.mem_cons_self
    rw [depth]
    omega
  | binary op l r ihl ihr =>
    intro level n env v left done within
    obtain ⟨here, below⟩ := List.forall_mem_cons.1 within
    obtain ⟨a, mid, first, rest⟩ := Run.on_bind_eq_ok.1 done
    obtain ⟨b, _, second, _⟩ := Run.on_bind_eq_ok.1 rest
    rw [first] at below
    obtain ⟨below, after⟩ := List.forall_mem_append.1 below
    have := ihl _ _ _ _ _ first below
    have := ihr _ _ _ _ _ second after
    rw [depth]
    omega

end

end Expr

/-- The error is about nesting. -/
def EvalError.isDepth : EvalError → Bool
  | .depthExceeded _ => true
  | _ => false

theorem BinaryOp.not_isDepth {op : BinaryOp} {l r : Value} {e : EvalError}
    (h : op.apply l r = .error e) : e.isDepth = false := by
  rcases BinaryOp.error_of_apply h with ⟨_, _, rfl⟩ | rfl | ⟨_, rfl⟩ <;> rfl

theorem UnaryOp.not_isDepth {op : UnaryOp} {v : Value} {e : EvalError}
    (h : op.apply v = .error e) : e.isDepth = false := by
  rcases UnaryOp.error_of_apply h with ⟨_, rfl⟩ | rfl <;> rfl

theorem Value.not_isDepth {base index : Value} {e : EvalError}
    (h : base.index index = .error e) : e.isDepth = false := by
  rcases Value.error_of_index h with rfl | rfl | ⟨_, _, rfl⟩ <;> rfl

/-- On no environment does the run fail for its nesting. -/
def Run.Shallow {α : Type} (x : Run α) : Prop :=
  ∀ env err left, x.on env = (.error err, left) → err.isDepth = false

namespace Run.Shallow

variable {α β : Type} {x : Run α}

theorem pure (a : α) : Run.Shallow (Pure.pure a : Run α) := by
  intro env err left h
  cases h

theorem bind {f : α → Run β} (hx : x.Shallow) (hf : ∀ a, (f a).Shallow) :
    Run.Shallow (x >>= f) := by
  intro env err left h
  rcases Run.on_bind_eq_error.1 h with h | ⟨a, mid, _, h⟩
  · exact hx _ _ _ h
  · exact hf a _ _ _ h

theorem liftExcept {y : Except EvalError α} (h : ∀ e, y = .error e → e.isDepth = false) :
    Run.Shallow (liftExcept y) := by
  intro env err left failed
  rw [Run.on_liftExcept] at failed
  exact h err (Prod.mk.inj failed).1

end Run.Shallow

namespace Expr

theorem plainAll_shallow {last : Value} {es : List Expr} (h : ∀ e ∈ es, e.plain.Shallow) :
    (plainAll last es).Shallow := by
  induction es generalizing last with
  | nil => exact .pure last
  | cons e es ih =>
    obtain ⟨head, tail⟩ := List.forall_mem_cons.1 h
    exact head.bind fun _ => ih tail

theorem plainAlong_shallow {base : Value} {es : List Expr} (h : ∀ e ∈ es, e.plain.Shallow) :
    (plainAlong base es).Shallow := by
  induction es generalizing base with
  | nil => exact .pure base
  | cons e es ih =>
    obtain ⟨head, tail⟩ := List.forall_mem_cons.1 h
    exact head.bind fun _ => .bind (.liftExcept fun _ => Value.not_isDepth) fun _ => ih tail

/-- Without a bound on nesting nothing fails for it. -/
theorem plain_shallow (e : Expr) : e.plain.Shallow := by
  induction e using induction with
  | program statements ih => exact plainAll_shallow ih
  | assign name value ih =>
    refine ih.bind fun v => ?_
    intro env err left h
    cases h
  | «variable» name indices ih =>
    intro env err left h
    rw [plain, Run.on_get_bind] at h
    cases bound : env.get? name with
    | none =>
      rw [bound] at h
      cases h
      rfl
    | some base =>
      rw [bound] at h
      exact plainAlong_shallow ih _ _ _ h
  | literal l => exact .pure l.value
  | unary op operand ih => exact ih.bind fun _ => .liftExcept fun _ => UnaryOp.not_isDepth
  | binary op left right ihl ihr =>
    exact ihl.bind fun _ => ihr.bind fun _ => .liftExcept fun _ => BinaryOp.not_isDepth

end Expr
end Reckon
