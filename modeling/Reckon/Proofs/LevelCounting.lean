import Reckon.Proofs.Nesting
import Reckon.Proofs.Runs

/-!
Counting levels on a gauge. A step of an interpreter closes every level that it opens, on success
and on failure alike, so it finds as many levels left as if it had been told their number, and
leaves the gauge as it was. All that one run hands on to the next is then the environment.
-/

namespace Reckon
namespace Interpreter

section
variable {α β : Type} {limit : Nat}

theorem Step.run_bind (x : Step α) (f : α → Step β) (i : Interpreter) :
    (x >>= f).run.run i =
      match x.run.run i with
      | (.ok a, mid) => (f a).run.run mid
      | (.error e, mid) => (.error e, mid) := by
  unfold ExceptT.run StateT.run
  simp only [bind, ExceptT.bind, ExceptT.mk, StateT.bind, ExceptT.bindCont]
  cases x i with
  | mk answer mid => cases answer <;> rfl

theorem onLevel_run (body : Step α) (i : Interpreter) :
    (onLevel body).run.run i =
      match i.gauge.enter with
      | .error refused => (.error (.depthExceeded refused.limit), i)
      | .ok gauge =>
        let (answer, i) := body.run.run { i with gauge }
        (answer, { i with gauge := i.gauge.exit }) := rfl

/-- What a run yields, beside a gauge that it does not touch. -/
def keeping (gauge : DepthGauge) (y : Yield α) : Except EvalError α × Interpreter :=
  (y.1, { env := y.2, gauge })

/-- On every interpreter with this limit the step does what the run does with the levels left on the
gauge, and the gauge is afterwards as it was. -/
def Step.Counts (limit : Nat) (x : Step α) (y : (room : Nat) → Run α) : Prop :=
  ∀ env gauge, gauge.limit = limit →
    x.run.run ⟨env, gauge⟩ = keeping gauge ((y gauge.room).on env)

namespace Step.Counts

theorem pure (a : α) : Step.Counts limit (Pure.pure a) fun _ => Pure.pure a :=
  fun _ _ _ => rfl

theorem throw (e : EvalError) :
    Step.Counts limit (MonadExcept.throw e : Step α) fun _ => MonadExcept.throw e :=
  fun _ _ _ => rfl

theorem liftExcept (x : Except EvalError α) :
    Step.Counts limit (liftExcept x) fun _ => liftExcept x := by
  cases x with
  | ok a => exact .pure a
  | error e => exact .throw e

theorem store (name : String) (v : Value) :
    Step.Counts limit (do modify fun i => { i with env := i.env.insert name v }; return v)
      fun _ => do modify (·.insert name v); return v :=
  fun _ _ _ => rfl

theorem lookUp {name : String} {found : Value → Step α} {missing : Step α}
    {found' : Nat → Value → Run α} {missing' : Nat → Run α}
    (hit : ∀ v, Step.Counts limit (found v) fun room => found' room v)
    (miss : Step.Counts limit missing missing') :
    Step.Counts limit
      (do
        match (← get).env.get? name with
        | some v => found v
        | none => missing)
      (fun room => do
        match (← get).get? name with
        | some v => found' room v
        | none => missing' room) := by
  intro env gauge same
  rw [Run.on_get_bind]
  change ExceptT.run (match env.get? name with | some v => found v | none => missing) _ = _
  cases env.get? name with
  | some v => exact hit v env gauge same
  | none => exact miss env gauge same

/-- The second part finds the gauge as the first one found it. -/
theorem bind {x : Step α} {f : α → Step β} {y : Nat → Run α} {g : Nat → α → Run β}
    (first : x.Counts limit y) (next : ∀ a, (f a).Counts limit fun room => g room a) :
    Step.Counts limit (x >>= f) fun room => y room >>= g room := by
  intro env gauge same
  rw [Step.run_bind, first env gauge same, Run.on_bind]
  cases (y gauge.room).on env with
  | mk answer left =>
    cases answer with
    | ok a => exact next a left gauge same
    | error e => rfl

/-- A node is entered if a level is left, and its level is closed at the end. -/
theorem onLevel {e : Expr} {body : Step Value}
    (inside : body.Counts limit fun room => e.evalWithin limit (room + 1)) :
    (onLevel body).Counts limit fun room => e.evalWithin limit room := by
  intro env gauge same
  rw [onLevel_run]
  cases entered : gauge.enter with
  | error refused =>
    obtain rfl := DepthGauge.limit_of_refused entered
    simp only [DepthGauge.enter_eq_error_iff.1 entered, Expr.evalWithin, same]
    rfl
  | ok opened =>
    have within := inside env opened ((DepthGauge.limit_of_enter entered).trans same)
    rw [DepthGauge.room_of_enter entered]
    simp only [within, keeping, DepthGauge.exit_of_enter entered]

end Step.Counts

section
variable {last base : Value} {es : List Expr}

theorem evalAll_counts (h : ∀ e ∈ es, (eval e).Counts limit fun room => e.evalWithin limit room) :
    (evalAll last es).Counts limit fun room => Expr.runAll limit room last es := by
  induction es generalizing last with
  | nil =>
    simp only [Expr.runAll]
    exact .pure last
  | cons e es ih =>
    obtain ⟨head, tail⟩ := List.forall_mem_cons.1 h
    simp only [Expr.runAll]
    exact head.bind fun _ => ih tail

theorem evalAlong_counts
    (h : ∀ e ∈ es, (eval e).Counts limit fun room => e.evalWithin limit room) :
    (evalAlong base es).Counts limit fun room => Expr.followAll limit room base es := by
  induction es generalizing base with
  | nil =>
    simp only [Expr.followAll]
    exact .pure base
  | cons e es ih =>
    obtain ⟨head, tail⟩ := List.forall_mem_cons.1 h
    simp only [Expr.followAll]
    exact head.bind fun i => .bind (.liftExcept (base.index i)) fun _ => ih tail

end

/-- Evaluation counts its own levels rightly: it is evaluation with the levels left on the gauge. -/
theorem eval_counts (limit : Nat) (e : Expr) :
    (eval e).Counts limit fun room => e.evalWithin limit room := by
  induction e using Expr.induction with
  | program statements ih =>
    refine .onLevel ?_
    simp only [Expr.evalWithin]
    exact evalAll_counts ih
  | assign name value ih =>
    refine .onLevel ?_
    simp only [Expr.evalWithin]
    exact ih.bind fun v => .store name v
  | «variable» name indices ih =>
    refine .onLevel ?_
    simp only [Expr.evalWithin]
    exact .lookUp (fun _ => evalAlong_counts ih) (.throw _)
  | literal l =>
    refine .onLevel ?_
    simp only [Expr.evalWithin]
    exact .pure l.value
  | unary op operand ih =>
    refine .onLevel ?_
    simp only [Expr.evalWithin]
    exact ih.bind fun v => .liftExcept (op.apply v)
  | binary op left right ihl ihr =>
    refine .onLevel ?_
    simp only [Expr.evalWithin]
    exact ihl.bind fun l => ihr.bind fun r => .liftExcept (op.apply l r)

end

theorem run_eq (i : Interpreter) (e : Expr) :
    i.run e = keeping i.gauge ((e.evalWithin i.gauge.limit i.gauge.room).on i.env) :=
  eval_counts i.gauge.limit e i.env i.gauge rfl

/-- After a run an interpreter is as a new one on the environment that is left. -/
theorem run_new (env : Environment) (limit : Nat) (e : Expr) :
    (Interpreter.new env limit).run e =
      ((e.eval limit env).1, Interpreter.new (e.eval limit env).2 limit) :=
  (Interpreter.new env limit).run_eq e

/-- What the runs of the expressions yield, one after the other on this interpreter. -/
def runAll (i : Interpreter) : List Expr → List (Yield Value)
  | [] => []
  | e :: es =>
    let (answer, next) := i.run e
    (answer, next.env) :: runAll next es

/-- What the runs of the expressions yield, each on a new interpreter that is given the environment
left by the run before. -/
def runAnew (limit : Nat) (env : Environment) : List Expr → List (Yield Value)
  | [] => []
  | e :: es =>
    let (answer, next) := (Interpreter.new env limit).run e
    (answer, next.env) :: runAnew limit next.env es
end Interpreter

/-- One interpreter can be used again and again. Whatever it has run before, successes and failures
of every kind, the next run yields what it would yield on a new interpreter with the same limit and
the environment as it stands. -/
theorem interpreter_reuse (env : Environment) (limit : Nat) (es : List Expr) :
    (Interpreter.new env limit).runAll es = Interpreter.runAnew limit env es := by
  induction es generalizing env with
  | nil => rfl
  | cons e es ih =>
    rw [Interpreter.runAll, Interpreter.runAnew, Interpreter.run_new]
    exact congrArg _ (ih (e.eval limit env).2)

/-- The first run fails three levels down, and the second one still has its two levels. -/
example :
    (Interpreter.new .empty 2).runAll
        [.unary .not (.unary .not (.literal (.bool true))), .unary .not (.literal (.bool true))] =
      [(.error (.depthExceeded 2), .empty), (.ok (.bool false), .empty)] := rfl

end Reckon
