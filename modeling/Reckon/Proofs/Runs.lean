import Reckon.Eval

/-!
Runs as functions of the environment. What a run yields is its answer and the environment it leaves;
a step after a run that has failed is not taken.
-/

namespace Reckon

/-- An answer and the environment it leaves. -/
abbrev Yield (α : Type) := Except EvalError α × Environment

/-- What `next` yields on the environment that is left, unless there has been a failure. -/
def Yield.andThen {α β : Type} (first : Yield α) (next : α → Environment → Yield β) : Yield β :=
  match first with
  | (.ok a, left) => next a left
  | (.error e, left) => (.error e, left)

namespace Run

variable {α β : Type} {env left : Environment} {e : EvalError}

/-- What the run yields on an environment. -/
def on (x : Run α) (env : Environment) : Yield α := x.run.run env

theorem on_pure (a : α) : on (pure a) env = (.ok a, env) := rfl

theorem on_throw : on (throw e : Run α) env = (.error e, env) := rfl

theorem on_get_bind (f : Environment → Run α) : on (get >>= f) env = (f env).on env := rfl

theorem on_liftExcept (x : Except EvalError α) : on (liftExcept x : Run α) env = (x, env) := by
  cases x <;> rfl

theorem on_bind (x : Run α) (f : α → Run β) :
    on (x >>= f) env = (x.on env).andThen fun a mid => (f a).on mid := by
  unfold on ExceptT.run StateT.run
  simp only [bind, ExceptT.bind, ExceptT.mk, StateT.bind, ExceptT.bindCont]
  cases x env with
  | mk answer mid => cases answer <;> rfl

theorem on_bind_eq_ok {x : Run α} {f : α → Run β} {b : β} :
    on (x >>= f) env = (.ok b, left) ↔
      ∃ a mid, x.on env = (.ok a, mid) ∧ (f a).on mid = (.ok b, left) := by
  rw [on_bind]
  cases x.on env with
  | mk answer mid => cases answer <;> simp [Yield.andThen, and_assoc]

theorem on_bind_eq_error {x : Run α} {f : α → Run β} :
    on (x >>= f) env = (.error e, left) ↔
      x.on env = (.error e, left) ∨
        ∃ a mid, x.on env = (.ok a, mid) ∧ (f a).on mid = (.error e, left) := by
  rw [on_bind]
  cases x.on env with
  | mk answer mid => cases answer <;> simp [Yield.andThen, and_assoc]

end Run
end Reckon
