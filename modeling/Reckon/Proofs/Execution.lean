import Reckon.Command
import Reckon.Proofs.Runs
import Reckon.Proofs.Sequence

/-!
Running a source text, stage by stage. It yields an outcome if every stage succeeds, and the failure
of the first stage that does not.
-/

namespace Reckon

section
variable {start : Grammar.Start} {limit : Nat} {source : String}

theorem execute_eq_ok_iff {o : Outcome} :
    execute start limit source = .ok o ↔
      ∃ t e, parse source start limit = .ok t ∧ t.compile .standard limit = .ok e ∧
        e.eval limit .empty = (.ok o.value, o.env) ∧ o.nodes = e.count := by
  simp only [execute, bind_eq_ok, mapError_eq_ok]
  constructor
  · rintro ⟨t, read, e, compiled, ran⟩
    refine ⟨t, e, read, compiled, ?_⟩
    split at ran
    next value env done =>
      cases ran
      exact ⟨done, rfl⟩
    · cases ran
  · rintro ⟨t, e, read, compiled, ran, nodes⟩
    refine ⟨t, read, e, compiled, ?_⟩
    rw [ran]
    exact congrArg (fun n => Except.ok (Outcome.mk o.value o.env n)) nodes.symm

theorem execute_eq_eval_error_iff {err : EvalError} :
    execute start limit source = .error (.eval err) ↔
      ∃ t e left, parse source start limit = .ok t ∧ t.compile .standard limit = .ok e ∧
        e.eval limit .empty = (.error err, left) := by
  simp only [execute, bind_eq_error, mapError_eq_ok, mapError_eq_error]
  constructor
  · rintro (⟨_, _, other⟩ | ⟨t, read, ⟨_, _, other⟩ | ⟨e, compiled, ran⟩⟩)
    · cases other
    · cases other
    · split at ran
      · cases ran
      next failed left done =>
        cases ran
        exact ⟨t, e, left, read, compiled, done⟩
  · rintro ⟨t, e, left, read, compiled, ran⟩
    refine .inr ⟨t, read, .inr ⟨e, compiled, ?_⟩⟩
    rw [ran]
    rfl

/-- The stage that fails. -/
theorem execute_eq_error {f : Failure} (failed : execute start limit source = .error f) :
    (∃ e, parse source start limit = .error e ∧ f = .parse e) ∨
    (∃ t e, parse source start limit = .ok t ∧ t.compile .standard limit = .error e ∧
      f = .compile e) ∨
    ∃ e, f = .eval e := by
  cases f with
  | eval e => exact .inr (.inr ⟨e, rfl⟩)
  | _ =>
    simp only [execute, bind_eq_error, mapError_eq_ok, mapError_eq_error] at failed
    rcases failed with ⟨e, refused, eq⟩ | ⟨t, read, ⟨e, refused, eq⟩ | ⟨e, _, ran⟩⟩
    · exact .inl ⟨e, refused, eq.symm⟩
    · exact .inr (.inl ⟨t, e, read, refused, eq.symm⟩)
    · split at ran <;> cases ran

end

end Reckon
