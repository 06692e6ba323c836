import Reckon.Proofs.Constructs
import Reckon.Proofs.Execution
import Reckon.Proofs.GuardedEvaluation
import Reckon.Proofs.LevelCounting

/-!
Running never needs more levels than compiling. Every level of an expression comes from a level that
was open while it was compiled, so an expression is no deeper than the limit it was compiled within,
whatever the vocabulary, and within that limit evaluation is the same as without one.
-/

namespace Reckon
namespace Tree

variable {vocabulary : Vocabulary} {limit room hops : Nat} {t : Tree} {ts : List Tree} {e : Expr}
  {es : List Expr}

theorem depth_of_compileTerminal {kind text : String} {span : Span} {c : Construct}
    (h : compileTerminal kind text span c = .ok e) : e.depth = 1 := by
  obtain ⟨l, rfl⟩ := exists_literal_of_compileTerminal h
  rw [Expr.depth]

theorem depthAll_le_of_compileAll
    (parts : ∀ t ∈ ts, ∀ room hops e, compileFrom vocabulary limit room hops t = .ok e →
      e.depth ≤ room + 1)
    (h : compileAll vocabulary limit room ts = .ok es) : Expr.depthAll es ≤ room := by
  induction ts generalizing es with
  | nil =>
    rw [compileAll] at h
    cases h
    exact Nat.zero_le room
  | cons t ts ih =>
    obtain ⟨head, tail⟩ := List.forall_mem_cons.1 parts
    rw [compileAll] at h
    obtain ⟨e, compiled, h⟩ := bind_eq_ok.1 h
    obtain ⟨es, others, h⟩ := bind_eq_ok.1 h
    cases h
    rw [Expr.depthAll]
    refine Nat.max_le.2 ⟨?_, ih tail others⟩
    cases room with
    | zero => cases compiled
    | succ room => exact head room 0 e compiled

/-- The level of the node itself is open already. -/
theorem depth_le_of_compileFrom (t : Tree) :
    ∀ room hops e, compileFrom vocabulary limit room hops t = .ok e → e.depth ≤ room + 1 := by
  induction t using Tree.induction with
  | terminal kind text span =>
    intro room hops e h
    have few := few_of_compileFrom h
    rw [compileFrom_terminal few] at h
    split at h
    · cases h
    · rw [depth_of_compileTerminal h]
      omega
  | rule name children ih =>
    intro room hops e h
    have few := few_of_compileFrom h
    cases mapped : vocabulary.get? name with
    | none =>
      rw [compileFrom_transparent few mapped] at h
      split at h
      next only => exact ih only (List.mem_singleton.2 rfl) room (hops + 1) e h
      next => cases h
    | some c =>
      rw [compileFrom_construct few mapped] at h
      cases fits : c.parts children with
      | error misfit =>
        rw [fits] at h
        cases h
      | ok ts =>
        rw [fits] at h
        obtain ⟨es, compiled, assembled⟩ := bind_eq_ok.1 h
        cases assembled
        have below := depthAll_le_of_compileAll
          (fun t mem => ih t (Construct.mem_of_mem_parts fits t mem)) compiled
        exact Nat.le_trans (Construct.depth_assemble_le es) (Nat.succ_le_succ below)

/-- An expression is no deeper than the limit it was compiled within. -/
theorem depth_le_of_compile (h : t.compile vocabulary limit = .ok e) : e.depth ≤ limit := by
  cases limit with
  | zero => cases h
  | succ limit => exact depth_le_of_compileFrom t limit 0 e h

end Tree

section
variable {vocabulary : Vocabulary} {limit : Nat} {env : Environment} {t : Tree} {e : Expr}

/-- What compiles within a limit runs within it as it does without one. -/
theorem Tree.eval_eq_plain (compiled : t.compile vocabulary limit = .ok e) (env : Environment) :
    e.eval limit env = e.plain.on env :=
  Expr.eval_eq_plain (depth_le_of_compile compiled)

theorem eval_not_isDepth_of_compile {err : EvalError} (h : t.compile vocabulary limit = .ok e)
    (failed : (e.eval limit env).1 = .error err) : err.isDepth = false := by
  rw [Tree.eval_eq_plain h] at failed
  exact e.plain_shallow env err _ (Prod.ext failed rfl)

theorem Tree.execute_ne_depthExceeded (t : Tree) (limit n : Nat) (env : Environment) :
    (t.execute limit env).1 ≠ .error (.eval (.depthExceeded n)) := by
  intro failed
  unfold execute at failed
  split at failed
  · cases failed
  next e compiled =>
    obtain ⟨err, answer, eq⟩ := mapError_eq_error.1 failed
    have other := eval_not_isDepth_of_compile compiled answer
    cases eq
    cases other

theorem execute_ne_depthExceeded (start : Grammar.Start) (limit n : Nat) (source : String) :
    execute start limit source ≠ .error (.eval (.depthExceeded n)) := by
  intro failed
  obtain ⟨t, e, left, _, compiled, answer⟩ := execute_eq_eval_error_iff.1 failed
  have other := eval_not_isDepth_of_compile compiled (congrArg Prod.fst answer)
  cases other

end

/-- Of what compiles within a limit, no run within that limit fails for its depth, whatever the
tree, the vocabulary and the environment. So no depth error of the whole pipeline comes from
running. -/
theorem run_within_compile_limit (limit : Nat) :
    (∀ (vocabulary : Vocabulary) (t : Tree) (e : Expr) (env : Environment) (n : Nat),
      t.compile vocabulary limit = .ok e →
        ((Interpreter.new env limit).run e).1 ≠ .error (.depthExceeded n)) ∧
    (∀ (t : Tree) (env : Environment) (n : Nat),
      (t.execute limit env).1 ≠ .error (.eval (.depthExceeded n))) ∧
    ∀ (start : Grammar.Start) (source : String) (n : Nat),
      execute start limit source ≠ .error (.eval (.depthExceeded n)) := by
  refine ⟨?_, fun t env n => t.execute_ne_depthExceeded limit n env,
    fun start source n => execute_ne_depthExceeded start limit n source⟩
  intro vocabulary t e env n compiled failed
  rw [Interpreter.run_new] at failed
  have other := eval_not_isDepth_of_compile compiled failed
  cases other

/-- With a vocabulary of two names: three levels are enough for compiling and so for running, and
both run out of two. -/
theorem run_within_compile_limit_negations :
    ∃ e : Expr,
      (Tree.rule "neg" [.rule "wrap" [.rule "neg" [.terminal "num" "7" .unplaced]]]).compile
        (NameMap.ofList [("neg", .unary .negate), ("num", .int)]) 3 = .ok e ∧
      ((Interpreter.new .empty 3).run e).1 ≠ .error (.depthExceeded 3) ∧
      ((Interpreter.new .empty 2).run e).1 = .error (.depthExceeded 2) := by
  refine ⟨.unary .negate (.unary .negate (.literal (.int 7))), rfl, ?_, rfl⟩
  exact (run_within_compile_limit 3).1 (NameMap.ofList [("neg", .unary .negate), ("num", .int)])
    (.rule "neg" [.rule "wrap" [.rule "neg" [.terminal "num" "7" .unplaced]]]) _ _ _ rfl

end Reckon
