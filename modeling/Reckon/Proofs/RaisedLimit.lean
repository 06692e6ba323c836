import Reckon.Command
import Reckon.Proofs.Constructs
import Reckon.Proofs.GuardedEvaluation
import Reckon.Proofs.MoreRoom

/-!
Raising the limit changes nothing but depth errors. Each stage on its own has this property, and so
has the whole way from a source text to the environment that is left: if it does not end in a depth
error, it is the same under every greater limit, with every tree, program and error on the way.
-/

namespace Reckon

def SyntaxError.isDepth : SyntaxError → Bool
  | .nestingTooDeep _ _ => true
  | _ => false

def CompileError.isDepth : CompileError → Bool
  | .depthExceeded _ => true
  | _ => false

theorem SameUnless.mapError {ε δ α : Type} {deep : ε → Bool} {deep' : δ → Bool}
    {x y : Except ε α} {g g' : ε → δ} (h : SameUnless deep x y)
    (kept : ∀ e, deep e → deep' (g e)) (agree : ∀ e, deep e = false → g' e = g e) :
    SameUnless deep' (x.mapError g) (y.mapError g') := by
  cases h with
  | deep h => exact .deep (kept _ h)
  | same =>
    cases x with
    | ok a => exact .same
    | error e =>
      cases shallow : deep e with
      | true => exact .deep (kept e shallow)
      | false =>
        rw [mapError_error, mapError_error, agree e shallow]
        exact .same

theorem parse_extends {source : String} {start : Grammar.Start} {limit limit' : Nat}
    (le : limit ≤ limit') :
    SameUnless SyntaxError.isDepth (parse source start limit) (parse source start limit') := by
  refine SameUnless.same.bind fun toks => (Grammar.parseTokens_extends le).mapError ?_ ?_
  · intro refusal deep
    match refusal with
    | .tooDeep [] | .tooDeep (_ :: _) => rfl
  · intro refusal shallow
    match refusal with
    | .unexpected _ [] | .unexpected _ (_ :: _) => rfl

namespace Tree

section
variable {vocabulary : Vocabulary} {limit limit' room room' : Nat} {ts : List Tree}

theorem descend_extends {k k' : Nat → Except CompileError Expr} (le : room ≤ room')
    (h : ∀ room room', room ≤ room' → SameUnless CompileError.isDepth (k room) (k' room')) :
    SameUnless CompileError.isDepth (descend limit room k) (descend limit' room' k') := by
  cases room with
  | zero => exact .deep rfl
  | succ room =>
    obtain ⟨room', rfl⟩ : ∃ r, room' = r + 1 := ⟨room' - 1, by omega⟩
    exact h room room' (Nat.le_of_succ_le_succ le)

/-- Compiling with more room is the same, unless the room is not enough. -/
def CompilesOn (vocabulary : Vocabulary) (limit limit' : Nat) (t : Tree) : Prop :=
  ∀ hops room room', room ≤ room' →
    SameUnless CompileError.isDepth (t.compileFrom vocabulary limit room hops)
      (t.compileFrom vocabulary limit' room' hops)

theorem compileAll_extends (h : ∀ t ∈ ts, t.CompilesOn vocabulary limit limit')
    (le : room ≤ room') :
    SameUnless CompileError.isDepth (compileAll vocabulary limit room ts)
      (compileAll vocabulary limit' room' ts) := by
  induction ts with
  | nil =>
    rw [compileAll, compileAll]
    exact .same
  | cons t ts ih =>
    obtain ⟨head, tail⟩ := List.forall_mem_cons.1 h
    rw [compileAll, compileAll]
    exact (descend_extends le (head 0)).bind fun _ => (ih tail).map

theorem compilesOn (vocabulary : Vocabulary) (limit limit' : Nat) (t : Tree) :
    t.CompilesOn vocabulary limit limit' := by
  induction t using Tree.induction with
  | terminal kind text span =>
    intro hops room room' _
    rw [compileFrom, compileFrom]
    exact .same
  | rule name children ih =>
    intro hops room room' le
    rcases Nat.lt_or_ge maxPassThrough hops with many | few
    · rw [compileFrom_of_many many, compileFrom_of_many many]
      exact .same
    cases mapped : vocabulary.get? name with
    | none =>
      rw [compileFrom_transparent few mapped, compileFrom_transparent few mapped]
      split
      next only => exact ih only (List.mem_singleton.2 rfl) (hops + 1) room room' le
      next => exact .same
    | some c =>
      rw [compileFrom_construct few mapped, compileFrom_construct few mapped]
      cases fits : c.parts children with
      | error misfit => exact .same
      | ok ts =>
        exact (compileAll_extends
          (fun t mem => ih t (Construct.mem_of_mem_parts fits t mem)) le).map

theorem compile_extends (t : Tree) (le : limit ≤ limit') :
    SameUnless CompileError.isDepth (t.compile vocabulary limit) (t.compile vocabulary limit') :=
  descend_extends le (t.compilesOn vocabulary limit limit' 0)

end

end Tree

/-- A run that has not failed for its depth is the plain run, and so is the one with more levels. -/
theorem Expr.eval_of_le {limit limit' : Nat} {e : Expr} {env : Environment} (le : limit ≤ limit')
    (shallow : ∀ err, (e.eval limit env).1 = .error err → err.isDepth = false) :
    e.eval limit' env = e.eval limit env := by
  have within : ∀ l ∈ e.visits 1 env, l ≤ limit := by
    intro l mem
    apply Nat.not_lt.1
    intro deep
    have := shallow _ ((e.eval_guarded limit env).beyond ⟨l, mem, deep⟩)
    cases this
  rw [(e.eval_guarded limit env).within within]
  exact (e.eval_guarded limit' env).within fun l mem => Nat.le_trans (within l mem) le

/-- What every stage yields on a source text, up to the stage that fails. -/
inductive Transcript where
  | unread (error : SyntaxError)
  | uncompiled (tree : Tree) (error : CompileError)
  | ran (tree : Tree) (program : Expr) (nodes : Nat) (answer : Except EvalError Value)
    (left : Environment)

/-- Reads a source text, compiles the tree and runs the program on `env`, with one limit for all. -/
def transcript (start : Grammar.Start) (limit : Nat) (source : String) (env : Environment) :
    Transcript :=
  match parse source start limit with
  | .error e => .unread e
  | .ok tree =>
    match tree.compile .standard limit with
    | .error e => .uncompiled tree e
    | .ok program =>
      .ran tree program program.count (program.eval limit env).1 (program.eval limit env).2

namespace Transcript

/-- One of the stages has run out of levels. -/
def isDepth : Transcript → Bool
  | .unread e => e.isDepth
  | .uncompiled _ e => e.isDepth
  | .ran _ _ _ (.error e) _ => e.isDepth
  | .ran _ _ _ (.ok _) _ => false

/-- What is shown of it. -/
def outcome : Transcript → Except Failure Outcome
  | .unread e => .error (.parse e)
  | .uncompiled _ e => .error (.compile e)
  | .ran _ _ _ (.error e) _ => .error (.eval e)
  | .ran _ _ nodes (.ok value) left => .ok ⟨value, left, nodes⟩

end Transcript

theorem execute_eq_outcome (start : Grammar.Start) (limit : Nat) (source : String) :
    execute start limit source = (transcript start limit source .empty).outcome := by
  unfold execute transcript
  cases parse source start limit with
  | error e => rfl
  | ok tree =>
    rw [mapError_ok, ok_bind]
    dsimp only
    cases tree.compile .standard limit with
    | error e => rfl
    | ok program =>
      rw [mapError_ok, ok_bind]
      dsimp only
      cases program.eval limit .empty with
      | mk answer left => cases answer <;> rfl

theorem transcript_eq_of_le {source : String} {start : Grammar.Start} {env : Environment}
    {limit limit' : Nat} (le : limit ≤ limit')
    (shallow : (transcript start limit source env).isDepth = false) :
    transcript start limit' source env = transcript start limit source env := by
  have reads : SameUnless SyntaxError.isDepth (parse source start limit)
      (parse source start limit') := parse_extends le
  unfold transcript at shallow ⊢
  cases read : parse source start limit with
  | error e =>
    rw [read] at reads shallow
    rw [reads.eq fun _ eq => Except.error.inj eq ▸ shallow]
  | ok tree =>
    have compiles : SameUnless CompileError.isDepth (tree.compile .standard limit)
        (tree.compile .standard limit') := tree.compile_extends le
    rw [read] at reads shallow
    rw [reads.eq nofun]
    dsimp only at shallow ⊢
    cases compiled : tree.compile .standard limit with
    | error e =>
      rw [compiled] at compiles shallow
      rw [compiles.eq fun _ eq => Except.error.inj eq ▸ shallow]
    | ok program =>
      rw [compiled] at compiles shallow
      rw [compiles.eq nofun]
      dsimp only at shallow ⊢
      have same : program.eval limit' env = program.eval limit env := by
        refine Expr.eval_of_le le fun err failed => ?_
        rw [failed] at shallow
        exact shallow
      rw [same]

/-- What does not end in a depth error under one limit ends in the same way under every greater one:
with the same tree, the same program of as many nodes, the same value or error, and the same
environment. -/
theorem transcript_of_limit_le (source : String) (start : Grammar.Start) (env : Environment)
    (limit limit' : Nat) (le : limit ≤ limit')
    (shallow : (transcript start limit source env).isDepth = false) :
    transcript start limit' source env = transcript start limit source env ∧
      (env = .empty → execute start limit' source = execute start limit source) := by
  have same := transcript_eq_of_le le shallow
  refine ⟨same, ?_⟩
  rintro rfl
  rw [execute_eq_outcome, execute_eq_outcome, same]

theorem transcript_of_limit_le_undefined :
    (transcript .program 3 "x = 1\ny = z" .empty).isDepth = false ∧
      transcript .program 100 "x = 1\ny = z" .empty =
        transcript .program 3 "x = 1\ny = z" .empty ∧
      execute .program 100 "x = 1\ny = z" = execute .program 3 "x = 1\ny = z" := by
  have shallow : (transcript .program 3 "x = 1\ny = z" .empty).isDepth = false := by
    decide +kernel
  obtain ⟨same, shown⟩ :=
    transcript_of_limit_le "x = 1\ny = z" .program .empty 3 100 (by decide) shallow
  exact ⟨shallow, same, shown rfl⟩

end Reckon
