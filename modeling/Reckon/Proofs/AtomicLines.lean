import Reckon.Proofs.EvaluationDepth
import Reckon.Proofs.Joining
import Reckon.Proofs.Programs
import Reckon.Proofs.RaisedLimit

/-!
Lines are done or not done. The grammar has assignments only as whole lines, so what is read as an
expression compiles to an expression that assigns nothing, and a line stores at most once, when
nothing in it can fail any more. A program that fails has run the lines before the failing one, and
the failing one has left no trace.
-/

namespace Reckon

namespace Grammar

/-- The rules that are not expressions or parts of one. -/
def statementRules : List Rule := [.block, .line, .assignVar]

/-- No rule leads back to statements. -/
theorem uses_body {r : Rule} (expression : r ∉ statementRules) :
    r.body.uses (fun _ => true) (fun s => s ∉ statementRules) := by
  cases r with
  | block | line | assignVar => exact absurd (by decide) expression
  | _ => rfl

/-- What a tree compiles to assigns nothing. -/
def Assignless (r : Rule) (t : Tree) : Prop :=
  ∀ limit room hops e, hops ≤ r.rung → compileAt limit room hops t = .ok e → e.targets = []

theorem Assignless.part {r : Rule} {t : Tree} (h : Assignless r t) {limit room : Nat} {e : Expr}
    (compiled : compilePart limit room t = .ok e) : e.targets = [] := by
  obtain ⟨below, _, compiled⟩ := Tree.descend_eq_ok.1 compiled
  exact h limit below 0 e (Nat.zero_le _) compiled

/-- Expressions compile to expressions that assign nothing: only `assignVar` makes assignments. -/
theorem Derives.assignless {r : Rule} {ts : List Token} {t : Tree} (h : Derives r ts t)
    (expression : r ∉ statementRules) : Assignless r t := by
  intro limit room hops e few compiled
  have made := h.makes_nodes (fun r => r ∉ statementRules)
    (fun r inside => uses_body (of_decide_eq_true inside)) few compiled
    (decide_eq_true expression)
  refine List.filterMap_eq_nil_iff.2 fun part mem => ?_
  cases part with
  | assign name value =>
    obtain ⟨s, inside, construct⟩ := made _ mem _ rfl
    have only : s = .assignVar := by cases s <;> first | rfl | cases construct
    exact absurd (only ▸ of_decide_eq_true inside) (by decide)
  | _ => rfl

end Grammar

namespace Expr

section
variable {env left : Environment} {e : Expr} {err : EvalError}

/-- What a line compiles to: an expression that assigns nothing, or one stored under a name. -/
inductive IsStatement : Expr → Prop where
  | expression {e : Expr} (none : e.targets = []) : IsStatement e
  | assign {name : String} {value : Expr} (none : value.targets = []) :
      IsStatement (.assign name value)

theorem plain_snd_of_targets_eq_nil (none : e.targets = []) : (e.plain.on env).2 = env := by
  rw [← eval_eq_plain (Nat.le_refl e.depth)]
  exact eval_snd_of_targets_eq_nil none

/-- A statement that fails has stored nothing. -/
theorem IsStatement.eq_of_error (h : e.IsStatement)
    (failed : e.plain.on env = (.error err, left)) : left = env := by
  have unchanged {value : Expr} (none : value.targets = [])
      (failed : value.plain.on env = (.error err, left)) : left = env := by
    have kept : (value.plain.on env).2 = env := plain_snd_of_targets_eq_nil none
    rw [← kept, failed]
  cases h with
  | expression none => exact unchanged none failed
  | assign none =>
    rw [plain] at failed
    obtain failed | ⟨v, mid, _, stored⟩ := Run.on_bind_eq_error.1 failed
    · exact unchanged none failed
    · cases stored

end

end Expr

namespace Grammar

section
variable {limit room : Nat} {ts : List Token} {t : Tree} {e : Expr} {lines : List Tree}

theorem Derives.isStatement (h : Derives .line ts t) (compiled : compilePart limit room t = .ok e) :
    e.IsStatement := by
  obtain ⟨below, _, compiled⟩ := Tree.descend_eq_ok.1 compiled
  obtain ⟨u, assign | expression, rfl⟩ := derives_line.1 h
  all_goals rw [compileAt_transparent rfl (Nat.zero_le _)] at compiled
  · obtain ⟨name, sign, us, v, _, _, hv, rfl, rfl⟩ := derives_assignVar.1 assign
    rw [compileAt_assignVar (by decide)] at compiled
    obtain ⟨value, part, ⟨⟩⟩ := bind_eq_ok.1 compiled
    exact .assign ((hv.assignless (by decide)).part part)
  · exact .expression (expression.assignless (by decide) limit below 1 e (by decide) compiled)

/-- The first line that fails, the lines before it, and what they leave. -/
theorem exists_failing_line {es : List Expr} {last : Value} {env left : Environment}
    {err : EvalError} (derived : ∀ l ∈ lines, ∃ ts, Derives .line ts l)
    (compiled : Tree.compileAll .standard limit room lines = .ok es)
    (failed : (Expr.plainAll last es).on env = (.error err, left)) :
    ∃ k line before e, lines[k]? = some line ∧
      Tree.compileAll .standard limit room (lines.take k) = .ok before ∧
      (∃ v, (Expr.plainAll last before).on env = (.ok v, left)) ∧
      compilePart limit room line = .ok e ∧ e.plain.on left = (.error err, left) := by
  induction lines generalizing es last env with
  | nil =>
    cases compiled
    cases failed
  | cons line lines ih =>
    obtain ⟨⟨_, head⟩, tail⟩ := List.forall_mem_cons.1 derived
    rw [compileAll_cons] at compiled
    obtain ⟨e, first, compiled⟩ := bind_eq_ok.1 compiled
    obtain ⟨es, others, ⟨⟩⟩ := bind_eq_ok.1 compiled
    rw [Expr.plainAll] at failed
    obtain failed | ⟨v, mid, done, failed⟩ := Run.on_bind_eq_error.1 failed
    · obtain rfl := (head.isStatement first).eq_of_error failed
      exact ⟨0, line, [], e, rfl, rfl, ⟨last, rfl⟩, first, failed⟩
    · obtain ⟨k, found, before, e', at_k, compiled, ⟨w, ran⟩, part, failed⟩ :=
        ih tail others failed
      refine ⟨k + 1, found, e :: before, e', at_k, ?_, ⟨w, ?_⟩, part, failed⟩
      · rw [List.take_succ_cons, compileAll_cons, first, ok_bind, compiled]
        rfl
      · rw [Expr.plainAll, Run.on_bind, done]
        exact ran

end

end Grammar

open Grammar

section
variable {limit : Nat} {env : Environment} {t : Tree} {e : Expr}

theorem Tree.execute_eq_plain (compiled : t.compile .standard limit = .ok e) :
    t.execute limit env = ((e.plain.on env).1.mapError .eval, (e.plain.on env).2) := by
  rw [execute, compiled, ← eval_eq_plain compiled]

/-- What compiles as a part compiles by itself. -/
theorem Grammar.compile_of_compilePart {room : Nat} (le : room ≤ limit)
    (h : compilePart limit room t = .ok e) : t.compile .standard limit = .ok e := by
  have same : SameUnless CompileError.isDepth (compilePart limit room t)
      (t.compile .standard limit) :=
    Tree.descend_extends le (t.compilesOn .standard limit limit 0)
  rw [h] at same
  exact same.eq nofun

theorem Tree.execute_eq_error_iff {err : EvalError} {left : Environment} :
    t.execute limit env = (.error (.eval err), left) ↔
      ∃ e, t.compile .standard limit = .ok e ∧ e.plain.on env = (.error err, left) := by
  cases compiled : t.compile .standard limit with
  | error e => simp [execute, compiled]
  | ok e => simp [execute_eq_plain compiled, Prod.ext_iff, mapError_eq_error]

/-- Expressions are pure. -/
theorem Grammar.Derives.execute_snd {r : Rule} {ts : List Token} (h : Derives r ts t)
    (expression : r ∉ statementRules) : (t.execute limit env).2 = env := by
  cases compiled : t.compile .standard limit with
  | error e => simp [Tree.execute, compiled]
  | ok e =>
    rw [Tree.execute_eq_plain compiled]
    exact Expr.plain_snd_of_targets_eq_nil ((h.assignless expression).part compiled)

theorem Grammar.execute_block_failed {lines : List Tree} {err : EvalError} {left : Environment}
    (derived : ∀ l ∈ lines, ∃ ts, Derives .line ts l)
    (failed : (Rule.block.node lines).execute limit env = (.error (.eval err), left)) :
    ∃ k line, lines[k]? = some line ∧
      (∃ v, (Rule.block.node (lines.take k)).execute limit env = (.ok v, left)) ∧
      line.execute limit left = (.error (.eval err), left) ∧
      (Rule.block.node [line]).execute limit left = (.error (.eval err), left) := by
  obtain ⟨program, compiled, failed⟩ := Tree.execute_eq_error_iff.1 failed
  obtain ⟨room, es, rfl, compiledAll, rfl⟩ := compile_block.1 compiled
  rw [Expr.plain] at failed
  obtain ⟨k, line, before, e, found, first, ⟨v, ran⟩, part, failed⟩ :=
    exists_failing_line derived compiledAll failed
  refine ⟨k, line, found, ⟨v, ?_⟩, ?_, ?_⟩
  · rw [Tree.execute_eq_plain (compile_block.2 ⟨room, before, rfl, first, rfl⟩), Expr.plain, ran]
    rfl
  · exact Tree.execute_eq_error_iff.2
      ⟨e, compile_of_compilePart (Nat.le_succ room) part, failed⟩
  · have single : Tree.compileAll .standard (room + 1) room [line] = .ok [e] := by
      rw [compileAll_cons, part]
      rfl
    refine Tree.execute_eq_error_iff.2
      ⟨.program [e], compile_block.2 ⟨room, [e], rfl, single, rfl⟩, ?_⟩
    rw [Expr.plain, Expr.plainAll, Run.on_bind, failed]
    rfl

end

/-- A failure is atomic per line. Running what is read as an expression leaves the environment as it
is, whether it succeeds or fails. When a program fails while it runs, the program of the lines
before the failing one succeeds and leaves the same environment, and on that the failing line fails
by itself in the same way and changes nothing. A tree that does not compile changes nothing. -/
theorem failure_atomic (source : String) (depth limit : Nat) (env : Environment) :
    (∀ start t, start = .expression ∨ start = .arith → parse source start depth = .ok t →
      (t.execute limit env).2 = env) ∧
    (∀ t err left, parse source .program depth = .ok t →
      t.execute limit env = (.error (.eval err), left) →
      ∃ k line, t.children[k]? = some line ∧
        (∃ v, (Rule.block.node (t.children.take k)).execute limit env = (.ok v, left)) ∧
        line.execute limit left = (.error (.eval err), left) ∧
        (Rule.block.node [line]).execute limit left = (.error (.eval err), left)) ∧
    ∀ (t : Tree) err left, t.execute limit env = (.error (.compile err), left) → left = env := by
  refine ⟨?_, ?_, ?_⟩
  · intro start t which read
    obtain ⟨toks, _, derived, _⟩ := parse_eq_ok_iff.1 read
    rcases which with rfl | rfl <;> exact derived.execute_snd (by decide)
  · intro t err left read failed
    obtain ⟨toks, lines, _, found, _, rfl⟩ := parse_program_eq_ok_iff.1 read
    exact execute_block_failed found.lines failed
  · intro t err left failed
    cases compiled : t.compile .standard limit with
    | error e =>
      rw [Tree.execute, compiled] at failed
      exact (congrArg Prod.snd failed).symm
    | ok e =>
      rw [Tree.execute_eq_plain compiled] at failed
      obtain ⟨_, _, other⟩ := mapError_eq_error.1 (congrArg Prod.fst failed)
      cases other

/-- The second of three lines fails. -/
theorem failure_atomic_undefined :
    ∃ t left k line, parse "a = 1\nb = a + c\nc = 3" .program 4 = .ok t ∧
      t.execute 9 .empty = (.error (.eval (.undefinedVariable "c")), left) ∧
      left.toList = [("a", .int 1)] ∧ t.children[k]? = some line ∧
      (∃ v, (Rule.block.node (t.children.take k)).execute 9 .empty = (.ok v, left)) ∧
      line.execute 9 left = (.error (.eval (.undefinedVariable "c")), left) := by
  have compiled : ∃ t, parse "a = 1\nb = a + c\nc = 3" .program 4 = .ok t ∧
      t.compile .standard 9 = .ok (.program
        [.assign "a" (.literal (.int 1)),
          .assign "b" (.binary (.ring .add) (.variable "a" []) (.variable "c" [])),
          .assign "c" (.literal (.int 3))]) := ⟨_, rfl, rfl⟩
  obtain ⟨t, read, compiled⟩ := compiled
  have failed : ∃ left, left.toList = [("a", .int 1)] ∧
      t.execute 9 .empty = (.error (.eval (.undefinedVariable "c")), left) :=
    ⟨_, rfl, Tree.execute_eq_error_iff.2 ⟨_, compiled, rfl⟩⟩
  obtain ⟨left, stored, failed⟩ := failed
  obtain ⟨k, line, found, ran, alone, _⟩ :=
    (failure_atomic "a = 1\nb = a + c\nc = 3" 4 9 .empty).2.1 t _ _ read failed
  exact ⟨t, left, k, line, read, failed, stored, found, ran, alone⟩

end Reckon
