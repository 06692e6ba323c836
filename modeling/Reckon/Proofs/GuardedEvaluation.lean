import Reckon.Proofs.LevelCounting
import Reckon.Proofs.PlainEvaluation

/-!
Evaluation within a limit against evaluation without one. The two go step by step together until the
plain one comes to a node below the limit; there, and only there, the guarded one gives up. So a
limit of at least the depth changes nothing, and under a smaller limit no evaluation succeeds: it
fails for its depth unless it fails for another reason before it comes to a node below the limit.
-/

namespace Reckon

/-- Where nothing below the limit is visited the two are the same, and else the first one fails for
its depth. -/
structure Guarded (limit : Nat) (visited : List Nat) {α : Type} (x y : Yield α) : Prop where
  within : (∀ l ∈ visited, l ≤ limit) → x = y
  beyond : (∃ l ∈ visited, limit < l) → x.1 = .error (.depthExceeded limit)

namespace Guarded

variable {limit level : Nat} {visited : List Nat} {env : Environment} {α β : Type}

theorem same (x : Yield α) : Guarded limit [] x x where
  within _ := rfl
  beyond := by simp

theorem cons {x y : Yield α} (here : level ≤ limit) (h : Guarded limit visited x y) :
    Guarded limit (level :: visited) x y where
  within all := h.within (List.forall_mem_cons.1 all).2
  beyond := by
    rintro ⟨l, mem, deep⟩
    rcases List.mem_cons.1 mem with rfl | mem
    · omega
    · exact h.beyond ⟨l, mem, deep⟩

/-- A node below the limit is not entered. -/
theorem refused {y : Yield α} (deep : limit < level) :
    Guarded limit (level :: visited) (.error (.depthExceeded limit), env) y where
  within all := by
    have := all level List.mem_cons_self
    omega
  beyond _ := rfl

theorem bind {x y : Run α} {f g : α → Run β} {after : α → Environment → List Nat}
    (h : Guarded limit visited (x.on env) (y.on env))
    (next : ∀ a mid, Guarded limit (after a mid) ((f a).on mid) ((g a).on mid)) :
    Guarded limit (visited ++ (y.on env).visitsAfter after)
      (Run.on (x >>= f) env) (Run.on (y >>= g) env) where
  within all := by
    obtain ⟨here, there⟩ := List.forall_mem_append.1 all
    rw [Run.on_bind, Run.on_bind, h.within here]
    generalize y.on env = z at there
    obtain ⟨answer, mid⟩ := z
    cases answer with
    | ok a => exact (next a mid).within there
    | error e => rfl
  beyond := by
    rintro ⟨l, mem, deep⟩
    rw [Run.on_bind]
    by_cases here : ∀ l ∈ visited, l ≤ limit
    · -- The first part is as without a limit, so the node is met after it.
      have there := (List.mem_append.1 mem).resolve_left fun mem =>
        Nat.not_lt.2 (here l mem) deep
      obtain ⟨a, mid, done, mem⟩ := Yield.mem_visitsAfter.1 there
      rw [h.within here, done]
      exact (next a mid).beyond ⟨l, mem, deep⟩
    · have failed := h.beyond (by simpa using here)
      cases guarded : x.on env with
      | mk answer mid =>
        rw [guarded] at failed
        cases failed
        rfl

/-- What comes after visits nothing. -/
theorem map {x y : Run α} {f : α → Run β} (h : Guarded limit visited (x.on env) (y.on env)) :
    Guarded limit visited (Run.on (x >>= f) env) (Run.on (y >>= f) env) := by
  have all := h.bind fun a mid => same ((f a).on mid)
  have nothing : (y.on env).visitsAfter (fun _ _ => []) = [] := by
    cases y.on env with
    | mk answer mid => cases answer <;> rfl
  rwa [nothing, List.append_nil] at all

end Guarded

namespace Expr

/-- Evaluation within the limit is guarded, wherever the levels open and the levels left add up to
the limit. -/
def Guards (limit : Nat) (e : Expr) : Prop :=
  ∀ level room env, level + room = limit + 1 →
    Guarded limit (e.visits level env) ((e.evalWithin limit room).on env) (e.plain.on env)

section
variable {limit level room : Nat} {env : Environment} {last base : Value} {es : List Expr}

theorem runAll_guarded (h : ∀ e ∈ es, e.Guards limit) (levels : level + room = limit + 1) :
    Guarded limit (visitsAll level env es) ((runAll limit room last es).on env)
      ((plainAll last es).on env) := by
  induction es generalizing last env with
  | nil => exact .same _
  | cons e es ih =>
    obtain ⟨head, tail⟩ := List.forall_mem_cons.1 h
    exact (head level room env levels).bind fun _ _ => ih tail

theorem followAll_guarded (h : ∀ e ∈ es, e.Guards limit) (levels : level + room = limit + 1) :
    Guarded limit (visitsAlong level env base es) ((followAll limit room base es).on env)
      ((plainAlong base es).on env) := by
  induction es generalizing base env with
  | nil => exact .same _
  | cons e es ih =>
    obtain ⟨head, tail⟩ := List.forall_mem_cons.1 h
    refine (head level room env levels).bind fun i mid => ?_
    rw [Run.on_bind, Run.on_bind, Run.on_liftExcept]
    cases base.index i with
    | ok v => exact ih tail
    | error e => exact .same _

/-- The node itself is entered unless it stands below the limit. -/
theorem guards_of_parts {e : Expr}
    (parts : ∀ level room env, level + 1 + room = limit + 1 →
      Guarded limit (e.visits level env).tail ((e.evalWithin limit (room + 1)).on env)
        (e.plain.on env)) :
    e.Guards limit := by
  intro level room env levels
  obtain ⟨others, visited⟩ := exists_visits_eq_cons level env e
  cases room with
  | zero =>
    rw [visited, evalWithin, Run.on_throw]
    exact .refused (by omega)
  | succ room =>
    have below := parts level room env (by omega)
    rw [visited] at below ⊢
    exact below.cons (by omega)

theorem guards (limit : Nat) (e : Expr) : e.Guards limit := by
  induction e using induction with
  | program statements ih =>
    refine guards_of_parts fun level room env levels => ?_
    rw [evalWithin, plain, visits]
    exact runAll_guarded ih levels
  | assign name value ih | unary op value ih =>
    refine guards_of_parts fun level room env levels => ?_
    rw [evalWithin, plain, visits]
    exact (ih _ _ _ levels).map
  | «variable» name indices ih =>
    refine guards_of_parts fun level room env levels => ?_
    rw [evalWithin, plain, visits, Run.on_get_bind, Run.on_get_bind]
    cases env.get? name with
    | some base => exact followAll_guarded ih levels
    | none => exact .same _
  | literal l =>
    refine guards_of_parts fun level room env levels => ?_
    rw [evalWithin, plain, visits]
    exact .same _
  | binary op left right ihl ihr =>
    refine guards_of_parts fun level room env levels => ?_
    rw [evalWithin, plain, visits]
    exact (ihl _ _ _ levels).bind fun _ _ => (ihr _ _ _ levels).map

variable {e : Expr} {v : Value} {err : EvalError}

theorem eval_guarded (limit : Nat) (e : Expr) (env : Environment) :
    Guarded limit (e.visits 1 env) (e.eval limit env) (e.plain.on env) :=
  e.guards limit 1 limit env (Nat.add_comm 1 limit)

/-- A limit of at least the depth is no limit. -/
theorem eval_eq_plain (enough : e.depth ≤ limit) : e.eval limit env = e.plain.on env := by
  apply (eval_guarded limit e env).within
  intro l mem
  have := e.visits_lt 1 env l mem
  omega

theorem eval_eq_ok_iff :
    (∃ v, (e.eval limit env).1 = .ok v) ↔ e.depth ≤ limit ∧ ∃ v, (e.plain.on env).1 = .ok v := by
  have guarded := eval_guarded limit e env
  constructor
  · rintro ⟨v, done⟩
    have within : ∀ l ∈ e.visits 1 env, l ≤ limit := by
      intro l mem
      apply Nat.not_lt.1
      intro deep
      rw [guarded.beyond ⟨l, mem, deep⟩] at done
      cases done
    rw [guarded.within within] at done
    have covered := e.depth_le_of_plain 1 limit env v (e.plain.on env).2 (Prod.ext done rfl) within
    exact ⟨by omega, v, done⟩
  · rintro ⟨enough, v, done⟩
    exact ⟨v, by rw [eval_eq_plain enough, done]⟩

/-- Plain evaluation fails, and it does so before it comes to a node below the limit. -/
def FailsWithin (limit : Nat) (e : Expr) (env : Environment) (err : EvalError) : Prop :=
  (e.plain.on env).1 = .error err ∧ ∀ l ∈ e.visits 1 env, l ≤ limit

end
end Expr

/-- Evaluation within a limit is plain evaluation if the depth is within the limit. If not, it never
succeeds: it fails with the error plain evaluation fails with, when that is met before a node below
the limit, and with the depth error otherwise. It is what an interpreter does that counts the levels
itself, and that has closed all of them afterwards. -/
theorem eval_agrees_with_plain (e : Expr) (env : Environment) (limit : Nat) :
    (Interpreter.new env limit).run e =
      ((e.eval limit env).1, Interpreter.new (e.eval limit env).2 limit) ∧
    (e.depth ≤ limit → e.eval limit env = e.plain.on env) ∧
    (limit < e.depth →
      (∀ v, (e.eval limit env).1 ≠ .ok v) ∧
      (∀ err, e.FailsWithin limit env err → e.eval limit env = (.error err, (e.plain.on env).2)) ∧
      ((¬∃ err, e.FailsWithin limit env err) →
        (e.eval limit env).1 = .error (.depthExceeded limit))) ∧
    ((∃ v, (e.eval limit env).1 = .ok v) ↔ e.depth ≤ limit ∧ ∃ v, (e.plain.on env).1 = .ok v) := by
  have guarded := e.eval_guarded limit env
  refine ⟨Interpreter.run_new env limit e, Expr.eval_eq_plain, ?_, Expr.eval_eq_ok_iff⟩
  intro deep
  have never : ∀ v, (e.eval limit env).1 ≠ .ok v := by
    intro v done
    have enough := (Expr.eval_eq_ok_iff.1 ⟨v, done⟩).1
    omega
  refine ⟨never, ?_, ?_⟩
  · rintro err ⟨failed, within⟩
    rw [guarded.within within]
    exact Prod.ext failed rfl
  · intro noEarlier
    by_cases within : ∀ l ∈ e.visits 1 env, l ≤ limit
    · cases answer : (e.plain.on env).1 with
      | ok v => exact absurd (guarded.within within ▸ answer) (never v)
      | error err => exact absurd ⟨err, answer, within⟩ noEarlier
    · exact guarded.beyond (by simpa using within)

/-- Of an operand that is nested too deeply and one that fails, the left one decides. -/
theorem eval_agrees_with_plain_first :
    ((Interpreter.new .empty 3).run (.binary (.logic .or) (.unary .not (.literal (.int 1)))
      (.unary .not (.unary .not (.literal (.bool true)))))).1 =
        .error (.typeMismatch (.unary .not) .bool .int) ∧
    ((Interpreter.new .empty 3).run (.binary (.logic .or)
      (.unary .not (.unary .not (.literal (.bool true))))
      (.unary .not (.literal (.int 1))))).1 = .error (.depthExceeded 3) := by
  constructor
  · obtain ⟨run, _, deep, _⟩ := eval_agrees_with_plain (.binary (.logic .or)
      (.unary .not (.literal (.int 1))) (.unary .not (.unary .not (.literal (.bool true)))))
      .empty 3
    have failed := (deep (by decide)).2.1 (.typeMismatch (.unary .not) .bool .int)
      ⟨rfl, by decide⟩
    rw [run]
    exact congrArg Prod.fst failed
  · obtain ⟨run, _, deep, _⟩ := eval_agrees_with_plain (.binary (.logic .or)
      (.unary .not (.unary .not (.literal (.bool true)))) (.unary .not (.literal (.int 1))))
      .empty 3
    rw [run]
    refine (deep (by decide)).2.2 ?_
    rintro ⟨err, _, within⟩
    exact absurd (within 4 (by decide)) (by decide)

end Reckon
