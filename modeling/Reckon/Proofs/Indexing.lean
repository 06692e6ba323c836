import Mathlib.Data.List.Forall2
import Reckon.Proofs.Footprint
import Reckon.Proofs.GuardedEvaluation

/-!
Indices as paths. A variable with indices that assign nothing yields what is reached from its value
by the integers that the indices evaluate to, each the number of an item of the list reached so far.
If it fails, then at the first step that cannot be taken, and the indices behind that step are not
evaluated.
-/

namespace Reckon

/-- From the first value the integers lead to the second one, each of them as the number of an item
of a list. -/
inductive Value.Leads : Value → List Int64 → Value → Prop where
  | here {v : Value} : Leads v [] v
  | item {items : List Value} {i : Int64} {path : List Int64} {v w : Value} (low : 0 ≤ i.toInt)
      (high : i.toInt < items.length) (found : items[i.toInt.toNat]? = some v)
      (rest : Leads v path w) : Leads (.list items) (i :: path) w

/-- Why the step from `base` by an index that has been evaluated cannot be taken. Of the causes that
apply it is the first one. -/
inductive Value.StepFails (base : Value) : Except EvalError Value → EvalError → Prop where
  | index {err : EvalError} : StepFails base (.error err) err
  | notInt {i : Value} (other : ∀ n, i ≠ .int n) :
      StepFails base (.ok i) (.typeMismatch .index .int i.kind)
  | noList {n : Int64} (other : ∀ items, base ≠ .list items) :
      StepFails base (.ok (.int n)) (.notIndexable base.kind)
  | range {n : Int64} {items : List Value} (list : base = .list items)
      (outside : n.toInt < 0 ∨ items.length ≤ n.toInt) :
      StepFails base (.ok (.int n)) (.indexOutOfRange n items.length)

namespace Value

variable {base i v w : Value} {path : List Int64} {n : Int64} {err : EvalError}

theorem index_int (items : List Value) (n : Int64) :
    (list items).index (int n) =
      match if 0 ≤ n.toInt then items[n.toInt.toNat]? else none with
      | some item => .ok item
      | none => .error (.indexOutOfRange n items.length) := rfl

theorem index_eq_ok_iff :
    base.index i = .ok v ↔ ∃ items n, base = .list items ∧ i = .int n ∧ 0 ≤ n.toInt ∧
      n.toInt < items.length ∧ items[n.toInt.toNat]? = some v := by
  constructor
  · intro found
    cases i with
    | int n =>
      cases base with
      | list items =>
        rw [index_int] at found
        split at found
        next item at_n =>
          cases found
          split at at_n
          next low =>
            have high := (List.getElem?_eq_some_iff.1 at_n).1
            exact ⟨items, n, rfl, rfl, low, by omega, at_n⟩
          next => cases at_n
        next => cases found
      | _ => cases found
    | _ => cases found
  · rintro ⟨items, n, rfl, rfl, low, _, found⟩
    rw [index_int, if_pos low, found]

theorem index_eq_error_iff : base.index i = .error err ↔ base.StepFails (.ok i) err := by
  constructor
  · intro failed
    cases i with
    | int n =>
      cases base with
      | list items =>
        rw [index_int] at failed
        split at failed
        next => cases failed
        next none =>
          cases failed
          refine .range rfl ?_
          split at none
          next low => exact .inr (by have := List.getElem?_eq_none_iff.1 none; omega)
          next low => exact .inl (by omega)
      | _ => cases failed; exact .noList nofun
    | _ => cases failed; exact .notInt nofun
  · intro fails
    cases fails with
    | notInt other =>
      cases i with
      | int n => exact absurd rfl (other n)
      | _ => rfl
    | noList other =>
      cases base with
      | list items => exact absurd rfl (other items)
      | _ => rfl
    | @range n items list outside =>
      subst list
      rw [index_int]
      split
      next item at_n =>
        split at at_n
        next low =>
          have := (List.getElem?_eq_some_iff.1 at_n).1
          omega
        next => cases at_n
      next => rfl

theorem leads_cons_iff :
    base.Leads (n :: path) w ↔ ∃ v, base.index (.int n) = .ok v ∧ v.Leads path w := by
  constructor
  · intro leads
    cases leads with
    | item low high found rest =>
      exact ⟨_, index_eq_ok_iff.2 ⟨_, n, rfl, rfl, low, high, found⟩, rest⟩
  · rintro ⟨v, step, rest⟩
    obtain ⟨items, _, rfl, ⟨⟩, low, high, found⟩ := index_eq_ok_iff.1 step
    exact .item low high found rest

end Value

namespace Expr

/-- The indices evaluate to these integers. -/
abbrev Evaluate (answer : Expr → Except EvalError Value) : List Expr → List Int64 → Prop :=
  List.Forall₂ fun e n => answer e = .ok (.int n)

/-- The steps before number `m` lead from `base` to a value from which that step cannot be taken. -/
def FailsAt (answer : Expr → Except EvalError Value) (base : Value) (indices : List Expr) (m : Nat)
    (err : EvalError) : Prop :=
  ∃ path reached index, Evaluate answer (indices.take m) path ∧ base.Leads path reached ∧
    indices[m]? = some index ∧ reached.StepFails (answer index) err

section
variable {limit room m : Nat} {env left : Environment} {base w : Value} {e : Expr}
  {es fs : List Expr}
  {answer : Expr → Except EvalError Value} {err : EvalError}

theorem failsAt_zero : FailsAt answer base (e :: es) 0 err ↔ base.StepFails (answer e) err := by
  constructor
  · rintro ⟨path, reached, index, ⟨⟩, ⟨⟩, ⟨⟩, fails⟩
    exact fails
  · intro fails
    exact ⟨[], base, e, .nil, .here, rfl, fails⟩

theorem failsAt_succ :
    FailsAt answer base (e :: es) (m + 1) err ↔
      ∃ n v, answer e = .ok (.int n) ∧ base.index (.int n) = .ok v ∧ FailsAt answer v es m err := by
  constructor
  · rintro ⟨_, reached, index, evaluated, leads, found, fails⟩
    cases evaluated with
    | cons head tail =>
      obtain ⟨v, step, rest⟩ := Value.leads_cons_iff.1 leads
      exact ⟨_, v, head, step, _, reached, index, tail, rest, found, fails⟩
  · rintro ⟨n, v, head, step, path, reached, index, tail, rest, found, fails⟩
    exact ⟨n :: path, reached, index, .cons head tail, Value.leads_cons_iff.2 ⟨v, step, rest⟩,
      found, fails⟩

/-- One step, of an index that leaves the environment as it is. -/
theorem followAll_cons (settled : (evalWithin limit room e).on env = (answer e, env)) :
    (followAll limit room base (e :: es)).on env =
      match answer e with
      | .error err => (.error err, env)
      | .ok i =>
        match base.index i with
        | .error err => (.error err, env)
        | .ok v => (followAll limit room v es).on env := by
  rw [followAll, Run.on_bind, settled]
  cases answer e with
  | error err => rfl
  | ok i =>
    rw [Yield.andThen, Run.on_bind, Run.on_liftExcept]
    dsimp only
    cases base.index i <;> rfl

theorem followAll_eq_ok_iff
    (settled : ∀ e ∈ es, (evalWithin limit room e).on env = (answer e, env)) :
    (followAll limit room base es).on env = (.ok w, env) ↔
      ∃ path, Evaluate answer es path ∧ base.Leads path w := by
  induction es generalizing base with
  | nil =>
    rw [followAll, Run.on_pure]
    constructor
    · rintro ⟨⟩
      exact ⟨[], .nil, .here⟩
    · rintro ⟨_, ⟨⟩, ⟨⟩⟩
      rfl
  | cons e es ih =>
    obtain ⟨head, tail⟩ := List.forall_mem_cons.1 settled
    rw [followAll_cons head]
    constructor
    · intro done
      split at done
      next => cases done
      next i evaluated =>
        split at done
        next => cases done
        next v step =>
          obtain ⟨path, evaluate, leads⟩ := (ih tail).1 done
          obtain ⟨_, n, _, rfl, _⟩ := Value.index_eq_ok_iff.1 step
          exact ⟨n :: path, .cons evaluated evaluate, Value.leads_cons_iff.2 ⟨v, step, leads⟩⟩
    · rintro ⟨_, evaluate, leads⟩
      cases evaluate with
      | cons evaluated evaluate =>
        obtain ⟨v, step, rest⟩ := Value.leads_cons_iff.1 leads
        simp only [evaluated, step]
        exact (ih tail).2 ⟨_, evaluate, rest⟩

theorem followAll_eq_error_iff
    (settled : ∀ e ∈ es, (evalWithin limit room e).on env = (answer e, env)) :
    (followAll limit room base es).on env = (.error err, env) ↔
      ∃ m, FailsAt answer base es m err := by
  induction es generalizing base with
  | nil =>
    rw [followAll, Run.on_pure]
    constructor
    · rintro ⟨⟩
    · rintro ⟨m, _, _, _, _, _, ⟨⟩, _⟩
  | cons e es ih =>
    obtain ⟨head, tail⟩ := List.forall_mem_cons.1 settled
    rw [followAll_cons head]
    constructor
    · intro failed
      split at failed
      next err evaluated =>
        cases failed
        exact ⟨0, failsAt_zero.2 (evaluated ▸ .index)⟩
      next i evaluated =>
        split at failed
        next err step =>
          cases failed
          exact ⟨0, failsAt_zero.2 (evaluated ▸ Value.index_eq_error_iff.1 step)⟩
        next v step =>
          obtain ⟨m, fails⟩ := (ih tail).1 failed
          obtain ⟨_, n, _, rfl, _⟩ := Value.index_eq_ok_iff.1 step
          exact ⟨m + 1, failsAt_succ.2 ⟨n, v, evaluated, step, fails⟩⟩
    · rintro ⟨m, fails⟩
      cases m with
      | zero =>
        have fails := failsAt_zero.1 fails
        cases evaluated : answer e with
        | error err' =>
          rw [evaluated] at fails
          cases fails
          rfl
        | ok i =>
          rw [evaluated] at fails
          simp only [Value.index_eq_error_iff.2 fails]
      | succ m =>
        obtain ⟨n, v, evaluated, step, fails⟩ := failsAt_succ.1 fails
        simp only [evaluated, step]
        exact (ih tail).2 ⟨m, fails⟩

theorem followAll_append :
    followAll limit room base (es ++ fs) =
      followAll limit room base es >>= fun v => followAll limit room v fs := by
  induction es generalizing base with
  | nil => simp [followAll]
  | cons e es ih =>
    simp only [List.cons_append, followAll, bind_assoc, ih]

/-- A step that fails is the last one of the steps up to it. -/
theorem FailsAt.take (fails : FailsAt answer base es m err) :
    FailsAt answer base (es.take (m + 1)) m err := by
  obtain ⟨path, reached, index, evaluate, leads, found, fails⟩ := fails
  refine ⟨path, reached, index, ?_, leads, ?_, fails⟩
  · rwa [List.take_take, Nat.min_eq_left (Nat.le_succ m)]
  · rwa [List.getElem?_take_of_lt (Nat.lt_succ_self m)]

/-- With enough levels left, an evaluation is as without a limit. -/
theorem evalWithin_eq_plain (enough : e.depth ≤ room) (inside : room ≤ limit) :
    (evalWithin limit room e).on env = e.plain.on env := by
  have levels : limit + 1 - room + room = limit + 1 := by omega
  apply (e.guards limit (limit + 1 - room) room env levels).within
  intro l mem
  have := e.visits_lt (limit + 1 - room) env l mem
  omega

end

end Expr

/-- What the expression evaluates to. -/
abbrev Expr.answer (limit : Nat) (env : Environment) (e : Expr) : Except EvalError Value :=
  (e.eval limit env).1

/-- Indexing is looking up a path. With enough levels, a variable with indices that assign nothing
leaves the environment as it is and yields a value exactly if the indices evaluate to integers that
lead to it; otherwise it fails at the first step that cannot be taken, whatever indices come behind
that step. -/
theorem indexing_follows_path (env : Environment) (name : String) (v : Value) (indices : List Expr)
    (limit : Nat) (bound : env.get? name = some v) (assignless : ∀ e ∈ indices, e.targets = [])
    (enough : (Expr.variable name indices).depth ≤ limit) :
    ((Expr.variable name indices).eval limit env).2 = env ∧
    (∀ w, (Expr.variable name indices).eval limit env = (.ok w, env) ↔
      ∃ path, Expr.Evaluate (Expr.answer limit env) indices path ∧ v.Leads path w) ∧
    (∀ err, (Expr.variable name indices).eval limit env = (.error err, env) ↔
      ∃ m, Expr.FailsAt (Expr.answer limit env) v indices m err) ∧
    ∀ m err, Expr.FailsAt (Expr.answer limit env) v indices m err → ∀ others,
      (Expr.variable name (indices.take (m + 1) ++ others)).eval limit env = (.error err, env) := by
  rw [Expr.depth] at enough
  obtain ⟨room, rfl⟩ : ∃ room, limit = room + 1 := ⟨limit - 1, by omega⟩
  have onPath (es : List Expr) : (Expr.variable name es).eval (room + 1) env =
      (Expr.followAll (room + 1) room v es).on env := by
    change (Expr.evalWithin (room + 1) (room + 1) (.variable name es)).on env = _
    rw [Expr.evalWithin, Run.on_get_bind, bound]
  have settled : ∀ e ∈ indices, (Expr.evalWithin (room + 1) room e).on env =
      (e.answer (room + 1) env, env) := by
    intro e mem
    have fits : e.depth ≤ room := by
      have := Expr.depth_le_depthAll mem
      omega
    have same : (Expr.evalWithin (room + 1) room e).on env = e.eval (room + 1) env := by
      rw [Expr.evalWithin_eq_plain fits (Nat.le_succ room), Expr.eval_eq_plain (by omega)]
    rw [same]
    exact Prod.ext rfl (Expr.eval_snd_of_targets_eq_nil (assignless e mem))
  have unassigned : (Expr.variable name indices).targets = [] := by
    rw [Expr.targets_eq]
    exact List.flatMap_eq_nil_iff.2 assignless
  refine ⟨Expr.eval_snd_of_targets_eq_nil unassigned, ?_, ?_, ?_⟩
  · intro w
    rw [onPath]
    exact Expr.followAll_eq_ok_iff settled
  · intro err
    rw [onPath]
    exact Expr.followAll_eq_error_iff settled
  · intro m err fails others
    have failed : (Expr.followAll (room + 1) room v (indices.take (m + 1))).on env =
        (.error err, env) :=
      (Expr.followAll_eq_error_iff fun e mem => settled e (List.mem_of_mem_take mem)).2
        ⟨m, fails.take⟩
    rw [onPath, Expr.followAll_append, Run.on_bind, failed]
    rfl

/-- The second step is from an integer, and the index behind it would fail in another way. -/
theorem indexing_follows_path_past_item :
    (NameMap.ofList [("a", Value.list [.int 5, .list [.int 6]])]).get? "a" =
      some (.list [.int 5, .list [.int 6]]) ∧
    (Expr.variable "a" [.literal (.int 0), .literal (.int (-1)), .variable "b" []]).eval 9
      (.ofList [("a", .list [.int 5, .list [.int 6]])]) =
      (.error (.notIndexable .int), .ofList [("a", .list [.int 5, .list [.int 6]])]) := by
  refine ⟨rfl, ?_⟩
  have follows := indexing_follows_path (.ofList [("a", .list [.int 5, .list [.int 6]])]) "a" _
    [.literal (.int 0), .literal (.int (-1)), .variable "b" []] 9 rfl (by simp; decide) (by decide)
  have fails : Expr.FailsAt (Expr.answer 9 (.ofList [("a", .list [.int 5, .list [.int 6]])]))
      (.list [.int 5, .list [.int 6]])
      [.literal (.int 0), .literal (.int (-1)), .variable "b" []] 1 (.notIndexable .int) :=
    ⟨[0], .int 5, .literal (.int (-1)), .cons rfl .nil, .item (by decide) (by decide) rfl .here,
      rfl, .noList nofun⟩
  exact (follows.2.2.1 _).2 ⟨1, fails⟩

end Reckon
