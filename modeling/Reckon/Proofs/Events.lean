import Reckon.Proofs.Failures
import Reckon.Proofs.Nesting
import Reckon.Proofs.Runs

/-!
What a run comes to: the nodes it enters, the names it looks up and stores, and the operators and
index steps it applies, in order. The last one of a run that fails is the one it fails at.
-/

namespace Reckon

/-- What evaluation comes to, and may fail at. -/
inductive Event where
  /-- A node. -/
  | enter
  | lookUp (name : String)
  | store (name : String)
  /-- An operator or an index step, its operands evaluated. -/
  | apply (place : Place)
deriving DecidableEq

/-- The errors that are raised where a run comes to an event. -/
inductive Event.Raises : Event → EvalError → Prop where
  | depth (limit : Nat) : Raises .enter (.depthExceeded limit)
  | unbound (name : String) : Raises (.lookUp name) (.undefinedVariable name)
  | mismatch (place : Place) (expected : Expected) (found : Kind) :
    Raises (.apply place) (.typeMismatch place expected found)
  | overflow (op : RingOp) : Raises (.apply (.binary (.ring op))) (.integerOverflow (.ring op))
  | negation : Raises (.apply (.unary .negate)) (.integerOverflow .negate)
  | zero : Raises (.apply (.binary .divide)) .divisionByZero
  | noList (found : Kind) : Raises (.apply .index) (.notIndexable found)
  | range (index : Int64) (length : Nat) : Raises (.apply .index) (.indexOutOfRange index length)

/-- What a run is followed by, if it succeeds. -/
def Yield.eventsAfter (x : Yield Value) (f : Value → Environment → List Event) : List Event :=
  match x with
  | (.ok v, left) => f v left
  | (.error _, _) => []

namespace Expr

mutual

/-- What evaluation with `room` out of `limit` levels comes to on `env`, in order; where it fails,
the last one is what it fails at. -/
def eventsWithin (limit : Nat) : (room : Nat) → Expr → Environment → List Event
  | 0, _, _ => [.enter]
  | room + 1, .program statements, env => .enter :: eventsAll limit room statements env
  | room + 1, .assign name value, env =>
    .enter :: (eventsWithin limit room value env
      ++ ((evalWithin limit room value).on env).eventsAfter fun _ _ => [.store name])
  | room + 1, .variable name indices, env =>
    .enter :: .lookUp name ::
      match env.get? name with
      | some base => eventsAlong limit room base indices env
      | none => []
  | _ + 1, .literal _, _ => [.enter]
  | room + 1, .unary op operand, env =>
    .enter :: (eventsWithin limit room operand env
      ++ ((evalWithin limit room operand).on env).eventsAfter fun _ _ => [.apply (.unary op)])
  | room + 1, .binary op left right, env =>
    .enter :: (eventsWithin limit room left env
      ++ ((evalWithin limit room left).on env).eventsAfter fun _ env =>
        eventsWithin limit room right env
          ++ ((evalWithin limit room right).on env).eventsAfter fun _ _ => [.apply (.binary op)])

def eventsAll (limit room : Nat) : List Expr → Environment → List Event
  | [], _ => []
  | e :: es, env =>
    eventsWithin limit room e env
      ++ ((evalWithin limit room e).on env).eventsAfter fun _ env => eventsAll limit room es env

def eventsAlong (limit room : Nat) (base : Value) : List Expr → Environment → List Event
  | [], _ => []
  | e :: es, env =>
    eventsWithin limit room e env
      ++ ((evalWithin limit room e).on env).eventsAfter fun i env =>
        .apply .index ::
          match base.index i with
          | .ok v => eventsAlong limit room v es env
          | .error _ => []

end

/-- What running `e` on `env` with at most `limit` levels open comes to. -/
def events (limit : Nat) (e : Expr) (env : Environment) : List Event :=
  eventsWithin limit limit e env

theorem eventsWithin_ne_nil (limit room : Nat) (e : Expr) (env : Environment) :
    eventsWithin limit room e env ≠ [] := by
  cases room with
  | zero =>
    rw [eventsWithin]
    exact List.cons_ne_nil _ _
  | succ room => cases e <;> exact List.cons_ne_nil _ _

end Expr

section
variable {l r v : Value} {e : EvalError}

theorem BinaryOp.raises_of_apply {op : BinaryOp} (h : op.apply l r = .error e) :
    (Event.apply (.binary op)).Raises e := by
  cases op with
  | ring op =>
    obtain ⟨expected, found, rfl⟩ | ⟨a, b, h⟩ :=
      error_of_operands (fun h => ⟨_, Value.error_of_asNumber h⟩) h
    · exact .mismatch _ _ _
    · rw [RingOp.error_of_apply h]
      exact .overflow op
  | divide =>
    obtain ⟨expected, found, rfl⟩ | ⟨a, b, h⟩ :=
      error_of_operands (fun h => ⟨_, Value.error_of_asNumber h⟩) h
    · exact .mismatch _ _ _
    · rw [Number.error_of_divide h]
      exact .zero
  | logic op =>
    obtain ⟨expected, found, rfl⟩ | ⟨a, b, h⟩ :=
      error_of_operands (fun h => ⟨_, Value.error_of_asBool h⟩) h
    · exact .mismatch _ _ _
    · cases h
  | relation op =>
    obtain ⟨expected, found, rfl⟩ | ⟨a, b, h⟩ :=
      error_of_operands (fun h => ⟨_, Value.error_of_asNumber h⟩) h
    · exact .mismatch _ _ _
    · cases h

theorem UnaryOp.raises_of_apply {op : UnaryOp} (h : op.apply v = .error e) :
    (Event.apply (.unary op)).Raises e := by
  cases op with
  | negate =>
    obtain ⟨expected, rfl⟩ | rfl := UnaryOp.error_of_apply h
    · exact .mismatch _ _ _
    · exact .negation
  | not =>
    obtain h | ⟨b, _, h⟩ := bind_eq_error.1 h
    · rw [Value.error_of_asBool h]
      exact .mismatch _ _ _
    · cases h

theorem Value.raises_of_index {base index : Value} (h : base.index index = .error e) :
    (Event.apply .index).Raises e := by
  obtain rfl | rfl | ⟨i, length, rfl⟩ := Value.error_of_index h
  · exact .mismatch _ _ _
  · exact .noList _
  · exact .range i length

end

/-- If the run fails, then it has come last to where its error is raised. -/
def EndsAt (evs : List Event) (x : Yield Value) : Prop :=
  ∀ e left, x = (.error e, left) → ∃ before last, evs = before ++ [last] ∧ last.Raises e

namespace EndsAt

variable {evs : List Event} {x : Yield Value} {v : Value} {env : Environment} {event : Event}

theorem of_ok : EndsAt evs (.ok v, env) := nofun

theorem of_raises {e : EvalError} (raises : event.Raises e) : EndsAt [event] (.error e, env) := by
  rintro _ _ ⟨⟩
  exact ⟨[], event, rfl, raises⟩

theorem prepend (h : EndsAt evs x) (earlier : List Event) : EndsAt (earlier ++ evs) x := by
  intro e left failed
  obtain ⟨before, last, rfl, raises⟩ := h e left failed
  exact ⟨earlier ++ before, last, (List.append_assoc _ _ _).symm, raises⟩

theorem bind {x : Run Value} {f : Value → Run Value} {after : Value → Environment → List Event}
    (h : EndsAt evs (x.on env)) (next : ∀ v mid, EndsAt (after v mid) ((f v).on mid)) :
    EndsAt (evs ++ (x.on env).eventsAfter after) (Run.on (x >>= f) env) := by
  rw [Run.on_bind]
  generalize x.on env = y at h
  obtain ⟨answer, mid⟩ := y
  cases answer with
  | ok v => exact (next v mid).prepend evs
  | error e =>
    rw [Yield.eventsAfter, List.append_nil]
    exact h

/-- What an operator yields. -/
theorem of_apply {y : Except EvalError Value} (h : ∀ e, y = .error e → event.Raises e) :
    EndsAt [event] (Run.on (liftExcept y) env) := by
  rw [Run.on_liftExcept]
  cases y with
  | ok v => exact of_ok
  | error e => exact of_raises (h e rfl)

end EndsAt

namespace Expr

section
variable {limit room : Nat} {env : Environment} {e : Expr} {es : List Expr}

theorem runAll_endsAt (h : ∀ e ∈ es, ∀ env, EndsAt (eventsWithin limit room e env)
    ((evalWithin limit room e).on env)) (last : Value) (env : Environment) :
    EndsAt (eventsAll limit room es env) ((runAll limit room last es).on env) := by
  induction es generalizing last env with
  | nil => exact .of_ok
  | cons e es ih =>
    obtain ⟨head, tail⟩ := List.forall_mem_cons.1 h
    rw [eventsAll, runAll]
    exact (head env).bind fun v mid => ih tail v mid

theorem followAll_endsAt (h : ∀ e ∈ es, ∀ env, EndsAt (eventsWithin limit room e env)
    ((evalWithin limit room e).on env)) (base : Value) (env : Environment) :
    EndsAt (eventsAlong limit room base es env) ((followAll limit room base es).on env) := by
  induction es generalizing base env with
  | nil => exact .of_ok
  | cons e es ih =>
    obtain ⟨head, tail⟩ := List.forall_mem_cons.1 h
    rw [eventsAlong, followAll]
    refine (head env).bind fun i mid => ?_
    rw [Run.on_bind, Run.on_liftExcept]
    cases step : base.index i with
    | ok v => exact (ih tail v mid).prepend [.apply .index]
    | error e => exact .of_raises (Value.raises_of_index step)

theorem evalWithin_endsAt (limit room : Nat) (e : Expr) (env : Environment) :
    EndsAt (eventsWithin limit room e env) ((evalWithin limit room e).on env) := by
  induction room generalizing e env with
  | zero =>
    rw [eventsWithin, evalWithin]
    exact .of_raises (.depth limit)
  | succ room ih =>
    cases e with
    | program statements =>
      rw [eventsWithin, evalWithin]
      exact (runAll_endsAt (fun e _ => ih e) .void env).prepend [.enter]
    | assign name value =>
      rw [eventsWithin, evalWithin]
      exact ((ih value env).bind fun v mid => .of_ok).prepend [.enter]
    | «variable» name indices =>
      rw [eventsWithin, evalWithin, Run.on_get_bind]
      cases env.get? name with
      | some base =>
        exact (followAll_endsAt (fun e _ => ih e) base env).prepend [.enter, .lookUp name]
      | none => exact EndsAt.prepend (.of_raises (.unbound name)) [.enter]
    | literal l => exact .of_ok
    | unary op operand =>
      rw [eventsWithin, evalWithin]
      exact ((ih operand env).bind fun v mid =>
        .of_apply fun _ => UnaryOp.raises_of_apply).prepend [.enter]
    | binary op left right =>
      rw [eventsWithin, evalWithin]
      exact ((ih left env).bind fun v mid => (ih right mid).bind fun w mid =>
        .of_apply fun _ => BinaryOp.raises_of_apply).prepend [.enter]

/-- A run that fails has come last to where its error is raised. -/
theorem raises_of_eval_error {limit : Nat} {e : Expr} {env left : Environment} {err : EvalError}
    (failed : e.eval limit env = (.error err, left)) :
    ∃ before last, e.events limit env = before ++ [last] ∧ last.Raises err :=
  evalWithin_endsAt limit limit e env err left failed

end
end Expr
end Reckon
