import Reckon.Compile
import Reckon.Grammar.Parse
import Reckon.Proofs.Events
import Reckon.Proofs.OperatorKinds

/-!
Two runs of one program on environments that bind the same names to scalars of the same kinds. They
go in lockstep, through the same nodes, look-ups and operators, with values of the same kinds, until
a number stops one of them: an overflow or a zero divisor. So the kind of the result, and every
error that is not about numbers, depend on the kinds in the environment alone.
-/

namespace Reckon

/-- The same kind, and no lists. -/
def Value.Alike (v w : Value) : Prop := v.kind = w.kind ∧ v.kind ≠ .list

/-- The same names are bound, each to alike values. -/
def Environment.Alike (env env' : Environment) : Prop :=
  ∀ name, Option.Rel Value.Alike (env.get? name) (env'.get? name)

theorem Environment.Alike.insert {env env' : Environment} {v w : Value}
    (h : Environment.Alike env env') (name : String) (values : v.Alike w) :
    Environment.Alike (env.insert name v) (env'.insert name w) := by
  intro key
  rw [NameMap.get?_insert, NameMap.get?_insert]
  split
  · exact .some values
  · exact h key

/-- The kind of the value of a variable, if it has one. -/
def Environment.kind? (env : Environment) (name : String) : Option Kind :=
  (env.get? name).map Value.kind

theorem Environment.Alike.kind?_eq {env env' : Environment} (h : Environment.Alike env env')
    (name : String) : env.kind? name = env'.kind? name := by
  unfold Environment.kind?
  have values := h name
  generalize env.get? name = v at values
  generalize env'.get? name = w at values
  cases values with
  | none => rfl
  | some values => exact congrArg some values.1

theorem Environment.Alike.of_kinds {env env' : Environment}
    (kinds : ∀ name, env.kind? name = env'.kind? name)
    (scalars : ∀ name k, env.kind? name = some k → k.isScalar) : Environment.Alike env env' := by
  intro name
  have same := kinds name
  have scalar := scalars name
  unfold Environment.kind? at same scalar
  generalize env.get? name = v at same scalar
  generalize env'.get? name = w at same
  cases v with
  | none =>
    cases w with
    | none => exact .none
    | some w => cases same
  | some v =>
    cases w with
    | none => cases same
    | some w =>
      refine .some ⟨Option.some.inj same, fun list => ?_⟩
      have := scalar .list (congrArg some list)
      cases this

/-- The first run has failed for its numbers at something that the second one comes to as well; and
should the second fail for another reason, then later. -/
structure Stops (evs evs' : List Event) (x y : Yield Value) : Prop where
  numeric : ∃ e left, x = (.error e, left) ∧ e.isNumeric
  before : evs <+: evs'
  earlier : ∀ e left, y = (.error e, left) → e.isNumeric = false → evs ≠ evs'

/-- Two runs that do the same as far as kinds go, or one of them stopped by its numbers. -/
inductive Lockstep : List Event → List Event → Yield Value → Yield Value → Prop where
  | done {evs : List Event} {v w : Value} {left left' : Environment} (values : v.Alike w)
      (envs : Environment.Alike left left') : Lockstep evs evs (.ok v, left) (.ok w, left')
  | failed {evs : List Event} {e : EvalError} {left left' : Environment} :
      Lockstep evs evs (.error e, left) (.error e, left')
  | first {evs evs' : List Event} {x y : Yield Value} (stops : Stops evs evs' x y) :
      Lockstep evs evs' x y
  | second {evs evs' : List Event} {x y : Yield Value} (stops : Stops evs' evs y x) :
      Lockstep evs evs' x y

section
variable {evs evs' : List Event} {x y : Yield Value} {f g : Value → Run Value}
  {after after' : Value → Environment → List Event}

theorem Stops.prepend (h : Stops evs evs' x y) (before : List Event) :
    Stops (before ++ evs) (before ++ evs') x y where
  numeric := h.numeric
  before := (List.prefix_append_right_inj before).2 h.before
  earlier e left failed other := fun eq =>
    h.earlier e left failed other (List.append_cancel_left eq)

theorem Lockstep.prepend (h : Lockstep evs evs' x y) (before : List Event) :
    Lockstep (before ++ evs) (before ++ evs') x y := by
  cases h with
  | done values envs => exact .done values envs
  | failed => exact .failed
  | first stops => exact .first (stops.prepend before)
  | second stops => exact .second (stops.prepend before)

/-- What comes next cannot fail without coming to something. -/
def Evident (after : Value → Environment → List Event) (f : Value → Run Value) : Prop :=
  ∀ v env e left, (f v).on env = (.error e, left) → after v env ≠ []

theorem Evident.of_ne_nil (h : ∀ v env, after v env ≠ []) : Evident after f :=
  fun v env _ _ _ => h v env

/-- A run that has been stopped stays where it is, whatever the other one does next. -/
theorem Stops.andThen (h : Stops evs evs' x y) (evident : Evident after' g) :
    Stops (evs ++ x.eventsAfter after) (evs' ++ y.eventsAfter after')
      (x.andThen fun v env => (f v).on env) (y.andThen fun v env => (g v).on env) := by
  obtain ⟨⟨e, left, rfl, numeric⟩, before, earlier⟩ := h
  have stays : evs ++ Yield.eventsAfter (.error e, left) after = evs := List.append_nil evs
  rw [stays]
  refine ⟨⟨e, left, rfl, numeric⟩, before.trans (List.prefix_append _ _), ?_⟩
  intro e' left' failed other same
  obtain ⟨answer, mid⟩ := y
  cases answer with
  | error e'' => exact earlier e' left' failed other (same.trans (List.append_nil evs'))
  | ok w =>
    -- The second run fails at something that the first one has not come to.
    have more : 0 < (after' w mid).length := List.length_pos_iff.2 (evident w mid e' left' failed)
    have lengths := congrArg List.length same
    have := before.length_le
    rw [List.length_append] at lengths
    change _ = _ + (after' w mid).length at lengths
    omega

theorem Lockstep.bind {x y : Run Value} {env env' : Environment}
    (h : Lockstep evs evs' (x.on env) (y.on env'))
    (next : ∀ v w mid mid', v.Alike w → Environment.Alike mid mid' →
      Lockstep (after v mid) (after' w mid') ((f v).on mid) ((g w).on mid'))
    (evident : Evident after f) (evident' : Evident after' g) :
    Lockstep (evs ++ (x.on env).eventsAfter after) (evs' ++ (y.on env').eventsAfter after')
      (Run.on (x >>= f) env) (Run.on (y >>= g) env') := by
  rw [Run.on_bind, Run.on_bind]
  generalize x.on env = a at h
  generalize y.on env' = b at h
  cases h with
  | done values envs => exact (next _ _ _ _ values envs).prepend _
  | failed => exact .failed
  | first stops => exact .first (stops.andThen evident')
  | second stops => exact .second (stops.andThen evident)

theorem Stops.of_kind {n : Kind} {e : EvalError} {v : Except EvalError Value} {event : Event}
    {env env' : Environment} (numeric : e.isNumeric) (h : OfKind (.ok n) v) :
    Stops [event] [event] (.error e, env) (v, env') := by
  refine ⟨⟨e, env, rfl, numeric⟩, List.prefix_rfl, ?_⟩
  rintro e' _ ⟨⟩ other
  rw [h.isNumeric_of_error] at other
  cases other

/-- An operator on operands of the same kinds. -/
theorem Lockstep.of_kind {k : Except EvalError Kind} {v w : Except EvalError Value} {event : Event}
    {env env' : Environment} (hv : OfKind k v) (hw : OfKind k w)
    (scalar : ∀ n, k = .ok n → n.isScalar) (envs : Environment.Alike env env') :
    Lockstep [event] [event] (v, env) (w, env') := by
  cases hv with
  | ok v =>
    have flat : v.kind ≠ .list := by
      intro eq
      have := scalar v.kind rfl
      rw [eq] at this
      cases this
    generalize kind : v.kind = n at hw
    cases hw with
    | ok w => exact .done ⟨kind, flat⟩ envs
    | numeric _ numeric => exact .second (.of_kind numeric (.ok v))
  | error e =>
    cases hw
    exact .failed
  | numeric _ numeric => exact .first (.of_kind numeric hw)

/-- Of two runs that both succeed, neither has been stopped. -/
theorem Lockstep.of_ok {v w : Value} {left left' : Environment}
    (h : Lockstep evs evs' (.ok v, left) (.ok w, left')) :
    v.Alike w ∧ Environment.Alike left left' := by
  cases h with
  | done values envs => exact ⟨values, envs⟩
  | first stops =>
    obtain ⟨e, left, failed, _⟩ := stops.numeric
    cases failed
  | second stops =>
    obtain ⟨e, left, failed, _⟩ := stops.numeric
    cases failed

/-- A run that fails, but not for its numbers, fails alike if the other is not stopped before. -/
theorem Lockstep.of_error {e : EvalError} {left : Environment}
    (h : Lockstep evs evs' (.error e, left) y) (other : e.isNumeric = false) :
    ∃ e' left', y = (.error e', left') ∧
      (e' = e ∧ evs' = evs ∨ e'.isNumeric ∧ evs' <+: evs ∧ evs' ≠ evs) := by
  cases h with
  | failed => exact ⟨e, _, rfl, .inl ⟨rfl, rfl⟩⟩
  | first stops =>
    obtain ⟨_, _, ⟨⟩, numeric⟩ := stops.numeric
    rw [other] at numeric
    cases numeric
  | second stops =>
    obtain ⟨e', left', rfl, numeric⟩ := stops.numeric
    exact ⟨e', left', rfl, .inr ⟨numeric, stops.before, stops.earlier e left rfl other⟩⟩

end

namespace Expr

/-- On alike environments evaluation with these levels left goes in lockstep. -/
def InStep (limit room : Nat) (e : Expr) : Prop :=
  ∀ env env', Environment.Alike env env' →
    Lockstep (eventsWithin limit room e env) (eventsWithin limit room e env')
      ((evalWithin limit room e).on env) ((evalWithin limit room e).on env')

section
variable {limit room : Nat} {env env' : Environment} {last last' base base' : Value} {e : Expr}
  {es : List Expr}

theorem evident_runAll :
    Evident (fun _ env => eventsAll limit room es env) (fun v => runAll limit room v es) := by
  intro v env err left failed
  cases es with
  | nil => cases failed
  | cons e es =>
    simp only [eventsAll]
    exact List.append_ne_nil_of_left_ne_nil (eventsWithin_ne_nil limit room e env) _

theorem runAll_inStep (h : ∀ e ∈ es, e.InStep limit room) (values : last.Alike last')
    (envs : Environment.Alike env env') :
    Lockstep (eventsAll limit room es env) (eventsAll limit room es env')
      ((runAll limit room last es).on env) ((runAll limit room last' es).on env') := by
  induction es generalizing last last' env env' with
  | nil => exact .done values envs
  | cons e es ih =>
    obtain ⟨head, tail⟩ := List.forall_mem_cons.1 h
    rw [eventsAll, eventsAll, runAll, runAll]
    exact (head env env' envs).bind (fun _ _ _ _ values envs => ih tail values envs)
      evident_runAll evident_runAll

/-- The first index step fails, as scalars have no items. -/
theorem followAll_inStep (h : ∀ e ∈ es, e.InStep limit room) (values : base.Alike base')
    (envs : Environment.Alike env env') :
    Lockstep (eventsAlong limit room base es env) (eventsAlong limit room base' es env')
      ((followAll limit room base es).on env) ((followAll limit room base' es).on env') := by
  cases es with
  | nil => exact .done values envs
  | cons e es =>
    rw [eventsAlong, eventsAlong, followAll, followAll]
    refine (h e List.mem_cons_self env env' envs).bind ?_
      (.of_ne_nil fun _ _ => List.cons_ne_nil _ _) (.of_ne_nil fun _ _ => List.cons_ne_nil _ _)
    intro i j mid mid' indices envs
    rw [Run.on_bind, Run.on_bind, Value.index_eq_error values.2,
      Value.index_eq_error (values.1 ▸ values.2), values.1, indices.1]
    exact .failed

theorem inStep (limit room : Nat) (e : Expr) : e.InStep limit room := by
  induction room generalizing e with
  | zero =>
    intro env env' _
    rw [eventsWithin, eventsWithin, evalWithin]
    exact .failed
  | succ room ih =>
    intro env env' envs
    cases e with
    | program statements =>
      rw [eventsWithin, eventsWithin, evalWithin]
      have void : Value.Alike .void .void := ⟨rfl, by decide⟩
      exact (runAll_inStep (fun e _ => ih e) void envs).prepend [.enter]
    | assign name value =>
      rw [eventsWithin, eventsWithin, evalWithin]
      refine Lockstep.prepend ((ih value env env' envs).bind ?_
        (.of_ne_nil fun _ _ => List.cons_ne_nil _ _)
        (.of_ne_nil fun _ _ => List.cons_ne_nil _ _)) [.enter]
      intro v w mid mid' values envs
      exact .done values (envs.insert name values)
    | «variable» name indices =>
      rw [eventsWithin, eventsWithin, evalWithin, Run.on_get_bind, Run.on_get_bind]
      have bound := envs name
      generalize env.get? name = found at bound
      generalize env'.get? name = found' at bound
      cases bound with
      | none => exact .failed
      | some values =>
        exact (followAll_inStep (fun e _ => ih e) values envs).prepend [.enter, .lookUp name]
    | literal l =>
      rw [eventsWithin, eventsWithin, evalWithin]
      exact .done ⟨rfl, by cases l <;> simp [Literal.value, Value.kind]⟩ envs
    | unary op operand =>
      rw [eventsWithin, eventsWithin, evalWithin]
      refine Lockstep.prepend ((ih operand env env' envs).bind ?_
        (.of_ne_nil fun _ _ => List.cons_ne_nil _ _)
        (.of_ne_nil fun _ _ => List.cons_ne_nil _ _)) [.enter]
      intro v w mid mid' values envs
      rw [Run.on_liftExcept, Run.on_liftExcept]
      refine .of_kind (op.apply_ofKind v) ?_ (fun _ => UnaryOp.isScalar_of_kindOn) envs
      rw [values.1]
      exact op.apply_ofKind w
    | binary op left right =>
      rw [eventsWithin, eventsWithin, evalWithin]
      have entered (env : Environment) (others : List Event) :
          eventsWithin limit room right env ++ others ≠ [] :=
        List.append_ne_nil_of_left_ne_nil (eventsWithin_ne_nil limit room right env) others
      refine Lockstep.prepend ((ih left env env' envs).bind ?_
        (.of_ne_nil fun _ env => entered env _) (.of_ne_nil fun _ env => entered env _)) [.enter]
      intro v w mid mid' values envs
      refine (ih right mid mid' envs).bind ?_
        (.of_ne_nil fun _ _ => List.cons_ne_nil _ _) (.of_ne_nil fun _ _ => List.cons_ne_nil _ _)
      intro v' w' mid mid' values' envs
      rw [Run.on_liftExcept, Run.on_liftExcept]
      refine .of_kind (op.apply_ofKind v v') ?_ (fun _ => BinaryOp.isScalar_of_kindOn) envs
      rw [values.1, values'.1]
      exact op.apply_ofKind w w'

end
end Expr

theorem Event.Raises.eq_apply {event : Event} {e : EvalError} (raises : event.Raises e)
    (numeric : e.isNumeric) : ∃ place, event = .apply place := by
  cases raises <;> first | exact ⟨_, rfl⟩ | cases numeric

/-- On environments that bind the same names to scalars of the same kinds, whatever their values
are, runs that succeed yield values of one kind and leave bindings of the same kinds. If a run
fails, but not with an overflow or a zero divisor, then the other one fails with the same error,
unless one of these has stopped it at an operation that the first run has passed. -/
theorem kinds_independent_of_numbers (limit : Nat) (e : Expr) (env env' : Environment)
    (kinds : ∀ name, env.kind? name = env'.kind? name)
    (scalars : ∀ name k, env.kind? name = some k → k.isScalar) :
    (∀ v w left left', e.eval limit env = (.ok v, left) → e.eval limit env' = (.ok w, left') →
      v.kind = w.kind ∧ ∀ name, left.kind? name = left'.kind? name) ∧
    ∀ err left, e.eval limit env = (.error err, left) → err.isNumeric = false →
      ∃ err' left', e.eval limit env' = (.error err', left') ∧
        (err' = err ∨
          err'.isNumeric ∧ ∃ before place later, (Event.apply place).Raises err' ∧
            e.events limit env' = before ++ [.apply place] ∧
            e.events limit env = before ++ .apply place :: later ∧ later ≠ []) := by
  have lockstep : Lockstep (e.events limit env) (e.events limit env')
      (e.eval limit env) (e.eval limit env') :=
    Expr.inStep limit limit e env env' (.of_kinds kinds scalars)
  constructor
  · intro v w left left' ran ran'
    rw [ran, ran'] at lockstep
    obtain ⟨values, envs⟩ := lockstep.of_ok
    exact ⟨values.1, envs.kind?_eq⟩
  · intro err left failed other
    rw [failed] at lockstep
    obtain ⟨err', left', failed', same | ⟨numeric, passed, earlier⟩⟩ := lockstep.of_error other
    · exact ⟨err', left', failed', .inl same.1⟩
    · obtain ⟨before, last, events, raises⟩ := Expr.raises_of_eval_error failed'
      obtain ⟨place, rfl⟩ := raises.eq_apply numeric
      obtain ⟨later, more⟩ := passed
      refine ⟨err', left', failed', .inr ⟨numeric, before, place, later, raises, events, ?_, ?_⟩⟩
      · rw [← more, events, List.append_assoc, List.singleton_append]
      · rintro rfl
        exact earlier (by rw [← more, List.append_nil])

/-- The second line fails for the kind of `b`, unless the sum in the first one overflows. -/
theorem kinds_independent_of_numbers_sum :
    ∃ t e left left' before place later,
      parse "b = a + 1\nnot b" .program 9 = .ok t ∧ t.compile .standard 9 = .ok e ∧
      e.eval 9 (.ofList [("a", .int 1)]) =
        (.error (.typeMismatch (.unary .not) .bool .int), left) ∧
      e.eval 9 (.ofList [("a", .int 9223372036854775807)]) =
        (.error (.integerOverflow (.ring .add)), left') ∧
      e.events 9 (.ofList [("a", .int 9223372036854775807)]) = before ++ [.apply place] ∧
      e.events 9 (.ofList [("a", .int 1)]) = before ++ .apply place :: later ∧ later ≠ [] := by
  obtain ⟨t, read, compiled⟩ : ∃ t, parse "b = a + 1\nnot b" .program 9 = .ok t ∧
      t.compile .standard 9 = .ok (.program
        [.assign "b" (.binary (.ring .add) (.variable "a" []) (.literal (.int 1))),
          .unary .not (.variable "b" [])]) := ⟨_, rfl, rfl⟩
  have kind (n : Int64) (name : String) :
      Environment.kind? (.ofList [("a", .int n)]) name =
        if name = "a" then some .int else none := by
    rw [Environment.kind?, NameMap.ofList, NameMap.insertMany, List.foldl_cons, List.foldl_nil,
      NameMap.get?_insert, NameMap.get?_empty]
    split <;> rfl
  have failed : ∃ left, (Expr.program
        [.assign "b" (.binary (.ring .add) (.variable "a" []) (.literal (.int 1))),
          .unary .not (.variable "b" [])]).eval 9 (.ofList [("a", .int 1)]) =
      (.error (.typeMismatch (.unary .not) .bool .int), left) := ⟨_, rfl⟩
  obtain ⟨left, failed⟩ := failed
  have scalar (name : String) (k : Kind)
      (found : Environment.kind? (.ofList [("a", .int 1)]) name = some k) : k.isScalar := by
    rw [kind] at found
    split at found <;> cases found
    rfl
  obtain ⟨err, left', failed', outcome⟩ := (kinds_independent_of_numbers 9 _ _
    (.ofList [("a", .int 9223372036854775807)])
    (fun name => (kind 1 name).trans (kind _ name).symm) scalar).2 _ _ failed rfl
  obtain rfl : .integerOverflow (.ring .add) = err := Except.error.inj (congrArg Prod.fst failed')
  obtain ⟨_, before, place, later, _, stopped, passed, more⟩ :=
    outcome.resolve_left fun same => by cases same
  exact ⟨t, _, left, left', before, place, later, read, compiled, failed, failed', stopped, passed,
    more⟩

end Reckon
