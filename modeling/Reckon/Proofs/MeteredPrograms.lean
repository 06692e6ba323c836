import Reckon.Proofs.Constructs
import Reckon.Proofs.LevelCounting
import Reckon.Proofs.MeteredParsing

/-!
Compiling and running on a gauge. Compiling opens a level for every part of a construct, running one
for every node, and both close it again on success and on failure. With the walks of the parser
these are all the walks of the library, and every one of them is balanced.
-/

namespace Reckon

namespace Tree
namespace Metered

/-- Compiles a part one level deeper. -/
def nested (body : ExceptT CompileError Walk Expr) : ExceptT CompileError Walk Expr :=
  ExceptT.mk (Meter.nested (fun refusal => .error (.depthExceeded refusal.limit)) body.run)

mutual

/-- The program of a tree that stands `hops` transparent rules below the node whose level is
open. -/
def compileFrom (vocabulary : Vocabulary) (hops : Nat) : Tree → ExceptT CompileError Walk Expr
  | .terminal kind text span =>
    if maxPassThrough < hops then throw (.passThroughTooDeep kind maxPassThrough)
    else
      match vocabulary.get? kind with
      | none => throw (.unmappedTerminal kind span)
      | some construct => liftExcept (compileTerminal kind text span construct)
  | .rule name children =>
    if maxPassThrough < hops then throw (.passThroughTooDeep name maxPassThrough)
    else
      match vocabulary.get? name with
      | none =>
        match children with
        | [only] => compileFrom vocabulary (hops + 1) only
        | children => throw (.ambiguousPassThrough name children.length (spanAll? children))
      | some .program => do
        return .program (← compileAll vocabulary children)
      | some .assignment =>
        match children with
        | [.terminal _ target _, value] => do
          return .assign target (← nested (compileFrom vocabulary 0 value))
        | children => liftExcept (malformed name children .assignmentParts)
      | some .variable =>
        match children with
        | .terminal _ target _ :: indices => do
          return .variable target (← compileAll vocabulary indices)
        | children => liftExcept (malformed name children .variableParts)
      | some .group =>
        match children with
        | [inner] => nested (compileFrom vocabulary 0 inner)
        | children => liftExcept (malformed name children .onePart)
      | some (.unary op) =>
        match children with
        | [operand] => do
          return .unary op (← nested (compileFrom vocabulary 0 operand))
        | children => liftExcept (malformed name children .oneOperand)
      | some (.binary op) =>
        match children with
        | [left, right] => do
          let l ← nested (compileFrom vocabulary 0 left)
          let r ← nested (compileFrom vocabulary 0 right)
          return .binary op l r
        | children => liftExcept (malformed name children .twoOperands)
      | some .int | some .float | some .bool =>
        liftExcept (malformed name children .terminalExpected)

/-- The programs of the trees, each with its own level. -/
def compileAll (vocabulary : Vocabulary) : List Tree → ExceptT CompileError Walk (List Expr)
  | [] => return []
  | t :: ts => do
    let e ← nested (compileFrom vocabulary 0 t)
    let es ← compileAll vocabulary ts
    return e :: es

end

def compile (vocabulary : Vocabulary) (t : Tree) : ExceptT CompileError Walk Expr :=
  nested (compileFrom vocabulary 0 t)

section
variable {gauge : DepthGauge} {vocabulary : Vocabulary} {t : Tree} {ts : List Tree}

theorem compileAll_single :
    compileAll vocabulary [t] = do return [← nested (compileFrom vocabulary 0 t)] := by
  rw [compileAll, compileAll]
  rfl

/-- A construct compiles some of its children, one after the other. -/
theorem compileFrom_construct {c : Construct} {hops : Nat} {name : String} {children : List Tree}
    (few : hops ≤ maxPassThrough) (mapped : vocabulary.get? name = some c) :
    compileFrom vocabulary hops (.rule name children) =
      match c.parts children with
      | .ok ts => do return c.assemble children (← compileAll vocabulary ts)
      | .error misfit => liftExcept (malformed name children misfit) := by
  rw [compileFrom.eq_def]
  dsimp only
  rw [if_neg (Nat.not_lt.2 few), mapped]
  -- Of the ways a row of children can look, all but the fitting one are refused on both sides.
  cases c with
  | program | int | float | bool => rfl
  | assignment =>
    rcases children with _ | ⟨_ | _, _ | ⟨value, _ | _⟩⟩ <;> try rfl
    simp only [Construct.parts, Construct.assemble, compileAll_single, bind_assoc, pure_bind]
  | «variable» => rcases children with _ | ⟨_ | _, indices⟩ <;> rfl
  | group =>
    rcases children with _ | ⟨inner, _ | _⟩ <;> try rfl
    simp only [Construct.parts, Construct.assemble, compileAll_single, bind_assoc, pure_bind,
      bind_pure]
  | unary op =>
    rcases children with _ | ⟨operand, _ | _⟩ <;> try rfl
    simp only [Construct.parts, Construct.assemble, compileAll_single, bind_assoc, pure_bind]
  | binary op =>
    rcases children with _ | ⟨left, _ | ⟨right, _ | _⟩⟩ <;> try rfl
    simp only [Construct.parts, Construct.assemble, compileAll, bind_assoc, pure_bind]

/-- Compiling the tree counts its levels. -/
def Counted (gauge : DepthGauge) (vocabulary : Vocabulary) (t : Tree) : Prop :=
  ∀ hops, Meter.Counts gauge (compileFrom vocabulary hops t).run fun room =>
    Tree.compileFrom vocabulary gauge.limit room hops t

theorem nested_counts (inside : Counted gauge vocabulary t) :
    Meter.Counts gauge (nested (compileFrom vocabulary 0 t)).run fun room =>
      descend gauge.limit room fun room => Tree.compileFrom vocabulary gauge.limit room 0 t :=
  .nested rfl (inside 0)

theorem compileAll_counts (inside : ∀ t ∈ ts, Counted gauge vocabulary t) :
    Meter.Counts gauge (compileAll vocabulary ts).run fun room =>
      Tree.compileAll vocabulary gauge.limit room ts := by
  induction ts with
  | nil =>
    simp only [compileAll, Tree.compileAll]
    exact .pure _
  | cons t ts ih =>
    obtain ⟨head, tail⟩ := List.forall_mem_cons.1 inside
    simp only [compileAll, Tree.compileAll]
    exact (nested_counts head).bindOk fun _ => (ih tail).bindOk fun _ => .pure _

theorem counted (t : Tree) : Counted gauge vocabulary t := by
  induction t using Tree.induction with
  | terminal kind text span =>
    intro hops
    rcases Nat.lt_or_ge maxPassThrough hops with many | few
    · simp only [compileFrom_of_many many, compileFrom, if_pos many]
      exact .pure _
    simp only [compileFrom_terminal few, compileFrom, if_neg (Nat.not_lt.2 few)]
    cases vocabulary.get? kind with
    | none => exact .pure _
    | some construct => exact .liftExcept _
  | rule name children ih =>
    intro hops
    rcases Nat.lt_or_ge maxPassThrough hops with many | few
    · simp only [compileFrom_of_many many]
      rw [compileFrom.eq_def]
      dsimp only
      rw [if_pos many]
      exact .pure _
    cases mapped : vocabulary.get? name with
    | none =>
      simp only [compileFrom_transparent few mapped]
      rw [compileFrom.eq_def]
      dsimp only
      rw [if_neg (Nat.not_lt.2 few), mapped]
      rcases children with _ | ⟨only, _ | _⟩
      · exact .pure _
      · exact ih only (List.mem_singleton.2 rfl) (hops + 1)
      · exact .pure _
    | some c =>
      simp only [compileFrom_construct few mapped, Tree.compileFrom_construct few mapped]
      cases fits : c.parts children with
      | error misfit => exact .liftExcept _
      | ok ts =>
        have parts := compileAll_counts fun t mem => ih t (Construct.mem_of_mem_parts fits t mem)
        exact parts.bindOk fun _ => .pure _

theorem compile_balanced (vocabulary : Vocabulary) (limit : Nat) (t : Tree) :
    ∃ left, (compile vocabulary t).run.run (.new (.new limit)) =
        (t.compile vocabulary limit, left) ∧ left.Balanced (.new limit) := by
  have inside : (DepthGauge.new limit).depth ≤ limit := Nat.zero_le limit
  exact (nested_counts (counted t)).balanced inside

end
end Metered
end Tree

namespace Expr
namespace Metered

/-- A step of a run, which counts its levels on a meter. -/
abbrev Step (α : Type) := ExceptT EvalError (StateT Environment Walk) α

/-- Evaluates a node one level deeper. -/
def nested (body : Step Value) : Step Value := ExceptT.mk fun env =>
  Meter.nested (fun refusal => (.error (.depthExceeded refusal.limit), env)) (body.run.run env)

mutual

def eval : Expr → Step Value
  | .program statements => nested (evalAll .void statements)
  | .assign name value => nested do
    let v ← eval value
    modifyThe Environment (·.insert name v)
    return v
  | .variable name indices => nested do
    match (← getThe Environment).get? name with
    | some base => evalAlong base indices
    | none => throw (.undefinedVariable name)
  | .literal l => nested (return l.value)
  | .unary op operand => nested do
    let v ← eval operand
    liftExcept (op.apply v)
  | .binary op left right => nested do
    let l ← eval left
    let r ← eval right
    liftExcept (op.apply l r)

def evalAll (last : Value) : List Expr → Step Value
  | [] => return last
  | e :: es => do
    let v ← eval e
    evalAll v es

def evalAlong (base : Value) : List Expr → Step Value
  | [] => return base
  | e :: es => do
    let i ← eval e
    let v ← liftExcept (base.index i)
    evalAlong v es

end

section
variable {α β : Type} {gauge : DepthGauge}

/-- On every environment the step does what the run does with the levels left. -/
def Step.Counts (gauge : DepthGauge) (x : Step α) (y : (room : Nat) → Run α) : Prop :=
  ∀ env, Meter.Counts gauge (x.run.run env) fun room => (y room).on env

namespace Step.Counts

theorem pure (a : α) : Step.Counts gauge (Pure.pure a) fun _ => Pure.pure a :=
  fun _ => .pure _

theorem throw (e : EvalError) :
    Step.Counts gauge (MonadExcept.throw e : Step α) fun _ => MonadExcept.throw e :=
  fun _ => .pure _

theorem liftExcept (x : Except EvalError α) :
    Step.Counts gauge (liftExcept x) fun _ => liftExcept x := by
  cases x with
  | ok a => exact .pure a
  | error e => exact .throw e

theorem store (name : String) (v : Value) :
    Step.Counts gauge (do modifyThe Environment (·.insert name v); return v)
      fun _ => do modify (·.insert name v); return v :=
  fun _ => .pure _

theorem bind {x : Step α} {f : α → Step β} {y : Nat → Run α} {g : Nat → α → Run β}
    (first : x.Counts gauge y) (next : ∀ a, (f a).Counts gauge fun room => g room a) :
    Step.Counts gauge (x >>= f) fun room => y room >>= g room := by
  intro env
  simp only [Run.on_bind, ExceptT.run_bind, StateT.run_bind]
  refine .bind (g := fun room yield => Yield.andThen yield fun a mid => (g room a).on mid)
    (first env) fun yield => ?_
  obtain ⟨answer, mid⟩ := yield
  cases answer with
  | ok a => exact next a mid
  | error e => exact .pure _

theorem lookUp {name : String} {found : Value → Step α} {missing : Step α}
    {found' : Nat → Value → Run α} {missing' : Nat → Run α}
    (hit : ∀ v, (found v).Counts gauge fun room => found' room v)
    (miss : missing.Counts gauge missing') :
    Step.Counts gauge
      (do
        match (← getThe Environment).get? name with
        | some v => found v
        | none => missing)
      (fun room => do
        match (← get).get? name with
        | some v => found' room v
        | none => missing' room) := by
  intro env
  simp only [Run.on_get_bind]
  change Meter.Counts gauge
    (ExceptT.run (match env.get? name with | some v => found v | none => missing) env) _
  cases env.get? name with
  | some v => exact hit v env
  | none => exact miss env

theorem nested {e : Expr} {body : Step Value}
    (inside : body.Counts gauge fun room => e.evalWithin gauge.limit (room + 1)) :
    (Metered.nested body).Counts gauge fun room => e.evalWithin gauge.limit room := by
  refine fun env => .nested ?_ (inside env)
  simp only [Expr.evalWithin]
  rfl

end Step.Counts

variable {last base : Value} {es : List Expr}

theorem evalAll_counts
    (inside : ∀ e ∈ es, (eval e).Counts gauge fun room => e.evalWithin gauge.limit room) :
    (evalAll last es).Counts gauge fun room => Expr.runAll gauge.limit room last es := by
  induction es generalizing last with
  | nil =>
    simp only [evalAll, Expr.runAll]
    exact .pure last
  | cons e es ih =>
    obtain ⟨head, tail⟩ := List.forall_mem_cons.1 inside
    simp only [evalAll, Expr.runAll]
    exact head.bind fun _ => ih tail

theorem evalAlong_counts
    (inside : ∀ e ∈ es, (eval e).Counts gauge fun room => e.evalWithin gauge.limit room) :
    (evalAlong base es).Counts gauge fun room => Expr.followAll gauge.limit room base es := by
  induction es generalizing base with
  | nil =>
    simp only [evalAlong, Expr.followAll]
    exact .pure base
  | cons e es ih =>
    obtain ⟨head, tail⟩ := List.forall_mem_cons.1 inside
    simp only [evalAlong, Expr.followAll]
    exact head.bind fun i => .bind (.liftExcept (base.index i)) fun _ => ih tail

theorem eval_counts (e : Expr) :
    (eval e).Counts gauge fun room => e.evalWithin gauge.limit room := by
  induction e using Expr.induction with
  | program statements ih =>
    rw [eval]
    refine .nested ?_
    simp only [Expr.evalWithin]
    exact evalAll_counts ih
  | assign name value ih =>
    rw [eval]
    refine .nested ?_
    simp only [Expr.evalWithin]
    exact ih.bind fun v => .store name v
  | «variable» name indices ih =>
    rw [eval]
    refine .nested ?_
    simp only [Expr.evalWithin]
    exact .lookUp (fun _ => evalAlong_counts ih) (.throw _)
  | literal l =>
    rw [eval]
    refine .nested ?_
    simp only [Expr.evalWithin]
    exact .pure l.value
  | unary op operand ih =>
    rw [eval]
    refine .nested ?_
    simp only [Expr.evalWithin]
    exact ih.bind fun v => .liftExcept (op.apply v)
  | binary op left right ihl ihr =>
    rw [eval]
    refine .nested ?_
    simp only [Expr.evalWithin]
    exact ihl.bind fun l => ihr.bind fun r => .liftExcept (op.apply l r)

end

/-- On an interpreter the meter shows what is done to its gauge. -/
theorem eval_balanced (env : Environment) {gauge : DepthGauge}
    (inside : gauge.depth ≤ gauge.limit) (e : Expr) :
    ∃ left, ((eval e).run.run env).run (.new gauge) =
        ((((Interpreter.mk env gauge).run e).1, ((Interpreter.mk env gauge).run e).2.env), left) ∧
      ((Interpreter.mk env gauge).run e).2.gauge = gauge ∧ left.Balanced gauge := by
  obtain ⟨left, ran, balanced⟩ := (eval_counts e env).balanced inside
  refine ⟨left, ?_, ?_, balanced⟩
  · rw [ran, Interpreter.run_eq]
    rfl
  · rw [Interpreter.run_eq]
    rfl

end Metered
end Expr

/-- Every walk opens and closes its levels in balance, on success and on failure. Reading, compiling
and running each come to what they come to with a number of levels left; each of their calls returns
at the depth at which it was made, no more levels are open than the limit allows, and none is closed
where none is open. A level is refused exactly at the limit, and then nothing has changed. -/
theorem depth_balanced :
    (∀ source start limit, ∃ left,
      Grammar.Metered.parse source start limit = (parse source start limit, left) ∧
        left.Balanced (.new limit)) ∧
      (∀ vocabulary limit (t : Tree), ∃ left,
        (Tree.Metered.compile vocabulary t).run.run (.new (.new limit)) =
            (t.compile vocabulary limit, left) ∧
          left.Balanced (.new limit)) ∧
      (∀ env gauge (e : Expr), gauge.depth ≤ gauge.limit → ∃ left,
        ((Expr.Metered.eval e).run.run env).run (.new gauge) =
            ((((Interpreter.mk env gauge).run e).1, ((Interpreter.mk env gauge).run e).2.env),
              left) ∧
          ((Interpreter.mk env gauge).run e).2.gauge = gauge ∧ left.Balanced gauge) ∧
      ∀ m : Meter, m.gauge.depth ≤ m.gauge.limit →
        ((∃ refusal, (Meter.enter.run m).1 = .error refusal) ↔ m.gauge.depth = m.gauge.limit) ∧
          (m.gauge.depth = m.gauge.limit → (Meter.enter.run m).2.gauge = m.gauge) := by
  refine ⟨Grammar.Metered.parse_balanced, Tree.Metered.compile_balanced,
    fun env gauge e inside => Expr.Metered.eval_balanced env inside e, fun m inside => ?_⟩
  rw [Meter.run_enter]
  by_cases full : m.gauge.depth = m.gauge.limit
  · rw [DepthGauge.enter_eq_error_iff.2 (Nat.sub_eq_zero_of_le (Nat.le_of_eq full.symm))]
    exact ⟨⟨fun _ => full, fun _ => ⟨_, rfl⟩⟩, fun _ => rfl⟩
  · rw [DepthGauge.enter_eq_ok_iff.2 ⟨Nat.lt_of_le_of_ne inside full, rfl⟩]
    refine ⟨⟨?_, fun same => absurd same full⟩, fun same => absurd same full⟩
    rintro ⟨_, refused⟩
    cases refused

theorem depth_balanced_refused :
    ∃ left : Meter,
      ((Expr.Metered.eval (.unary .not (.unary .not (.literal (.bool true))))).run.run .empty).run
          (.new ⟨1, 3⟩) = ((.error (.depthExceeded 3), .empty), left) ∧
        left.log =
          [⟨.returned ⟨1, 3⟩, ⟨1, 3⟩, ⟨1, 3⟩⟩, ⟨.closed, ⟨2, 3⟩, ⟨1, 3⟩⟩,
            ⟨.returned ⟨2, 3⟩, ⟨2, 3⟩, ⟨2, 3⟩⟩, ⟨.closed, ⟨3, 3⟩, ⟨2, 3⟩⟩,
            ⟨.returned ⟨3, 3⟩, ⟨3, 3⟩, ⟨3, 3⟩⟩, ⟨.refused, ⟨3, 3⟩, ⟨3, 3⟩⟩,
            ⟨.opened, ⟨2, 3⟩, ⟨3, 3⟩⟩, ⟨.opened, ⟨1, 3⟩, ⟨2, 3⟩⟩] ∧
        left.Balanced ⟨1, 3⟩ := by
  obtain ⟨left, ran, -, balanced⟩ := depth_balanced.2.2.1 .empty ⟨1, 3⟩
    (.unary .not (.unary .not (.literal (.bool true)))) (by decide)
  exact ⟨left, ran, congrArg (·.2.log) ran.symm, balanced⟩

end Reckon
