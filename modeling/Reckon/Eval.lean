import Reckon.Depth
import Reckon.Expr
import Reckon.NameMap
import Reckon.Operator.Apply

/-!
Running programs. Assignments change the environment, and changes made before a failure stay. Both
operands of every binary operator are evaluated, the left one first. A variable is looked up
before its indices are evaluated. Every node opens one level while it runs. Evaluation within a
limit is told how many levels are left; an interpreter, which can run any number of programs, counts
them on a gauge that it keeps.
-/

namespace Reckon

/-- The values of the variables. -/
abbrev Environment := NameMap Value

/-- A step of a run: from an environment to an answer and the environment it leaves. -/
abbrev Run (α : Type) := ExceptT EvalError (StateM Environment) α

namespace Expr

mutual

/-- The value of a node when `room` levels out of `limit` are left. -/
def evalWithin (limit : Nat) : (room : Nat) → Expr → Run Value
  | 0, _ => throw (.depthExceeded limit)
  | room + 1, .program statements => runAll limit room .void statements
  | room + 1, .assign name value => do
    let v ← evalWithin limit room value
    modify (·.insert name v)
    return v
  | room + 1, .variable name indices => do
    match (← get).get? name with
    | some base => followAll limit room base indices
    | none => throw (.undefinedVariable name)
  | _ + 1, .literal l => return l.value
  | room + 1, .unary op operand => do
    let v ← evalWithin limit room operand
    liftExcept (op.apply v)
  | room + 1, .binary op left right => do
    let l ← evalWithin limit room left
    let r ← evalWithin limit room right
    liftExcept (op.apply l r)

/-- Runs the statements in order; the value is that of the last, `last` if there is none. -/
def runAll (limit room : Nat) (last : Value) : List Expr → Run Value
  | [] => return last
  | e :: es => do
    let v ← evalWithin limit room e
    runAll limit room v es

/-- Goes down into `base` by one index after the other. -/
def followAll (limit room : Nat) (base : Value) : List Expr → Run Value
  | [] => return base
  | e :: es => do
    let i ← evalWithin limit room e
    let v ← liftExcept (base.index i)
    followAll limit room v es

end

/-- Runs `e` on `env` with at most `limit` levels open: the answer, and the environment left. -/
def eval (limit : Nat) (e : Expr) (env : Environment) : Except EvalError Value × Environment :=
  (evalWithin limit limit e).run.run env

end Expr

/-- An environment together with the levels that are open on it. -/
structure Interpreter where
  env : Environment
  gauge : DepthGauge

namespace Interpreter

def new (env : Environment) (limit : Nat) : Interpreter := ⟨env, .new limit⟩

/-- A step of an interpreter, which counts the levels on its gauge. -/
abbrev Step (α : Type) := ExceptT EvalError (StateM Interpreter) α

/-- Enters a level for `body` and leaves it again, whether `body` succeeds or fails. -/
def onLevel {α : Type} (body : Step α) : Step α := ExceptT.mk fun i =>
  match i.gauge.enter with
  | .error refused => (.error (.depthExceeded refused.limit), i)
  | .ok gauge =>
    let (answer, i) := body.run.run { i with gauge }
    (answer, { i with gauge := i.gauge.exit })

mutual

/-- The value of a node on the environment as it stands. -/
def eval : Expr → Step Value
  | .program statements => onLevel (evalAll .void statements)
  | .assign name value => onLevel do
    let v ← eval value
    modify fun i => { i with env := i.env.insert name v }
    return v
  | .variable name indices => onLevel do
    match (← get).env.get? name with
    | some base => evalAlong base indices
    | none => throw (.undefinedVariable name)
  | .literal l => onLevel (return l.value)
  | .unary op operand => onLevel do
    let v ← eval operand
    liftExcept (op.apply v)
  | .binary op left right => onLevel do
    let l ← eval left
    let r ← eval right
    liftExcept (op.apply l r)

/-- Evaluates the statements in order; the value is that of the last, `last` if there is none. -/
def evalAll (last : Value) : List Expr → Step Value
  | [] => return last
  | e :: es => do
    let v ← eval e
    evalAll v es

/-- Goes down into `base` by one index after the other. -/
def evalAlong (base : Value) : List Expr → Step Value
  | [] => return base
  | e :: es => do
    let i ← eval e
    let v ← liftExcept (base.index i)
    evalAlong v es

end

/-- Runs `e` on the environment as it stands. The gauge is kept from run to run. -/
def run (i : Interpreter) (e : Expr) : Except EvalError Value × Interpreter := (eval e).run.run i

end Interpreter

end Reckon
