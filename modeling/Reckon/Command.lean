import Reckon.Compile
import Reckon.Eval
import Reckon.Grammar.Parse
import Reckon.Tree.Print

/-!
From source text to an outcome: reading, compiling and running with one limit for all three. Each
stage fails with its own kind of failure.
-/

namespace Reckon

inductive Failure where
  | parse (error : SyntaxError)
  | compile (error : CompileError)
  | eval (error : EvalError)
deriving DecidableEq

namespace Failure

def message : Failure → String
  | .parse e => "syntax error: " ++ e.message
  | .compile e => "compile error: " ++ e.message
  | .eval e => "runtime error: " ++ e.message

/-- The place in the source, for the failures that have one. -/
def span? : Failure → Option Span
  | .parse e => some e.span
  | .compile e => e.span?
  | .eval _ => none

/-- What a diagnostic writes at the place. -/
def label : Failure → String
  | .parse _ => "here"
  | .compile _ => "while compiling this"
  | .eval _ => "while evaluating this"

end Failure

/-- What running a source text yields. -/
structure Outcome where
  value : Value
  env : Environment
  /-- The number of nodes of the program. -/
  nodes : Nat

/-- The value, then every variable in the order of the names. -/
def Outcome.render (o : Outcome) : String :=
  o.value.text ++ "\n"
    ++ String.join (o.env.toList.map fun entry => entry.1 ++ " = " ++ entry.2.text ++ "\n")

namespace Tree

/-- Compiles and runs a tree on `env`. A tree that has no program leaves it as it is. -/
def execute (limit : Nat) (tree : Tree) (env : Environment) :
    Except Failure Value × Environment :=
  match tree.compile .standard limit with
  | .error e => (.error (.compile e), env)
  | .ok program =>
    let (answer, env) := program.eval limit env
    (answer.mapError .eval, env)

end Tree

/-- Reads, compiles and runs a source text on no variables. -/
def execute (start : Grammar.Start) (limit : Nat) (source : String) : Except Failure Outcome := do
  let tree ← (parse source start limit).mapError .parse
  let program ← (tree.compile .standard limit).mapError .compile
  match program.eval limit .empty with
  | (.ok value, env) => return ⟨value, env, program.count⟩
  | (.error e, _) => throw (.eval e)

/-- Runs a program. -/
def runSource (limit : Nat) (source : String) : Except Failure Outcome :=
  execute .program limit source

/-- Evaluates one expression. -/
def evalSource (limit : Nat) (source : String) : Except Failure Outcome :=
  execute .expression limit source

/-- The indented tree of a program. -/
def treeSource (limit : Nat) (source : String) : Except Failure String := do
  let tree ← (parse source .program limit).mapError .parse
  return tree.pretty

end Reckon
