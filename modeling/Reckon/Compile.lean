import Reckon.CompileError
import Reckon.Expr
import Reckon.Vocabulary

/-!
From trees to programs. A node whose name the vocabulary holds turns into its construct; a rule
with another name is transparent and must have exactly one part, which stands for it. At most
`maxPassThrough` transparent rules may follow each other, and every part of a construct opens one
level.
-/

namespace Reckon

/-- How many transparent rules may follow each other. -/
def maxPassThrough : Nat := 64

namespace Tree

/-- Opens a level for `k`. -/
@[inline] def descend (limit room : Nat) (k : Nat → Except CompileError Expr) :
    Except CompileError Expr :=
  match room with
  | 0 => .error (.depthExceeded limit)
  | room + 1 => k room

def invalid (kind : LiteralKind) (text : String) (span : Span) : Except CompileError Expr :=
  .error (.invalidLiteral kind text span)

/-- A terminal of `kind` as `construct`. -/
def compileTerminal (kind text : String) (span : Span) :
    (construct : Construct) → Except CompileError Expr
  | .int =>
    match Numeral.int? text with
    | some n => .ok (.literal (.int n))
    | none => invalid .integer text span
  | .float =>
    match Numeral.float? text with
    | some x => .ok (.literal (.float x))
    | none => invalid .float text span
  | .bool =>
    if text = "True" then .ok (.literal (.bool true))
    else if text = "False" then .ok (.literal (.bool false))
    else invalid .boolean text span
  | .program | .assignment | .variable | .group | .unary _ | .binary _ =>
    .error (.malformedNode kind .ruleExpected (some span))

/-- The parts of a rule do not fit its construct. -/
def malformed (name : String) (children : List Tree) (misfit : Misfit) :
    Except CompileError Expr :=
  .error (.malformedNode name misfit (spanAll? children))

mutual

/-- The program of a tree that stands `hops` transparent rules below the node whose level is open,
when `room` levels out of `limit` are left. -/
def compileFrom (vocabulary : Vocabulary) (limit room hops : Nat) : Tree → Except CompileError Expr
  | .terminal kind text span =>
    if maxPassThrough < hops then .error (.passThroughTooDeep kind maxPassThrough)
    else
      match vocabulary.get? kind with
      | none => .error (.unmappedTerminal kind span)
      | some construct => compileTerminal kind text span construct
  | .rule name children =>
    if maxPassThrough < hops then .error (.passThroughTooDeep name maxPassThrough)
    else
      match vocabulary.get? name with
      | none =>
        match children with
        | [only] => compileFrom vocabulary limit room (hops + 1) only
        | children =>
          .error (.ambiguousPassThrough name children.length (spanAll? children))
      | some .program => do
        return .program (← compileAll vocabulary limit room children)
      | some .assignment =>
        match children with
        | [.terminal _ target _, value] => do
          return .assign target
            (← descend limit room fun room => compileFrom vocabulary limit room 0 value)
        | children => malformed name children .assignmentParts
      | some .variable =>
        match children with
        | .terminal _ target _ :: indices => do
          return .variable target (← compileAll vocabulary limit room indices)
        | children => malformed name children .variableParts
      | some .group =>
        match children with
        | [inner] => descend limit room fun room => compileFrom vocabulary limit room 0 inner
        | children => malformed name children .onePart
      | some (.unary op) =>
        match children with
        | [operand] => do
          return .unary op
            (← descend limit room fun room => compileFrom vocabulary limit room 0 operand)
        | children => malformed name children .oneOperand
      | some (.binary op) =>
        match children with
        | [left, right] => do
          let l ← descend limit room fun room => compileFrom vocabulary limit room 0 left
          let r ← descend limit room fun room => compileFrom vocabulary limit room 0 right
          return .binary op l r
        | children => malformed name children .twoOperands
      | some .int | some .float | some .bool => malformed name children .terminalExpected

/-- The programs of the trees, each with its own level. -/
def compileAll (vocabulary : Vocabulary) (limit room : Nat) :
    List Tree → Except CompileError (List Expr)
  | [] => .ok []
  | t :: ts => do
    let e ← descend limit room fun room => compileFrom vocabulary limit room 0 t
    let es ← compileAll vocabulary limit room ts
    return e :: es

end

/-- The program of a tree with at most `limit` levels. -/
def compile (vocabulary : Vocabulary) (limit : Nat) (tree : Tree) : Except CompileError Expr :=
  descend limit limit fun room => compileFrom vocabulary limit room 0 tree

end Tree

end Reckon
