import Reckon.Span

/-!
Why a tree has no executable form, where, and the wording.
-/

namespace Reckon

/-- How the parts of a node fail to fit its construct. -/
inductive Misfit where
  | ruleExpected
  | terminalExpected
  | assignmentParts
  | variableParts
  | onePart
  | oneOperand
  | twoOperands
deriving DecidableEq

def Misfit.reason : Misfit → String
  | .ruleExpected => "expected a rule node, found a terminal"
  | .terminalExpected => "literal must be a terminal"
  | .assignmentParts => "expected a name followed by one expression"
  | .variableParts => "expected a name followed by index expressions"
  | .onePart => "expected exactly one child"
  | .oneOperand => "expected exactly one operand"
  | .twoOperands => "expected exactly two operands"

inductive LiteralKind where
  | integer
  | float
  | boolean
deriving DecidableEq

def LiteralKind.name : LiteralKind → String
  | .integer => "integer"
  | .float => "float"
  | .boolean => "boolean"

inductive CompileError where
  | unmappedTerminal (kind : String) (span : Span)
  | ambiguousPassThrough (rule : String) (children : Nat) (span : Option Span)
  | passThroughTooDeep (rule : String) (limit : Nat)
  | malformedNode (rule : String) (misfit : Misfit) (span : Option Span)
  | invalidLiteral (kind : LiteralKind) (text : String) (span : Span)
  | depthExceeded (limit : Nat)
deriving DecidableEq

namespace CompileError

/-- The place, for the errors that have one. -/
def span? : CompileError → Option Span
  | .unmappedTerminal _ span | .invalidLiteral _ _ span => some span
  | .ambiguousPassThrough _ _ span | .malformedNode _ _ span => span
  | .passThroughTooDeep _ _ | .depthExceeded _ => none

def message : CompileError → String
  | .unmappedTerminal kind _ => "no evaluation rule for terminal `" ++ kind ++ "`"
  | .ambiguousPassThrough rule children _ =>
    "rule `" ++ rule ++ "` has no evaluation rule and " ++ toString children
      ++ " children; pass-through requires exactly one"
  | .passThroughTooDeep rule limit =>
    "pass-through chain longer than " ++ toString limit ++ " rules at `" ++ rule ++ "`"
  | .malformedNode rule misfit _ => "malformed `" ++ rule ++ "` node: " ++ misfit.reason
  | .invalidLiteral kind text _ => "invalid " ++ kind.name ++ " literal `" ++ text ++ "`"
  | .depthExceeded limit => "tree nested too deeply to compile (limit " ++ toString limit ++ ")"

end CompileError

end Reckon
