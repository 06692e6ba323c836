import Reckon.Depth
import Reckon.Grammar
import Reckon.Token.InPlace

/-!
Reading tokens as a tree of the grammar, within a nesting limit. A rule is a function of the room
that is left, that is, the levels that may still be opened, and of the tokens ahead. A logic
expression, an atom, the operand of `not` and every operator of a chain open one level each; the
levels of a chain stay open until the chain ends. The first token that no rule allows ends the
reading.
-/

namespace Reckon
namespace Grammar

/-- Why a rule does not apply, with the tokens ahead where that shows. -/
inductive Refusal where
  | unexpected (expected : String) (ahead : List Token)
  | tooDeep (ahead : List Token)
deriving DecidableEq

/-- Reads a tree off the tokens ahead and leaves the rest. -/
abbrev Parser := (room : Nat) → List Token → Except Refusal (Tree × List Token)

/-- Opens a level for `p`. -/
@[inline] def nested (p : Parser) : Parser
  | 0, toks => .error (.tooDeep toks)
  | room + 1, toks => p room toks

/-- What `p` reads, as the only part of `rule`. -/
@[inline] def wrapped (rule : Rule) (p : Parser) : Parser := fun room toks => do
  let (tree, rest) ← p room toks
  return (rule.node [tree], rest)

/-- Passes over one token of `kind`. -/
def expect (kind : TokenKind) (expected : String) : List Token → Except Refusal (List Token)
  | [] => .error (.unexpected expected [])
  | t :: rest => if t.kind = kind then .ok rest else .error (.unexpected expected (t :: rest))

/-- The rest of a chain whose part read so far is `tree`. -/
@[specialize] def chainFrom (rule : Rule) (operator : TokenKind → Option Rule) (operand : Parser) :
    (room : Nat) → Tree → List Token → Except Refusal (Tree × List Token)
  | _, tree, [] => .ok (tree, [])
  | room, tree, t :: toks =>
    match operator t.kind with
    | none => .ok (tree, t :: toks)
    | some op =>
      match room with
      | 0 => .error (.tooDeep (t :: toks))
      | room + 1 => do
        let (right, rest) ← operand room toks
        chainFrom rule operator operand room (rule.node [op.node [tree, right]]) rest

/-- Operands joined by operators of one rank, the leftmost innermost. -/
@[inline] def chain (rule : Rule) (operator : TokenKind → Option Rule) (operand : Parser) :
    Parser := fun room toks => do
  let (first, rest) ← operand room toks
  chainFrom rule operator operand room (rule.node [first]) rest

def productOperator : TokenKind → Option Rule
  | .star => some .multiplication
  | .slash => some .division
  | _ => none

def sumOperator : TokenKind → Option Rule
  | .plus => some .addition
  | .minus => some .subtraction
  | _ => none

def conjunctionOperator : TokenKind → Option Rule
  | .and => some .andOp
  | _ => none

def disjunctionOperator : TokenKind → Option Rule
  | .or => some .orOp
  | _ => none

def product (atom : Parser) : Parser := chain .product productOperator atom

def sum (atom : Parser) : Parser := chain .sum sumOperator (product atom)

def arithExpr (atom : Parser) : Parser := wrapped .arithExpr (sum atom)

/-- At most one relation: comparisons do not chain. -/
def comparison (atom : Parser) : Parser := fun room toks => do
  let (left, rest) ← arithExpr atom room toks
  match rest with
  | ⟨.relation op, _, _⟩ :: rest =>
    let (right, rest) ← arithExpr atom room rest
    return (Rule.comparison.node [(Rule.relation op).node [left, right]], rest)
  | rest => return (Rule.comparison.node [left], rest)

def negation (atom : Parser) : Parser
  | room, ⟨.not, _, _⟩ :: toks =>
    match room with
    | 0 => .error (.tooDeep toks)
    | room + 1 => do
      let (operand, rest) ← negation atom room toks
      return (Rule.negation.node [Rule.notOp.node [operand]], rest)
  | room, toks => wrapped .negation (comparison atom) room toks

def conjunction (atom : Parser) : Parser := chain .conjunction conjunctionOperator (negation atom)

def disjunction (atom : Parser) : Parser :=
  chain .disjunction disjunctionOperator (conjunction atom)

def logicExpr (atom : Parser) : Parser := nested (wrapped .logicExpr (disjunction atom))

/-- The indices ahead. Every index uses up a token, so `bound`, the tokens at the first one, is
long enough for all of them. -/
def indices (atom : Parser) (room : Nat) :
    (bound : List Token) → List Token → Except Refusal (List Tree × List Token)
  | _ :: bound, ⟨.leftBracket, _, _⟩ :: toks => do
    let (index, rest) ← arithExpr atom room toks
    let rest ← expect .rightBracket "`]`" rest
    let (others, rest) ← indices atom room bound rest
    return (index :: others, rest)
  | _, toks => .ok ([], toks)

/-- An atom in which atoms inside are read by `atom`. -/
def atomAround (atom : Parser) : Parser := nested fun room toks =>
  match toks with
  | ⟨.int, text, span⟩ :: rest => .ok (Rule.atom.node [Terminal.int.leaf text span], rest)
  | ⟨.float, text, span⟩ :: rest => .ok (Rule.atom.node [Terminal.signedFloat.leaf text span], rest)
  | ⟨.true, text, span⟩ :: rest => .ok (Rule.atom.node [Terminal.true.leaf text span], rest)
  | ⟨.false, text, span⟩ :: rest => .ok (Rule.atom.node [Terminal.false.leaf text span], rest)
  | ⟨.name, text, span⟩ :: rest => do
    let (indices, rest) ← indices atom room rest rest
    return (Rule.atom.node [Rule.variable.node (Terminal.varName.leaf text span :: indices)], rest)
  | ⟨.minus, _, _⟩ :: rest => do
    let (operand, rest) ← atom room rest
    return (Rule.atom.node [Rule.negAtom.node [operand]], rest)
  | ⟨.leftParen, _, _⟩ :: rest => do
    let (inner, rest) ← logicExpr atom room rest
    let rest ← expect .rightParen "`)`" rest
    return (Rule.atom.node [Rule.bracketed.node [inner]], rest)
  | toks => .error (.unexpected "an expression" toks)

/-- Atoms nested at most `bound` deep. An atom opens a level, so a bound of at least the room is no
bound at all. -/
def atomUpTo : (bound : Nat) → Parser
  | 0, _, toks => .error (.tooDeep toks)
  | bound + 1, room, toks => atomAround (atomUpTo bound) room toks

/-- An assignment if a name and `=` are ahead, else an expression. -/
def line (atom : Parser) : Parser := fun room toks =>
  match toks with
  | ⟨.name, text, span⟩ :: ⟨.assign, _, _⟩ :: rest => do
    let (value, rest) ← logicExpr atom room rest
    let target := Terminal.varName.leaf text span
    return (Rule.line.node [Rule.assignVar.node [target, value]], rest)
  | toks => wrapped .line (logicExpr atom) room toks

/-- After a line comes a newline or the end. -/
def endOfLine : List Token → Except Refusal Unit
  | [] => .ok ()
  | t :: rest => if t.kind = .newline then .ok () else .error (.unexpected "newline" (t :: rest))

/-- The lines ahead, as many as there are. Every line and every newline uses up a token, so
`bound`, the tokens at the first one, is long enough. -/
def lines (atom : Parser) (room : Nat) :
    (bound : List Token) → List Token → Except Refusal (List Tree × List Token)
  | _ :: bound, t :: toks =>
    if t.kind = .newline then lines atom room bound toks
    else do
      let (first, rest) ← line atom room (t :: toks)
      endOfLine rest
      let (others, rest) ← lines atom room bound rest
      return (first :: others, rest)
  | _, toks => .ok ([], toks)

def block (atom : Parser) : Parser := fun room toks => do
  let (lines, rest) ← lines atom room toks toks
  return (Rule.block.node lines, rest)

def Start.parser (atom : Parser) : Start → Parser
  | .program => block atom
  | .line => Grammar.line atom
  | .expression => logicExpr atom
  | .arith => arithExpr atom

/-- Reads all tokens from `start` with at most `limit` levels open. -/
def parseTokens (start : Start) (limit : Nat) (toks : List Token) : Except Refusal Tree := do
  let (tree, rest) ← start.parser (atomUpTo limit) limit toks
  match rest with
  | [] => return tree
  | rest => throw (.unexpected "end of input" rest)

/-- The error a refusal stands for: at the token ahead, or at the end of the source. -/
def Refusal.toError (limit sourceSize : Nat) : Refusal → SyntaxError
  | .unexpected expected (t :: _) => .unexpectedToken t.kind expected t.span
  | .unexpected expected [] => .unexpectedEnd expected (Span.point sourceSize)
  | .tooDeep (t :: _) => .nestingTooDeep limit t.span
  | .tooDeep [] => .nestingTooDeep limit (Span.point sourceSize)

end Grammar

/-- The tree of a source text. All of it is cut into tokens before any rule is tried. -/
def parse (source : String) (start : Grammar.Start) (limit : Nat) : Except SyntaxError Tree := do
  let toks ← Token.scan source
  (Grammar.parseTokens start limit toks).mapError (·.toError limit source.utf8ByteSize)

end Reckon
