import Reckon.Operator
import Reckon.Span

/-!
Tokens of the source language. Most kinds have one spelling; names and numbers are the others.
-/

namespace Reckon

inductive TokenKind where
  | newline
  | true
  | false
  | and
  | or
  | not
  | name
  | int
  | float
  | relation (op : Relation)
  | assign
  | plus
  | minus
  | star
  | slash
  | leftParen
  | rightParen
  | leftBracket
  | rightBracket
deriving DecidableEq

namespace TokenKind

/-- The spelling of a kind that has only one. -/
def spelling? : TokenKind → Option String
  | .newline => some "\n"
  | .true => some "True"
  | .false => some "False"
  | .and => some "and"
  | .or => some "or"
  | .not => some "not"
  | .name | .int | .float => none
  | .relation op => some op.symbol
  | .assign => some "="
  | .plus => some "+"
  | .minus => some "-"
  | .star => some "*"
  | .slash => some "/"
  | .leftParen => some "("
  | .rightParen => some ")"
  | .leftBracket => some "["
  | .rightBracket => some "]"

/-- How messages name a token of this kind. -/
def describe : TokenKind → String
  | .newline => "newline"
  | .name => "variable name"
  | .int => "integer"
  | .float => "float"
  | kind => "`" ++ kind.spelling?.getD "" ++ "`"

end TokenKind

/-- A piece of source text with its kind and its place. The text is what the source holds there. -/
structure Token where
  kind : TokenKind
  text : String
  span : Span
deriving DecidableEq

end Reckon
