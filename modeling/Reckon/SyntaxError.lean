import Reckon.Token

/-!
Why a source text is refused, where, and the wording.
-/

namespace Reckon

inductive SyntaxError where
  | invalidToken (text : String) (span : Span)
  | unexpectedToken (found : TokenKind) (expected : String) (span : Span)
  | unexpectedEnd (expected : String) (span : Span)
  | nestingTooDeep (limit : Nat) (span : Span)
deriving DecidableEq

namespace SyntaxError

def span : SyntaxError → Span
  | .invalidToken _ span | .unexpectedToken _ _ span | .unexpectedEnd _ span
  | .nestingTooDeep _ span => span

def message : SyntaxError → String
  | .invalidToken text _ => "invalid token `" ++ text ++ "`"
  | .unexpectedToken found expected _ => "unexpected " ++ found.describe ++ ", expected " ++ expected
  | .unexpectedEnd expected _ => "unexpected end of input, expected " ++ expected
  | .nestingTooDeep limit _ => "expression nested too deeply (limit " ++ toString limit ++ ")"

end SyntaxError

end Reckon
