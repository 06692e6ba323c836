import Reckon.SyntaxError

/-!
Cutting source text into tokens. At every place the longest token counts; spaces, tabs and
carriage returns between tokens are skipped; a character that begins no token ends the scan.
-/

namespace Reckon
namespace Token

/-- Separates tokens and belongs to none. -/
def isBlank (c : Char) : Bool := c == ' ' || c == '\t' || c == '\r'

/-- The digits at the front, perhaps after a sign; nothing if there is no digit. -/
def signedDigits : List Char → List Char
  | [] => []
  | c :: cs =>
    if c = '+' ∨ c = '-' then
      match cs.takeWhile Char.isDigit with
      | [] => []
      | digits => c :: digits
    else (c :: cs).takeWhile Char.isDigit

/-- The exponent at the front, if a complete one stands there. -/
def exponent : List Char → List Char
  | [] => []
  | c :: cs =>
    if c = 'e' ∨ c = 'E' then
      match signedDigits cs with
      | [] => []
      | digits => c :: digits
    else []

/-- The number at the front: an integer unless it has a point or an exponent. -/
def number? (cs : List Char) : Option (TokenKind × List Char) :=
  let whole := cs.takeWhile Char.isDigit
  match cs.dropWhile Char.isDigit with
  | '.' :: rest =>
    let fraction := rest.takeWhile Char.isDigit
    if whole = [] ∧ fraction = [] then none
    else some (.float, whole ++ '.' :: (fraction ++ exponent (rest.dropWhile Char.isDigit)))
  | rest =>
    if whole = [] then none
    else
      match exponent rest with
      | [] => some (.int, whole)
      | e => some (.float, whole ++ e)

/-- A name that is spelled like a keyword is the keyword. -/
def nameKind (text : List Char) : TokenKind :=
  match String.ofList text with
  | "True" => .true
  | "False" => .false
  | "and" => .and
  | "or" => .or
  | "not" => .not
  | _ => .name

/-- The name or keyword at the front: a letter, then letters and digits. -/
def word? (cs : List Char) : Option (TokenKind × List Char) :=
  match cs with
  | c :: _ =>
    if c.isAlpha then
      let text := cs.takeWhile Char.isAlphanum
      some (nameKind text, text)
    else none
  | [] => none

/-- The sign at the front; one of two characters counts before its first character. -/
def sign? : List Char → Option (TokenKind × List Char)
  | '=' :: '=' :: _ => some (.relation .equal, ['=', '='])
  | '!' :: '=' :: _ => some (.relation .notEqual, ['!', '='])
  | '>' :: '=' :: _ => some (.relation .greaterEqual, ['>', '='])
  | '<' :: '=' :: _ => some (.relation .lessEqual, ['<', '='])
  | '>' :: _ => some (.relation .greater, ['>'])
  | '<' :: _ => some (.relation .less, ['<'])
  | '=' :: _ => some (.assign, ['='])
  | '+' :: _ => some (.plus, ['+'])
  | '-' :: _ => some (.minus, ['-'])
  | '*' :: _ => some (.star, ['*'])
  | '/' :: _ => some (.slash, ['/'])
  | '(' :: _ => some (.leftParen, ['('])
  | ')' :: _ => some (.rightParen, [')'])
  | '[' :: _ => some (.leftBracket, ['['])
  | ']' :: _ => some (.rightBracket, [']'])
  | '\n' :: _ => some (.newline, ['\n'])
  | _ => none

/-- The kind and the text of the longest token at the front. Names, numbers and signs begin with
different characters, so at most one of the three is there. -/
def first? (cs : List Char) : Option (TokenKind × List Char) :=
  word? cs <|> number? cs <|> sign? cs

/-- The token that `chars` make `offset` bytes into a source. Its text is what the source holds at its
span, so where the span is capped, the text ends or is empty. -/
def placed (kind : TokenKind) (chars : List Char) (offset : Nat) : Token :=
  let span := Span.ofRange offset (offset + (String.ofList chars).utf8ByteSize)
  ⟨kind, String.ofList (chars.take span.length), span⟩

/-- The tokens of what follows the first `skip` characters, `offset` bytes into the source. -/
def scanFrom : (offset skip : Nat) → List Char → Except SyntaxError (List Token)
  | _, _, [] => .ok []
  | offset, skip + 1, c :: cs => scanFrom (offset + c.utf8Size) skip cs
  | offset, 0, c :: cs =>
    let next := offset + c.utf8Size
    if isBlank c then scanFrom next 0 cs
    else
      match first? (c :: cs) with
      | none => .error (.invalidToken (String.singleton c) (Span.ofRange offset next))
      | some (kind, chars) => do
        let rest ← scanFrom next (chars.length - 1) cs
        return placed kind chars offset :: rest

end Token
end Reckon
