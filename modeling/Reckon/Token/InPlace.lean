import Reckon.Token.Position

/-!
Cutting source text into tokens in place. As a list the characters of a text take many times the
memory of the text, so a long text is gone through by its positions. Every search here ends where
the characters end that the search of the same name cuts off a list.
-/

namespace Reckon
namespace Token

section
variable {s : String} {p q : s.Pos} {cs ds : List Char} {kind : TokenKind}

/-- A row of blanks, not an empty one. -/
structure BlankRow where
  text : String
  some : text ≠ ""
  blank : ∀ c ∈ text.toList, isBlank c = true

/-- Spaces, `n` after the first. -/
def BlankRow.spaces (n : Nat) : BlankRow where
  text := String.ofList (List.replicate (n + 1) ' ')
  some := mt String.ofList_eq_empty_iff.1 (List.cons_ne_nil _ _)
  blank c mem := by
    rw [String.toList_ofList] at mem
    rw [List.eq_of_mem_replicate mem]
    rfl

/-- The end of the blanks. As long as whole rows of them stand there, each is passed over at once. -/
def blanksEnd (row : BlankRow) (p : s.Pos) : s.Pos :=
  match _skipped : p.skip? row.text with
  | some q => blanksEnd row q
  | none => rowEnd isBlank p
termination_by p.remainingBytes
decreasing_by
  have some := mt String.utf8ByteSize_eq_zero_iff.1 row.some
  have whole := (reads_of_skip? ‹_›).remainingBytes_eq
  rw [String.ofList_toList] at whole
  omega

theorem blanksEnd_eq (row : BlankRow) (p : s.Pos) : blanksEnd row p = rowEnd isBlank p := by
  fun_induction blanksEnd row p with
  | case1 p q skipped ih =>
    have front : following p = row.text.toList ++ following q := reads_of_skip? skipped
    rw [ih]
    refine eq_of_following ?_
    rw [following_rowEnd, following_rowEnd, front, List.dropWhile_append_of_pos row.blank]
  | case2 => rfl

/-- The row that is passed over at once. -/
def longRow : BlankRow := .spaces 4095

theorem get_blanksEnd {row : BlankRow} (h : blanksEnd row p ≠ s.endPos) :
    isBlank ((blanksEnd row p).get h) = false := by
  have stopped := List.head?_dropWhile_not isBlank (following p)
  rwa [← following_rowEnd, ← blanksEnd_eq row, following_eq_cons h] at stopped

/-- The end of the digits, perhaps after a sign; the same position if there is no digit. -/
def signedDigitsEnd (p : s.Pos) : s.Pos :=
  if h : p = s.endPos then p
  else if p.get h = '+' ∨ p.get h = '-' then
    let stop := rowEnd Char.isDigit (p.next h)
    if stop = p.next h then p else stop
  else rowEnd Char.isDigit p

theorem reads_signedDigitsEnd (p : s.Pos) :
    Reads p (signedDigitsEnd p) (signedDigits (following p)) := by
  rw [signedDigitsEnd]
  split
  case isTrue h =>
    rw [following_eq_nil.2 h]
    exact .refl p
  case isFalse h =>
    rw [following_eq_cons h, signedDigits]
    split
    case isTrue => exact (reads_rowEnd Char.isDigit (p.next h)).after
    case isFalse =>
      rw [← following_eq_cons h]
      exact reads_rowEnd Char.isDigit p

/-- The end of the exponent; the same position if there is no complete one. -/
def exponentEnd (p : s.Pos) : s.Pos :=
  if h : p = s.endPos then p
  else if p.get h = 'e' ∨ p.get h = 'E' then
    let stop := signedDigitsEnd (p.next h)
    if stop = p.next h then p else stop
  else p

theorem reads_exponentEnd (p : s.Pos) : Reads p (exponentEnd p) (exponent (following p)) := by
  rw [exponentEnd]
  split
  case isTrue h =>
    rw [following_eq_nil.2 h]
    exact .refl p
  case isFalse h =>
    rw [following_eq_cons h, exponent]
    split
    case isTrue => exact (reads_signedDigitsEnd (p.next h)).after
    case isFalse => exact .refl p

/-- The position after the point. -/
def pointEnd? (p : s.Pos) : Option s.Pos :=
  if h : p = s.endPos then none
  else if p.get h = '.' then some (p.next h) else none

/-- The kind and the end of the number. -/
def numberEnd? (p : s.Pos) : Option (TokenKind × s.Pos) :=
  let whole := rowEnd Char.isDigit p
  match pointEnd? whole with
  | some point =>
    let fraction := rowEnd Char.isDigit point
    if whole = p ∧ fraction = point then none else some (.float, exponentEnd fraction)
  | none =>
    if whole = p then none
    else
      let stop := exponentEnd whole
      if stop = whole then some (.int, whole) else some (.float, stop)

/-- The next characters, at most `n` of them. -/
def peek : Nat → s.Pos → List Char
  | 0, _ => []
  | n + 1, p => if h : p = s.endPos then [] else p.get h :: peek n (p.next h)

/-- The kind and the end of the name or keyword. No keyword has more than five letters. -/
def wordEnd? (p : s.Pos) : Option (TokenKind × s.Pos) :=
  if h : p = s.endPos then none
  else if (p.get h).isAlpha then
    some (nameKind ((peek 6 p).takeWhile Char.isAlphanum), rowEnd Char.isAlphanum p)
  else none

/-- The kind and the end of the sign. -/
def signEnd? (p : s.Pos) : Option (TokenKind × s.Pos) :=
  (sign? (peek 2 p)).map fun (kind, chars) => (kind, p.nextn chars.length)

/-- The kind and the end of the longest token. -/
def tokenEnd? (p : s.Pos) : Option (TokenKind × s.Pos) :=
  wordEnd? p <|> numberEnd? p <|> signEnd? p

/-- The same token, once by its end and once by its characters; or none both times. -/
inductive Agree (p : s.Pos) : Option (TokenKind × s.Pos) → Option (TokenKind × List Char) → Prop
  | none : Agree p none none
  | some {kind : TokenKind} {q : s.Pos} {cs : List Char} (read : Reads p q cs) :
    Agree p (some (kind, q)) (some (kind, cs))

theorem reads_pointEnd? (h : pointEnd? p = some q) : Reads p q ['.'] := by
  rw [pointEnd?] at h
  split at h
  case isTrue => cases h
  case isFalse inside =>
    split at h
    case isTrue point =>
      cases h
      rw [← point]
      exact (Reads.refl _).cons
    case isFalse => cases h

theorem ne_point_of_pointEnd? (h : pointEnd? p = none) : ∀ cs, following p ≠ '.' :: cs := by
  intro cs point
  rw [pointEnd?] at h
  split at h
  case isTrue stop =>
    rw [following_eq_nil.2 stop] at point
    cases point
  case isFalse inside =>
    rw [following_eq_cons inside] at point
    rw [if_pos (List.cons.inj point).1] at h
    cases h

theorem number?_pointless (h : ∀ rest, cs.dropWhile Char.isDigit ≠ '.' :: rest) :
    number? cs =
      if cs.takeWhile Char.isDigit = [] then none
      else
        match exponent (cs.dropWhile Char.isDigit) with
        | [] => some (.int, cs.takeWhile Char.isDigit)
        | e => some (.float, cs.takeWhile Char.isDigit ++ e) := by
  rw [number?]
  split
  case h_1 rest point => exact absurd point (h rest)
  case h_2 => rfl

theorem agree_number (p : s.Pos) : Agree p (numberEnd? p) (number? (following p)) := by
  have whole := reads_rowEnd Char.isDigit p
  rw [numberEnd?]
  cases found : pointEnd? (rowEnd Char.isDigit p) with
  | some q =>
    have point : following (rowEnd Char.isDigit p) = '.' :: following q := reads_pointEnd? found
    have fraction := reads_rowEnd Char.isDigit q
    have tail := reads_exponentEnd (rowEnd Char.isDigit q)
    rw [following_rowEnd] at point tail
    simp only [number?, point, whole.eq_nil_iff, fraction.eq_nil_iff]
    split
    case isTrue => exact .none
    case isFalse =>
      exact .some (whole.append ((reads_pointEnd? found).append (fraction.append tail)))
  | none =>
    have tail := reads_exponentEnd (rowEnd Char.isDigit p)
    have noPoint := ne_point_of_pointEnd? found
    rw [following_rowEnd] at tail noPoint
    simp only [number?_pointless noPoint, whole.eq_nil_iff]
    split
    case isTrue => exact .none
    case isFalse =>
      split
      case isTrue same =>
        rw [tail.eq_nil_iff.2 same]
        exact .some whole
      case isFalse moved =>
        split
        case h_1 none => exact absurd (tail.eq_nil_iff.1 none) moved
        case h_2 => exact .some (whole.append tail)

theorem peek_eq_take (n : Nat) (p : s.Pos) : peek n p = (following p).take n := by
  fun_induction peek n p with
  | case1 => rw [List.take_zero]
  | case2 => rw [following_eq_nil.2 rfl, List.take_nil]
  | case3 n p h ih => rw [following_eq_cons h, List.take_succ_cons, ih]

theorem length_of_nameKind {text : List Char} (keyword : nameKind text ≠ .name) :
    text.length < 6 := by
  have length {word : String} (h : String.ofList text = word) : text.length = word.length := by
    rw [← h, String.length_ofList]
  unfold nameKind at keyword
  split at keyword
  case h_6 => exact absurd rfl keyword
  all_goals next eq => rw [length eq]; decide

theorem nameKind_take (text : List Char) : nameKind (text.take 6) = nameKind text := by
  rcases Nat.lt_or_ge text.length 6 with short | long
  · rw [List.take_of_length_le (Nat.le_of_lt short)]
  · have name {text : List Char} (long : 6 ≤ text.length) : nameKind text = .name :=
      Classical.not_not.1 fun keyword => Nat.not_lt.2 long (length_of_nameKind keyword)
    rw [name long, name (Nat.le_of_eq (List.length_take_of_le long).symm)]

theorem agree_word (p : s.Pos) : Agree p (wordEnd? p) (word? (following p)) := by
  rw [wordEnd?]
  split
  case isTrue stop =>
    rw [following_eq_nil.2 stop]
    exact .none
  case isFalse h =>
    rw [following_eq_cons h, word?]
    split
    case isTrue =>
      rw [← following_eq_cons h, peek_eq_take, ← List.take_takeWhile, nameKind_take]
      exact .some (reads_rowEnd Char.isAlphanum p)
    case isFalse => exact .none

theorem reads_nextn (p : s.Pos) (n : Nat) : Reads p (p.nextn n) ((following p).take n) := by
  have behind := congrArg String.toList
    ((splits_following (p.nextn n)).eq_right ((splits_following p).nextn n))
  rw [String.toList_ofList, String.toList_ofList, String.toList_ofList] at behind
  rw [Reads, behind, List.take_append_drop]

theorem sign?_eq_take (h : sign? cs = some (kind, ds)) : ds = cs.take ds.length := by
  unfold sign? at h
  split at h <;> cases h <;> simp

/-- What follows the first character of a sign matters only as far as it is `=` or not. -/
theorem sign?_of_follow {c : Char} {found : TokenKind × List Char}
    (follow : (∃ tail, cs = '=' :: tail) ↔ ∃ tail, ds = '=' :: tail)
    (h : sign? (c :: cs) = some found) : sign? (c :: ds) = some found := by
  generalize eq : c :: cs = all at h
  revert h
  fun_cases sign? all with
  | case1 | case2 | case3 | case4 =>
    cases eq
    obtain ⟨tail, rfl⟩ := follow.1 ⟨_, rfl⟩
    exact id
  | case5 tail ne | case6 tail ne | case7 tail ne =>
    cases eq
    have other : ∀ tail, ds = '=' :: tail → False := by
      intro tail eq
      obtain ⟨tail, eq⟩ := follow.2 ⟨tail, eq⟩
      exact ne tail eq
    rw [sign?]
    · exact id
    · exact other
  | case17 => nofun
  | _ =>
    cases eq
    exact id

theorem sign?_take (cs : List Char) : sign? (cs.take 2) = sign? cs := by
  cases cs with
  | nil => rfl
  | cons c cs =>
    have follow : (∃ tail, cs.take 1 = '=' :: tail) ↔ ∃ tail, cs = '=' :: tail := by
      cases cs <;> simp
    exact Option.ext fun found => ⟨sign?_of_follow follow, sign?_of_follow follow.symm⟩

theorem agree_sign (p : s.Pos) : Agree p (signEnd? p) (sign? (following p)) := by
  rw [signEnd?, peek_eq_take, sign?_take]
  cases found : sign? (following p) with
  | none => exact .none
  | some token =>
    obtain ⟨kind, chars⟩ := token
    have read := reads_nextn p chars.length
    rw [← sign?_eq_take found] at read
    exact .some read

theorem Agree.orElse {a a' : Option (TokenKind × s.Pos)} {b b' : Option (TokenKind × List Char)}
    (h : Agree p a b) (h' : Agree p a' b') : Agree p (a <|> a') (b <|> b') := by
  cases h with
  | none => exact h'
  | some read => exact .some read

/-- The search in place finds the token that is found in the list of what follows. -/
theorem agree_token (p : s.Pos) : Agree p (tokenEnd? p) (first? (following p)) :=
  (agree_word p).orElse ((agree_number p).orElse (agree_sign p))

theorem word?_ne_nil : word? cs ≠ some (kind, []) := by
  cases cs with
  | nil => exact nofun
  | cons c cs =>
    intro found
    rw [word?] at found
    split at found
    case isTrue letter =>
      rw [List.takeWhile_cons_of_pos (by simp [Char.isAlphanum, letter])] at found
      cases found
    case isFalse => cases found

theorem number?_ne_nil : number? cs ≠ some (kind, []) := by
  intro found
  rw [number?] at found
  split at found
  case h_1 => simp at found
  case h_2 =>
    split at found
    case isTrue => cases found
    case isFalse digit =>
      split at found
      case h_1 => exact digit (Prod.mk.inj (Option.some.inj found)).2
      case h_2 => exact digit (List.append_eq_nil_iff.1 (Prod.mk.inj (Option.some.inj found)).2).1

theorem sign?_ne_nil : sign? cs ≠ some (kind, []) := by
  unfold sign?
  split <;> exact nofun

/-- A token has at least one character. -/
theorem first?_ne_nil : first? cs ≠ some (kind, []) := by
  intro found
  rw [first?] at found
  cases word : word? cs with
  | some token =>
    rw [word] at found
    exact word?_ne_nil (word.trans found)
  | none =>
    cases number : number? cs with
    | some token =>
      rw [word, number] at found
      exact number?_ne_nil (number.trans found)
    | none =>
      rw [word, number] at found
      exact sign?_ne_nil found

/-- The search in place goes as far as the token reaches. -/
theorem exists_reads (found : tokenEnd? p = some (kind, q)) :
    ∃ cs, first? (following p) = some (kind, cs) ∧ Reads p q cs := by
  have agree := agree_token p
  rw [found] at agree
  cases cut : first? (following p) with
  | none =>
    rw [cut] at agree
    cases agree
  | some token =>
    rw [cut] at agree
    cases agree with
    | some read => exact ⟨_, rfl, read⟩

theorem first?_eq_none (h : tokenEnd? p = none) : first? (following p) = none := by
  have agree := agree_token p
  rw [h] at agree
  cases cut : first? (following p) with
  | none => rfl
  | some token =>
    rw [cut] at agree
    cases agree

theorem remainingBytes_lt_of_tokenEnd? (found : tokenEnd? p = some (kind, q)) :
    q.remainingBytes < p.remainingBytes := by
  obtain ⟨cs, cut, read⟩ := exists_reads found
  have size : (String.ofList cs).utf8ByteSize ≠ 0 := by
    rw [ne_eq, String.utf8ByteSize_eq_zero_iff, String.ofList_eq_empty_iff]
    rintro rfl
    exact first?_ne_nil cut
  rw [read.remainingBytes_eq]
  omega

/-- The text of the source at a span; none if the span ends inside a character. -/
def textAt (s : String) (span : Span) : String :=
  match s.pos? ⟨span.start⟩, s.pos? ⟨span.stop⟩ with
  | some p, some q => s.extract p q
  | _, _ => ""

theorem textAt_of_reads (read : Reads p q cs) :
    textAt s ⟨p.offset.byteIdx, q.offset.byteIdx⟩ = String.ofList cs := by
  rw [textAt, show s.pos? ⟨p.offset.byteIdx⟩ = some p from pos?_offset p,
    show s.pos? ⟨q.offset.byteIdx⟩ = some q from pos?_offset q]
  exact read.extract_eq

theorem textAt_empty (n : Nat) : textAt s ⟨n, n⟩ = "" := by
  rw [textAt]
  cases s.pos? ⟨n⟩ with
  | none => rfl
  | some p => exact (Reads.refl p).extract_eq

/-- The tokens from a position to the end. -/
def scanAt (p : s.Pos) : Except SyntaxError (List Token) :=
  let start := blanksEnd longRow p
  if h : start = s.endPos then .ok []
  else
    match _found : tokenEnd? start with
    | none =>
      let span := Span.ofRange start.offset.byteIdx (start.next h).offset.byteIdx
      .error (.invalidToken (String.singleton (start.get h)) span)
    | some (kind, stop) => do
      let rest ← scanAt stop
      let span := Span.ofRange start.offset.byteIdx stop.offset.byteIdx
      return ⟨kind, textAt s span, span⟩ :: rest
termination_by p.remainingBytes
decreasing_by
  rw [(reads_rowEnd isBlank p).remainingBytes_eq, ← blanksEnd_eq longRow]
  exact Nat.lt_add_left _ (remainingBytes_lt_of_tokenEnd? ‹_›)

end

/-- Up to this size a text is scanned as a list of its characters. -/
def listedSize : Nat := 65536

/-- The tokens of a source text. -/
def scan (source : String) : Except SyntaxError (List Token) :=
  if source.utf8ByteSize ≤ listedSize then scanFrom 0 0 source.toList else scanAt source.startPos

end Token
end Reckon
