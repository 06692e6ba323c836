import Reckon.Proofs.Sequence
import Reckon.Proofs.Spelling
import Reckon.Token.InPlace

/-!
The scanner as a whole. What is cut off at the front becomes the next token. Up to the largest offset
of a span a token has all of the text it was made of, so texts written one after the other with
spaces between them are returned as they are; farther on only their kinds are sure to be.
-/

namespace Reckon
namespace Token

/-- A token without its place. -/
def piece (t : Token) : TokenKind × String := (t.kind, t.text)

section
variable {cs text rest : List Char} {kind : TokenKind} {c : Char} {offset skip : Nat}

theorem first?_blank (blank : isBlank c = true) : first? (c :: cs) = none := by
  rcases eq_of_isBlank blank with rfl | rfl | rfl <;> rfl

/-- A token has a first character, which is not blank. -/
theorem Spells.exists_cons (h : Spells kind text) :
    ∃ c cs, text = c :: cs ∧ isBlank c = false := by
  have cut : first? (text ++ []) = some (kind, text) := first?_append h (by simp [Apart])
  rw [List.append_nil] at cut
  cases text with
  | nil => cases cut
  | cons c cs =>
    refine ⟨c, cs, rfl, ?_⟩
    cases blank : isBlank c with
    | false => rfl
    | true =>
      rw [first?_blank blank] at cut
      cases cut

theorem Spells.ne_nil (h : Spells kind text) : text ≠ [] := by
  obtain ⟨_, _, rfl, _⟩ := h.exists_cons
  exact List.cons_ne_nil _ _

theorem scanFrom_blank (blank : isBlank c = true) :
    scanFrom offset 0 (c :: cs) = scanFrom (offset + c.utf8Size) 0 cs := by
  rw [scanFrom, if_pos blank]

theorem size_cons :
    (String.ofList (c :: cs)).utf8ByteSize = c.utf8Size + (String.ofList cs).utf8ByteSize := by
  rw [String.ofList_cons, String.utf8ByteSize_append, String.utf8ByteSize_singleton]

theorem length_le_size (cs : List Char) : cs.length ≤ (String.ofList cs).utf8ByteSize := by
  induction cs with
  | nil => exact Nat.le_refl 0
  | cons c cs ih =>
    rw [size_cons, List.length_cons, Nat.add_comm]
    exact Nat.add_le_add c.utf8Size_pos ih

theorem size_eq_length (ascii : ∀ c ∈ cs, c.utf8Size = 1) :
    (String.ofList cs).utf8ByteSize = cs.length := by
  induction cs with
  | nil => rfl
  | cons c cs ih =>
    obtain ⟨head, tail⟩ := List.forall_mem_cons.1 ascii
    rw [size_cons, head, ih tail, List.length_cons, Nat.add_comm]

theorem ofRange_of_le {start stop : Nat} (ordered : start ≤ stop) (fits : stop ≤ Span.maxOffset) :
    Span.ofRange start stop = ⟨start, stop⟩ := by
  rw [Span.ofRange, Nat.min_eq_left (Nat.le_trans ordered fits), Nat.min_eq_left fits]

/-- Up to the largest offset a token has all of its text. -/
theorem placed_of_le {chars : List Char}
    (fits : offset + (String.ofList chars).utf8ByteSize ≤ Span.maxOffset) :
    placed kind chars offset = ⟨kind, String.ofList chars,
      ⟨offset, offset + (String.ofList chars).utf8ByteSize⟩⟩ := by
  have whole : chars.length ≤
      (Span.mk offset (offset + (String.ofList chars).utf8ByteSize)).length := by
    rw [Span.length, Nat.add_sub_cancel_left]
    exact length_le_size chars
  rw [placed, ofRange_of_le (Nat.le_add_right _ _) fits, List.take_of_length_le whole]

/-- A token that begins before the largest offset has as many characters as there is room for. -/
theorem placed_of_ascii {chars : List Char} (ascii : ∀ c ∈ chars, c.utf8Size = 1)
    (inside : offset ≤ Span.maxOffset) :
    placed kind chars offset = ⟨kind, String.ofList (chars.take (Span.maxOffset - offset)),
      ⟨offset, offset + min (Span.maxOffset - offset) chars.length⟩⟩ := by
  have span : Span.ofRange offset (offset + (String.ofList chars).utf8ByteSize) =
      ⟨offset, offset + min (Span.maxOffset - offset) chars.length⟩ := by
    rw [size_eq_length ascii, Span.ofRange, Span.mk.injEq]
    omega
  rw [placed, span, Span.length, Nat.add_sub_cancel_left, ← List.take_eq_take_min]

/-- Beyond the largest offset a token has no text. -/
theorem placed_of_ge {chars : List Char} (beyond : Span.maxOffset ≤ offset) :
    placed kind chars offset = ⟨kind, "", ⟨Span.maxOffset, Span.maxOffset⟩⟩ := by
  have span : Span.ofRange offset (offset + (String.ofList chars).utf8ByteSize) =
      ⟨Span.maxOffset, Span.maxOffset⟩ := by
    rw [Span.ofRange, Nat.min_eq_right beyond,
      Nat.min_eq_right (Nat.le_trans beyond (Nat.le_add_right _ _))]
  rw [placed, span, Span.length, Nat.sub_self]
  rfl

theorem scanFrom_skip (text rest : List Char) (offset : Nat) :
    scanFrom offset text.length (text ++ rest) =
      scanFrom (offset + (String.ofList text).utf8ByteSize) 0 rest := by
  induction text generalizing offset with
  | nil => rfl
  | cons c cs ih => rw [List.length_cons, List.cons_append, scanFrom, ih, size_cons, Nat.add_assoc]

/-- Blanks are passed over. -/
theorem scanFrom_blanks {gap : List Char} (blank : ∀ c ∈ gap, isBlank c = true) (rest : List Char) :
    scanFrom offset 0 (gap ++ rest) =
      scanFrom (offset + (String.ofList gap).utf8ByteSize) 0 rest := by
  induction gap generalizing offset with
  | nil => rfl
  | cons c cs ih =>
    obtain ⟨head, tail⟩ := List.forall_mem_cons.1 blank
    rw [List.cons_append, scanFrom_blank head, ih tail, size_cons, Nat.add_assoc]

/-- What is cut off at the front is the next token, and scanning goes on behind it. -/
theorem scanFrom_cut (cut : first? (text ++ rest) = some (kind, text)) :
    scanFrom offset 0 (text ++ rest) = do
      let stop := offset + (String.ofList text).utf8ByteSize
      let toks ← scanFrom stop 0 rest
      return placed kind text offset :: toks := by
  obtain ⟨c, cs, rfl, notBlank⟩ := (first?_spells cut).exists_cons
  have behind := scanFrom_skip cs rest (offset + c.utf8Size)
  rw [Nat.add_assoc, ← size_cons] at behind
  rw [List.cons_append] at cut ⊢
  rw [scanFrom, if_neg (by simp [notBlank]), cut]
  dsimp only
  rw [List.length_cons, Nat.add_sub_cancel, behind]

section
variable {s : String} {p q : s.Pos}

/-- The text at the span of a token is the text of the token. -/
theorem placed_of_reads (spelled : Spells kind cs) (read : Reads p q cs) :
    placed kind cs p.offset.byteIdx =
      let span := Span.ofRange p.offset.byteIdx q.offset.byteIdx
      ⟨kind, textAt s span, span⟩ := by
  have ascii := spelled.utf8Size
  rcases Nat.le_total p.offset.byteIdx Span.maxOffset with inside | beyond
  · -- As much of the token as there is room for ends at a position of the text.
    have front : following p = cs ++ following q := read
    have part := reads_nextn p (min (Span.maxOffset - p.offset.byteIdx) cs.length)
    rw [front, List.take_append_of_le_length (Nat.min_le_right _ _)] at part
    have text := textAt_of_reads part
    rw [part.offset_eq, size_eq_length fun c mem => ascii c (List.mem_of_mem_take mem),
      List.length_take, Nat.min_eq_left (Nat.min_le_right _ _), ← List.take_eq_take_min] at text
    have span : Span.ofRange p.offset.byteIdx q.offset.byteIdx =
        ⟨p.offset.byteIdx,
          p.offset.byteIdx + min (Span.maxOffset - p.offset.byteIdx) cs.length⟩ := by
      rw [read.offset_eq, size_eq_length ascii, Span.ofRange, Span.mk.injEq]
      omega
    rw [placed_of_ascii ascii inside, span, ← text]
  · rw [placed_of_ge beyond, read.offset_eq, Span.ofRange, Nat.min_eq_right beyond,
      Nat.min_eq_right (Nat.le_trans beyond (Nat.le_add_right _ _))]
    dsimp only
    rw [textAt_empty]

theorem scanFrom_blanksEnd (row : BlankRow) (p : s.Pos) :
    scanFrom p.offset.byteIdx 0 (following p) =
      scanFrom (blanksEnd row p).offset.byteIdx 0 (following (blanksEnd row p)) := by
  have blanks := reads_rowEnd isBlank p
  rw [show following p = _ from blanks, scanFrom_blanks (List.all_eq_true.1 List.all_takeWhile),
    ← blanks.offset_eq, blanksEnd_eq]

/-- In place the same tokens are found as in the list of the characters. -/
theorem scanAt_eq (p : s.Pos) : scanAt p = scanFrom p.offset.byteIdx 0 (following p) := by
  fun_induction scanAt p with
  | case1 p start stop =>
    rw [scanFrom_blanksEnd longRow, following_eq_nil.2 stop]
    rfl
  | case2 p start h none =>
    have visible : isBlank (start.get h) = false := get_blanksEnd h
    have refused := first?_eq_none none
    have front := following_eq_cons h
    rw [front] at refused
    rw [scanFrom_blanksEnd longRow]
    change _ = scanFrom start.offset.byteIdx 0 (following start)
    rw [front, scanFrom, if_neg (by simp [visible]), refused, ← offset_next h]
  | case3 p start h kind stop found ih =>
    obtain ⟨cs, cut, read⟩ := exists_reads found
    rw [scanFrom_blanksEnd longRow, ih]
    change _ = scanFrom start.offset.byteIdx 0 (following start)
    have front : following start = cs ++ following stop := read
    rw [front] at cut ⊢
    rw [scanFrom_cut cut, ← read.offset_eq, placed_of_reads (first?_spells cut) read]

end

/-- However a text is scanned, its tokens are those of the list of its characters. -/
theorem scan_eq (source : String) : scan source = scanFrom 0 0 source.toList := by
  rw [scan]
  split
  case isTrue => rfl
  case isFalse =>
    rw [scanAt_eq, following_startPos]
    rfl

/-- A text that nothing lengthens is cut off whole. -/
theorem scanFrom_append {toks : List Token} (h : Spells kind text) (apart : Apart rest)
    (behind : scanFrom (offset + (String.ofList text).utf8ByteSize) 0 rest = .ok toks) :
    scanFrom offset 0 (text ++ rest) = .ok (placed kind text offset :: toks) := by
  rw [scanFrom_cut (first?_append h apart)]
  dsimp only
  rw [behind]
  rfl

/-- A text with a space behind it is cut off, and so is the space. -/
theorem scanFrom_space {toks : List Token} (h : Spells kind text)
    (behind : scanFrom (offset + (String.ofList text).utf8ByteSize + 1) 0 rest = .ok toks) :
    scanFrom offset 0 (text ++ ' ' :: rest) = .ok (placed kind text offset :: toks) := by
  refine scanFrom_append h (by simp [Apart, isBlank]) ?_
  rw [scanFrom_blank rfl]
  exact behind

/-- Texts with single spaces between them are scanned as tokens of their kinds, with these texts as
far as spans reach. -/
theorem scanFrom_spaced {pieces : List (TokenKind × String)}
    (spelled : ∀ p ∈ pieces, Spells p.1 p.2.toList) :
    ∃ toks, scanFrom offset 0 ([' '].intercalate (pieces.map (·.2.toList))) = .ok toks ∧
      toks.map (·.kind) = pieces.map Prod.fst ∧
      (offset + (String.ofList ([' '].intercalate (pieces.map (·.2.toList)))).utf8ByteSize ≤
        Span.maxOffset → toks.map piece = pieces) := by
  induction pieces generalizing offset with
  | nil => exact ⟨[], rfl, rfl, fun _ => rfl⟩
  | cons p ps ih =>
    obtain ⟨head, tail⟩ := List.forall_mem_cons.1 spelled
    -- A token has the text it is made of where there is room for that.
    have own (fits : offset + (String.ofList p.2.toList).utf8ByteSize ≤ Span.maxOffset) :
        piece (placed p.1 p.2.toList offset) = p := by
      rw [placed_of_le fits, piece, String.ofList_toList]
    cases ps with
    | nil =>
      have scanned := scanFrom_append head (by simp [Apart])
        (show scanFrom (offset + _) 0 [] = .ok [] from rfl)
      rw [List.append_nil] at scanned
      rw [List.map_singleton, List.intercalate_singleton]
      exact ⟨_, scanned, rfl, fun fits => congrArg (fun p => [p]) (own fits)⟩
    | cons q ps =>
      obtain ⟨toks, scanned, kinds, texts⟩ :=
        @ih (offset + (String.ofList p.2.toList).utf8ByteSize + ' '.utf8Size) tail
      rw [List.map_cons, List.map_cons, List.intercalate_cons_cons, List.append_assoc]
      refine ⟨_, scanFrom_space head scanned,
        congrArg (p.1 :: ·) kinds, fun fits => ?_⟩
      rw [String.ofList_append, String.utf8ByteSize_append, List.singleton_append, size_cons] at fits
      rw [List.map_cons] at texts
      rw [List.map_cons, own (by omega), texts (by omega)]

/-- Texts with single spaces between them are scanned as the tokens they are. -/
theorem scan_spaced {pieces : List (TokenKind × String)}
    (spelled : ∀ p ∈ pieces, Spells p.1 p.2.toList) :
    ∃ toks, scan (" ".intercalate (pieces.map Prod.snd)) = .ok toks ∧
      toks.map (·.kind) = pieces.map Prod.fst ∧
      ((" ".intercalate (pieces.map Prod.snd)).utf8ByteSize ≤ Span.maxOffset →
        toks.map piece = pieces) := by
  have chars : (" ".intercalate (pieces.map Prod.snd)).toList =
      [' '].intercalate (pieces.map (·.2.toList)) := by
    rw [String.toList_intercalate, List.map_map]
    rfl
  have scanned := @scanFrom_spaced 0 pieces spelled
  rwa [← chars, String.ofList_toList, Nat.zero_add, ← scan_eq] at scanned

end

end Token
end Reckon
