import Reckon.Proofs.MovedParsing
import Reckon.Proofs.Tokenization

/-!
Layout does not matter. Texts of tokens, written down with blanks between them, are scanned as the
tokens they are, at the places where they were written. Two sources of the same kinds and texts are
read alike from any start: as trees that differ only in the places of their terminals, or up to the
same token, with the same error there.
-/

namespace Reckon

open Token Grammar

/-- A text of a kind of tokens, with the blanks written before it. -/
structure Item where
  gap : String
  kind : TokenKind
  text : String
  blank : AllBlank gap.toList
  spelled : Spells kind text.toList

/-- The texts with the blanks before them, and `tail` behind the last. -/
def textOf (tail : String) : List Item → String
  | [] => tail
  | i :: is => i.gap ++ i.text ++ textOf tail is

/-- The tokens at the places where they are written, beginning `offset` bytes into a source. -/
def tokensAt : (offset : Nat) → List Item → List Token
  | _, [] => []
  | offset, i :: is =>
    let start := offset + i.gap.utf8ByteSize
    let stop := start + i.text.utf8ByteSize
    ⟨i.kind, i.text, ⟨start, stop⟩⟩ :: tokensAt stop is

/-- A way of writing tokens down: some blanks between any two, and perhaps blanks at both ends. -/
structure Layout where
  items : List Item
  tail : String
  blank : AllBlank tail.toList
  apart : ∀ i ∈ items.tail, i.gap ≠ ""

namespace Layout

variable (l : Layout)

def source : String := textOf l.tail l.items

def tokens : List Token := tokensAt 0 l.items

def pieces : List (TokenKind × String) := l.items.map fun i => (i.kind, i.text)

end Layout

section
variable {items : List Item} {tail : String} {offset : Nat}

theorem map_piece_tokensAt :
    (tokensAt offset items).map piece = items.map fun i => (i.kind, i.text) := by
  induction items generalizing offset with
  | nil => rfl
  | cons i is ih =>
    rw [tokensAt, List.map_cons, List.map_cons, ih]
    rfl

theorem apart_textOf (blank : AllBlank tail.toList) (apart : ∀ i ∈ items, i.gap ≠ "") :
    Apart (textOf tail items).toList := by
  cases items with
  | nil => exact fun c mem => blank c (List.mem_of_head? mem)
  | cons i is =>
    have blank := i.blank
    have some : i.gap.toList ≠ [] := by simpa using apart i (List.mem_cons_self ..)
    rw [textOf, String.toList_append, String.toList_append, List.append_assoc]
    cases gap : i.gap.toList with
    | nil => exact absurd gap some
    | cons c cs =>
      rw [gap] at blank
      intro d mem
      cases mem
      exact blank c (List.mem_cons_self ..)

theorem scanFrom_textOf (blank : AllBlank tail.toList) (apart : ∀ i ∈ items.tail, i.gap ≠ "")
    (fits : offset + (textOf tail items).utf8ByteSize ≤ Span.maxOffset) :
    scanFrom offset 0 (textOf tail items).toList = .ok (tokensAt offset items) := by
  induction items generalizing offset with
  | nil =>
    have blanks : scanFrom offset 0 (tail.toList ++ []) = .ok [] := by
      rw [scanFrom_blanks blank]
      rfl
    rwa [List.append_nil] at blanks
  | cons i is ih =>
    have size : (textOf tail (i :: is)).utf8ByteSize =
        i.gap.utf8ByteSize + i.text.utf8ByteSize + (textOf tail is).utf8ByteSize := by
      rw [textOf, String.utf8ByteSize_append, String.utf8ByteSize_append]
    have behind := @ih (offset + i.gap.utf8ByteSize + (String.ofList i.text.toList).utf8ByteSize)
      (fun j mem => apart j (List.mem_of_mem_tail mem)) (by rw [String.ofList_toList]; omega)
    have follows : Apart (textOf tail is).toList := apart_textOf blank apart
    have token := scanFrom_append i.spelled follows behind
    rw [placed_of_le (by rw [String.ofList_toList]; omega), String.ofList_toList] at token
    rw [textOf, String.toList_append, String.toList_append, List.append_assoc,
      scanFrom_blanks i.blank, String.ofList_toList, token]
    rfl

end

/-- The tree without the places of its terminals. -/
def Tree.unplaced (t : Tree) : Tree := t.move fun _ => Span.unplaced

/-- The error without its place. -/
def SyntaxError.unplaced : SyntaxError → SyntaxError
  | .invalidToken text _ => .invalidToken text Span.unplaced
  | .unexpectedToken found expected _ => .unexpectedToken found expected Span.unplaced
  | .unexpectedEnd expected _ => .unexpectedEnd expected Span.unplaced
  | .nestingTooDeep limit _ => .nestingTooDeep limit Span.unplaced

/-- The place of the token with a number; behind the last token, the end of the source. -/
def placeOf (toks : List Token) (sourceSize n : Nat) : Span :=
  (toks[n]?).elim (Span.point sourceSize) Token.span

/-- The number of the token at which there is a refusal, where `count` is the number of tokens. -/
def Grammar.Refusal.index (count : Nat) (r : Refusal) : Nat :=
  r.ahead.head?.elim count (·.span.start)

section
variable {source : String} {toks : List Token} {start : Start} {limit size n : Nat} {r : Refusal}

theorem Tree.move_move (f g : Span → Span) (t : Tree) :
    (t.move f).move g = t.move fun s => g (f s) := by
  induction t using Tree.induction with
  | terminal kind text span => simp
  | rule name children ih => simpa using ih

theorem Tree.unplaced_move (g : Span → Span) (t : Tree) : (t.move g).unplaced = t.unplaced :=
  move_move ..

/-- Where the tokens are, and where the source ends, does not tell one error from the other. -/
theorem unplaced_toError {size' : Nat} (f g : Span → Span) :
    ((r.move f).toError limit size).unplaced = ((r.move g).toError limit size').unplaced := by
  obtain ⟨_, _ | ⟨_, _⟩⟩ | ⟨_ | ⟨_, _⟩⟩ := r <;> rfl

theorem span_toError (given : ∀ t ∈ r.ahead, t.span.start < toks.length) :
    ((r.move (placeIn toks)).toError limit size).span =
      placeOf toks size (r.index toks.length) := by
  have atEnd : placeOf toks size toks.length = Span.point size := by simp [placeOf]
  have atToken {t : Token} (mem : t ∈ r.ahead) :
      placeIn toks t.span = placeOf toks size t.span.start := by
    rw [placeIn, placeOf, List.getElem?_eq_getElem (given t mem)]
    rfl
  obtain ⟨_, _ | ⟨t, _⟩⟩ | ⟨_ | ⟨t, _⟩⟩ := r
  · exact atEnd.symm
  · exact atToken (List.mem_cons_self ..)
  · exact atEnd.symm
  · exact atToken (List.mem_cons_self ..)

theorem index_le (given : ∀ t ∈ r.ahead, t.span.start < n) : r.index n ≤ n := by
  rw [Refusal.index]
  cases first : r.ahead.head? with
  | none => exact Nat.le_refl n
  | some t => exact Nat.le_of_lt (given t (List.mem_of_head? first))

/-- What is read from a source is what is read from its tokens with their numbers for places. -/
theorem parse_eq_numbered (scanned : scan source = .ok toks) :
    parse source start limit =
      (moveResult (placeIn toks) (Tree.move (placeIn toks))
        (parseTokens start limit (numbered (toks.map piece)))).mapError
          (·.toError limit source.utf8ByteSize) := by
  rw [parse, scanned, ok_bind, ← parseTokens_move, map_numbered]

end

/-- Tokens written down in any layout are scanned as they were written. Two sources with tokens of
the same kinds, and with the same texts at their spans, are read as the same tree up to places, or
both are refused for the same reason at the token of the same number. -/
theorem layout_irrelevant :
    (∀ l : Layout, l.source.utf8ByteSize ≤ Span.maxOffset →
      scan l.source = .ok l.tokens ∧ l.tokens.map piece = l.pieces) ∧
    ∀ source source' toks toks', scan source = .ok toks → scan source' = .ok toks' →
      toks.map piece = toks'.map piece → ∀ start limit,
        (∃ t t', parse source start limit = .ok t ∧ parse source' start limit = .ok t' ∧
          t.unplaced = t'.unplaced) ∨
        ∃ e e', parse source start limit = .error e ∧ parse source' start limit = .error e' ∧
          e.unplaced = e'.unplaced ∧ ∃ n ≤ toks.length,
            e.span = placeOf toks source.utf8ByteSize n ∧
            e'.span = placeOf toks' source'.utf8ByteSize n := by
  constructor
  · intro l small
    rw [scan_eq]
    refine ⟨scanFrom_textOf l.blank l.apart ?_, map_piece_tokensAt⟩
    rwa [Nat.zero_add]
  · intro source source' toks toks' scanned scanned' same start limit
    have count : toks.length = toks'.length := by
      simpa using congrArg List.length same
    rw [parse_eq_numbered scanned, parse_eq_numbered scanned', ← same]
    cases read : parseTokens start limit (numbered (toks.map piece)) with
    | ok t =>
      refine .inl ⟨_, _, rfl, rfl, ?_⟩
      rw [Tree.unplaced_move, Tree.unplaced_move]
    | error r =>
      have given : ∀ t ∈ r.ahead, t.span.start < toks.length := fun t mem => by
        simpa using lt_length_of_refused read mem
      refine .inr ⟨_, _, rfl, rfl, unplaced_toError _ _, r.index toks.length, index_le given,
        span_toError given, ?_⟩
      rw [count] at given ⊢
      exact span_toError given

/-- A number and a name that would be a float without the blank between them. -/
def numberAndName : Layout where
  items := [
    { gap := "\r", kind := .int, text := "1", blank := List.all_eq_true.1 rfl,
      spelled := ⟨by decide, List.all_eq_true.1 rfl⟩ },
    { gap := "\t", kind := .name, text := "e5", blank := List.all_eq_true.1 rfl,
      spelled := ⟨⟨by decide, List.all_eq_true.1 rfl⟩, by decide⟩ }]
  tail := " "
  blank := List.all_eq_true.1 rfl
  apart := by decide

theorem layout_irrelevant_number_and_name :
    (scan "\r1\te5 " = .ok [⟨.int, "1", ⟨1, 2⟩⟩, ⟨.name, "e5", ⟨3, 5⟩⟩] ∧
      [⟨.int, "1", ⟨1, 2⟩⟩, ⟨.name, "e5", ⟨3, 5⟩⟩].map piece = [(.int, "1"), (.name, "e5")]) ∧
    ∃ toks toks', scan "1 e5" = .ok toks ∧ scan "\r1\te5 " = .ok toks' ∧
      ((∃ t t', parse "1 e5" .expression 100 = .ok t ∧ parse "\r1\te5 " .expression 100 = .ok t' ∧
        t.unplaced = t'.unplaced) ∨
      ∃ e e', parse "1 e5" .expression 100 = .error e ∧
        parse "\r1\te5 " .expression 100 = .error e' ∧ e.unplaced = e'.unplaced ∧
        ∃ n ≤ toks.length, e.span = placeOf toks 4 n ∧ e'.span = placeOf toks' 6 n) :=
  ⟨layout_irrelevant.1 numberAndName (by decide), _, _, rfl, rfl,
    layout_irrelevant.2 "1 e5" "\r1\te5 " _ _ rfl rfl rfl .expression 100⟩

end Reckon
