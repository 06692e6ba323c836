import Reckon.Proofs.LongestMatch
import Reckon.Proofs.LongSources
import Reckon.Proofs.Term

/-!
Writing between tokens. A source can be parted where one token has ended and the next one has not
begun. A parenthesis written there is a token of its own: it is part of no longer token, so the
tokens before it are still the longest at their places, and those behind it are what they were.
-/

namespace Reckon
namespace Token

/-- Where `rest` comes behind it, all of the text is cut into pieces of these kinds and texts, and
blanks. -/
inductive Cuts (rest : List Char) : List Char → List (TokenKind × String) → Prop where
  | done : Cuts rest [] []
  | blank {c : Char} {used : List Char} {pieces : List (TokenKind × String)}
      (blank : isBlank c = true) (next : Cuts rest used pieces) : Cuts rest (c :: used) pieces
  | token {text used : List Char} {kind : TokenKind} {pieces : List (TokenKind × String)}
      (cut : first? (text ++ (used ++ rest)) = some (kind, text)) (next : Cuts rest used pieces) :
      Cuts rest (text ++ used) ((kind, String.ofList text) :: pieces)

/-- The character stands in no token but its own. -/
def Stands (c : Char) : Prop := ∀ text, IsLexeme text → c ∈ text → text = [c]

section
variable {c : Char} {cs text used rest behind e : List Char} {kind : TokenKind} {offset : Nat}
  {pieces ps qs : List (TokenKind × String)} {p : TokenKind × String}

theorem Spells.kind_unique {kind' : TokenKind} (h : Spells kind text) (h' : Spells kind' text) :
    kind = kind' := by
  have cut : first? (text ++ []) = some (kind, text) := first?_append h nofun
  have cut' : first? (text ++ []) = some (kind', text) := first?_append h' nofun
  exact (Prod.mk.inj (Option.some.inj (cut.symm.trans cut'))).1

/-- There is only one longest token, so it is the one that is cut off. -/
theorem first?_of_longest (longest : Longest text cs) (spelled : Spells kind text) :
    first? cs = some (kind, text) := by
  cases cut : first? cs with
  | none => exact absurd longest.lexeme (not_isLexeme_of_first? cut longest.front)
  | some found =>
    obtain ⟨kind', text'⟩ := found
    have longest' := first?_longest cut
    have length : text'.length = text.length :=
      Nat.le_antisymm (longest.greatest _ longest'.front longest'.lexeme)
        (longest'.greatest _ longest.front longest.lexeme)
    obtain rfl : text' = text :=
      (List.prefix_of_prefix_length_le longest'.front longest.front
        (Nat.le_of_eq length)).eq_of_length length
    rw [(first?_spells cut).kind_unique spelled]

/-- A character that stands by itself can follow a text in place of what follows it. -/
theorem first?_stands (stands : Stands c)
    (cut : first? (text ++ (used ++ rest)) = some (kind, text)) :
    first? (text ++ (used ++ c :: behind)) = some (kind, text) := by
  have longest := first?_longest cut
  have spelled := first?_spells cut
  refine first?_of_longest ⟨List.prefix_append _ _, longest.lexeme, ?_⟩ spelled
  rintro other ⟨others, split⟩ lexeme
  have within (inside : other <+: text ++ used) : other.length ≤ text.length := by
    refine longest.greatest other ?_ lexeme
    rw [← List.append_assoc]
    exact inside.trans (List.prefix_append _ _)
  rw [← List.append_assoc] at split
  rcases List.append_eq_append_iff.1 split with ⟨tail, eq, _⟩ | ⟨tail, rfl, eq⟩
  · exact within ⟨tail, eq.symm⟩
  · cases tail with
    | nil => exact within (by simp)
    | cons d tail =>
      -- What is longer than the text and what is used after it holds the character.
      obtain ⟨rfl, _⟩ := List.cons.inj eq
      have one := congrArg List.length (stands _ lexeme (by simp))
      have pos := List.length_pos_iff.2 spelled.ne_nil
      simp only [List.length_append, List.length_cons, List.length_nil] at one ⊢
      omega

theorem Cuts.stands (stands : Stands c) (h : Cuts rest used pieces) :
    Cuts (c :: behind) used pieces := by
  induction h with
  | done => exact .done
  | blank blank _ ih => exact .blank blank ih
  | token cut _ ih => exact .token (first?_stands stands cut) ih

theorem Cuts.append (h : Cuts (cs ++ rest) used ps) (next : Cuts rest cs qs) :
    Cuts rest (used ++ cs) (ps ++ qs) := by
  induction h with
  | done => exact next
  | blank blank _ ih => exact .blank blank ih
  | token cut _ ih =>
    rw [List.append_assoc]
    refine .token ?_ ih
    rwa [List.append_assoc]

/-- One part after the other, up to the end. -/
theorem Cuts.followed (h : Cuts cs used ps) (next : Cuts [] cs qs) :
    Cuts [] (used ++ cs) (ps ++ qs) := by
  rw [← List.append_nil cs] at h
  exact h.append next

theorem Cuts.cons (cut : first? (p.2.toList ++ (used ++ rest)) = some (p.1, p.2.toList))
    (next : Cuts rest used ps) : Cuts rest (p.2.toList ++ used) (p :: ps) := by
  have token := Cuts.token cut next
  rwa [String.ofList_toList] at token

theorem Cuts.char (cut : first? (c :: (used ++ rest)) = some (kind, [c]))
    (next : Cuts rest used ps) : Cuts rest (c :: used) ((kind, String.ofList [c]) :: ps) :=
  @Cuts.token rest [c] used kind ps cut next

theorem Cuts.spaces (n : Nat) : Cuts rest (spaces n).toList [] := by
  rw [Token.spaces, String.toList_ofList]
  induction n with
  | zero => exact .done
  | succ n ih => exact .blank rfl ih

theorem Cuts.single (cut : first? (p.2.toList ++ rest) = some (p.1, p.2.toList)) :
    Cuts rest p.2.toList [p] := by
  have whole : Cuts rest (p.2.toList ++ []) [p] := .cons cut .done
  rwa [List.append_nil] at whole

/-- The text is parted before and behind one of the pieces. -/
theorem Cuts.part (h : Cuts rest cs (ps ++ p :: qs)) :
    ∃ before after, cs = before ++ (p.2.toList ++ after) ∧
      Cuts (p.2.toList ++ (after ++ rest)) before ps ∧
      first? (p.2.toList ++ (after ++ rest)) = some (p.1, p.2.toList) ∧ Cuts rest after qs := by
  generalize eq : ps ++ p :: qs = all at h
  induction h generalizing ps with
  | done => simp at eq
  | @blank c _ _ blank _ ih =>
    obtain ⟨before, after, rfl, front, cut, back⟩ := ih eq
    exact ⟨c :: before, after, rfl, .blank blank front, cut, back⟩
  | @token text used kind pieces cut next ih =>
    cases ps with
    | nil =>
      cases eq
      rw [String.toList_ofList]
      exact ⟨[], used, rfl, .done, cut, next⟩
    | cons q ps =>
      cases eq
      obtain ⟨before, after, rfl, front, cut', back⟩ := ih rfl
      refine ⟨text ++ before, after, by simp, .token ?_ front, cut', back⟩
      simpa using cut

/-- The text is parted before and behind a row of pieces, with no blanks at the ends of what is
between. -/
theorem Cuts.part_row {row : List (TokenKind × String)} (some : row ≠ [])
    (h : Cuts rest cs (ps ++ (row ++ qs))) :
    ∃ before middle after, cs = before ++ (middle ++ after) ∧
      Cuts (middle ++ (after ++ rest)) before ps ∧ Cuts (after ++ rest) middle row ∧
      Cuts rest after qs ∧ (∀ p ∈ row.head?, p.2.toList <+: middle) ∧
      ∀ p ∈ row.getLast?, p.2.toList <:+ middle := by
  cases row with
  | nil => exact absurd rfl some
  | cons first others =>
    rw [List.cons_append] at h
    obtain ⟨before, after, rfl, front, cut, back⟩ := h.part
    rcases others.eq_nil_or_concat' with rfl | ⟨inner, last, rfl⟩
    · exact ⟨before, first.2.toList, after, rfl, front, .single cut, back, by simp, by simp⟩
    · rw [List.append_assoc] at back
      obtain ⟨between, after, rfl, inside, cut', back⟩ := back.part
      have others := inside.append (.single cut')
      refine ⟨before, first.2.toList ++ (between ++ last.2.toList), after, by simp,
        by simpa using front, .cons (by simpa using cut) others, back, by simp, ?_⟩
      rw [← List.cons_append, List.getLast?_concat]
      rintro p ⟨⟩
      exact ⟨first.2.toList ++ between, by simp⟩

/-- Scanning cuts a text into the pieces it returns as tokens. -/
theorem cuts_of_scanFrom {toks : List Token}
    (fits : offset + (String.ofList cs).utf8ByteSize ≤ Span.maxOffset)
    (h : scanFrom offset 0 cs = .ok toks) : Cuts [] cs (toks.map piece) := by
  -- A token is passed over whole, so the induction is on the length of what is left.
  induction size : cs.length using Nat.strongRecOn generalizing offset cs toks with
  | ind n ih =>
    cases cs with
    | nil =>
      cases h
      exact .done
    | cons c cs =>
      by_cases blank : isBlank c = true
      · rw [scanFrom_blank blank] at h
        rw [size_cons, ← Nat.add_assoc] at fits
        exact .blank blank (ih cs.length (by rw [← size]; exact Nat.lt_succ_self _) fits h rfl)
      · cases cut : first? (c :: cs) with
        | none =>
          rw [scanFrom, if_neg blank, cut] at h
          cases h
        | some found =>
          obtain ⟨kind, text⟩ := found
          obtain ⟨rest, split⟩ := first?_isPrefix cut
          obtain ⟨d, ds, rfl, _⟩ := (first?_spells cut).exists_cons
          rw [← split] at cut h size fits ⊢
          rw [scanFrom_cut cut] at h
          obtain ⟨toks, scanned, ⟨⟩⟩ := bind_eq_ok.1 h
          rw [List.length_append, List.length_cons] at size
          rw [String.ofList_append, String.utf8ByteSize_append] at fits
          have token : first? (d :: ds ++ (rest ++ [])) = some (kind, d :: ds) := by
            rwa [List.append_nil]
          rw [List.map_cons, placed_of_le (by omega)]
          exact .token token (ih rest.length (by omega) (by omega) scanned rfl)

theorem Cuts.exists_scanFrom (h : Cuts [] cs pieces)
    (fits : offset + (String.ofList cs).utf8ByteSize ≤ Span.maxOffset) :
    ∃ toks, scanFrom offset 0 cs = .ok toks ∧ toks.map piece = pieces := by
  induction h generalizing offset with
  | done => exact ⟨[], rfl, rfl⟩
  | blank blank _ ih =>
    rw [size_cons, ← Nat.add_assoc] at fits
    rw [scanFrom_blank blank]
    exact ih fits
  | @token text used kind pieces cut next ih =>
    rw [List.append_nil] at cut
    rw [String.ofList_append, String.utf8ByteSize_append, ← Nat.add_assoc] at fits
    obtain ⟨toks, scanned, rfl⟩ := ih fits
    rw [scanFrom_cut cut]
    dsimp only
    rw [scanned, placed_of_le (by omega)]
    exact ⟨_, rfl, rfl⟩

/-- The texts of terminals are written with letters, digits and the marks of numbers. -/
theorem Spells.textual {k : Grammar.Terminal} (h : Spells k.kind text) :
    ∀ c ∈ text, c.isAlphanum = true ∨ c ∈ numberMarks := by
  have digit {c : Char} (digit : c.isDigit = true) : c.isAlphanum = true := by
    simp [Char.isAlphanum, digit]
  have keyword {word : String} (all : word.toList.all Char.isAlphanum = true)
      (same : some word = some (String.ofList text)) : ∀ c ∈ text, c.isAlphanum = true := by
    rw [Option.some.inj same, String.toList_ofList] at all
    exact List.all_eq_true.1 all
  intro c mem
  cases k with
  | varName => exact .inl (h.1.isAlphanum c mem)
  | int => exact .inl (digit (h.2 c mem))
  | signedFloat => exact (IsFloat.mem_numberMarks h c mem).imp_left digit
  | true => exact .inl (keyword (by decide) h c mem)
  | false => exact .inl (keyword (by decide) h c mem)

/-- A character of neither words nor numbers stands by itself, if it does so among the tokens of one
spelling. -/
theorem stands_of_fixed (word : c.isAlphanum = false) (number : c ∉ numberMarks)
    (fixed : ∀ kind : TokenKind, ∀ s, kind.spelling? = some s → c ∈ s.toList → s.toList = [c]) :
    Stands c := by
  intro text lexeme mem
  obtain ⟨kind, spelled⟩ := isLexeme_iff.1 lexeme
  have digit : c.isDigit = false := by
    simp only [Char.isAlphanum, Bool.or_eq_false_iff] at word
    exact word.2
  have sign (h : kind.spelling? = some (String.ofList text)) : text = [c] := by
    have only := fixed kind _ h
    rw [String.toList_ofList] at only
    exact only mem
  cases kind with
  | name =>
    rw [spelled.1.isAlphanum c mem] at word
    cases word
  | int =>
    have digits : IsDigits text := spelled
    rw [digits.2 c mem] at digit
    cases digit
  | float =>
    have float : IsFloat text := spelled
    rcases float.mem_numberMarks c mem with isDigit | mark
    · rw [isDigit] at digit
      cases digit
    · exact absurd mark number
  | _ => exact sign spelled

theorem stands_paren (paren : c = '(' ∨ c = ')') : Stands c := by
  refine stands_of_fixed ?_ ?_ fun kind s spelling mem => ?_
  · rcases paren with rfl | rfl <;> rfl
  · rcases paren with rfl | rfl <;> decide
  · rcases paren with rfl | rfl <;> cases kind with
    | relation op => cases op <;> cases spelling <;> revert mem <;> decide
    | _ => cases spelling <;> revert mem <;> decide

end

end Token

open Token

/-- A source of the tokens `pre`, `mid` and `post`, parted before and behind `mid`. -/
structure Parting (source : String) (pre mid post : List Token) where
  before : String
  middle : String
  behind : String
  whole : source = before ++ middle ++ behind
  cutBefore : Cuts (middle ++ behind).toList before.toList (pre.map piece)
  cutMiddle : Cuts behind.toList middle.toList (mid.map piece)
  cutBehind : Cuts [] behind.toList (post.map piece)

namespace Parting

section
variable {source : String} {pre mid post : List Token}

/-- It is parted right before the first token of `mid` and right behind the last. -/
def IsTight (p : Parting source pre mid post) : Prop :=
  (∀ t ∈ mid.head?, t.text.toList <+: p.middle.toList) ∧
    ∀ t ∈ mid.getLast?, t.text.toList <:+ p.middle.toList

/-- The source with parentheses written at the two places. -/
def enclosed (p : Parting source pre mid post) : String :=
  p.before ++ "(" ++ p.middle ++ ")" ++ p.behind

theorem size_enclosed (p : Parting source pre mid post) :
    p.enclosed.utf8ByteSize = source.utf8ByteSize + 2 := by
  have paren : "(".utf8ByteSize = 1 ∧ ")".utf8ByteSize = 1 := by decide
  simp only [enclosed, p.whole, String.utf8ByteSize_append, paren]
  omega

theorem exists_tight (small : source.utf8ByteSize ≤ Span.maxOffset)
    (scanned : scan source = .ok (pre ++ mid ++ post)) (some : mid ≠ []) :
    ∃ p : Parting source pre mid post, p.IsTight := by
  rw [scan_eq] at scanned
  have cuts := cuts_of_scanFrom (by rwa [String.ofList_toList, Nat.zero_add]) scanned
  rw [List.append_assoc, List.map_append, List.map_append] at cuts
  obtain ⟨before, middle, behind, split, front, between, back, first, last⟩ :=
    cuts.part_row (by simpa using some)
  rw [List.append_nil] at front between
  refine ⟨⟨String.ofList before, String.ofList middle, String.ofList behind, ?_, ?_, ?_, ?_⟩,
    ?_, ?_⟩
  · rw [← String.toList_inj, split]
    simp
  · simpa using front
  · simpa using between
  · simpa using back
  · intro t mem
    rw [String.toList_ofList]
    exact first t.piece (by simp [Option.mem_def.1 mem])
  · intro t mem
    rw [String.toList_ofList]
    exact last t.piece (by simp [Option.mem_def.1 mem])

/-- The enclosed source has the same tokens and the two parentheses. -/
theorem scan_enclosed (p : Parting source pre mid post)
    (small : p.enclosed.utf8ByteSize ≤ Span.maxOffset) :
    ∃ toks, scan p.enclosed = .ok toks ∧ toks.map piece =
      pre.map piece ++ (Term.enclosed .leftParen (mid.map piece) .rightParen ++ post.map piece) := by
  have closing : Cuts [] (')' :: p.behind.toList) ((.rightParen, ")") :: post.map piece) :=
    .char rfl p.cutBehind
  have inner := (p.cutMiddle.stands (stands_paren (.inr rfl))).followed closing
  have opening : Cuts [] ('(' :: (p.middle.toList ++ ')' :: p.behind.toList))
      ((.leftParen, "(") :: (mid.map piece ++ (.rightParen, ")") :: post.map piece)) :=
    .char rfl inner
  have whole := (p.cutBefore.stands (stands_paren (.inl rfl))).followed opening
  have chars : p.enclosed.toList = p.before.toList ++
      '(' :: (p.middle.toList ++ ')' :: p.behind.toList) := by
    simp [enclosed]
  rw [← chars] at whole
  obtain ⟨toks, scanned, pieces⟩ :=
    whole.exists_scanFrom (show 0 + _ ≤ _ by rwa [String.ofList_toList, Nat.zero_add])
  rw [← scan_eq] at scanned
  refine ⟨toks, scanned, ?_⟩
  rw [pieces]
  simp [Term.enclosed, Term.sign, TokenKind.spelling?]

end

end Parting
end Reckon
