import Reckon.Proofs.LongestMatch

/-!
Nothing is lost between tokens. A text is cut into tokens from the front, each of them the longest
at its place, and all that is left out is blank. Where scanning stops, it has come to a character
that is not blank and with which no token begins. Places are counted in the bytes of the text, which
are spelled out as `octets` to say what stands between the tokens.
-/

namespace Reckon
namespace Token

abbrev AllBlank (cs : List Char) : Prop := ∀ c ∈ cs, isBlank c = true

/-- The bytes of a row of characters. -/
def octets (cs : List Char) : List UInt8 := cs.flatMap String.utf8EncodeChar

/-- The bytes of blanks. -/
def blankOctets : List UInt8 := [0x20, 0x09, 0x0D]

/-- Beginning `offset` bytes into a source, `used` is cut into tokens, each with the blanks before
it. A token is the longest one at the front of what remains, and `rest` is part of that. -/
inductive Cut (rest : List Char) : (offset : Nat) → (used : List Char) → List Token → Prop where
  | done {offset : Nat} : Cut rest offset [] []
  | token {offset start stop : Nat} {gap text used : List Char} {kind : TokenKind}
      {toks : List Token} (blank : AllBlank gap) (longest : Longest text (text ++ (used ++ rest)))
      (spelled : Spells kind text) (begins : start = offset + (octets gap).length)
      (ends : stop = start + (octets text).length) (next : Cut rest stop used toks) :
      Cut rest offset (gap ++ (text ++ used)) (⟨kind, String.ofList text, ⟨start, stop⟩⟩ :: toks)

/-- What scanning a text comes to: tokens up to blanks at the end, or tokens up to a character that
begins none. -/
inductive Scanned (offset : Nat) (cs : List Char) : Except SyntaxError (List Token) → Prop where
  | all {used gap : List Char} {toks : List Token} (split : cs = used ++ gap)
      (cut : Cut gap offset used toks) (blank : AllBlank gap) : Scanned offset cs (.ok toks)
  | stuck {start : Nat} {used gap behind : List Char} {c : Char} {toks : List Token}
      (split : cs = used ++ (gap ++ c :: behind)) (cut : Cut (gap ++ c :: behind) offset used toks)
      (blank : AllBlank gap) (visible : isBlank c = false)
      (none : ∀ text, text <+: c :: behind → ¬IsLexeme text)
      (begins : start = offset + (octets (used ++ gap)).length) :
      Scanned offset cs
        (.error (.invalidToken (String.singleton c) ⟨start, start + c.utf8Size⟩))

section
variable {cs ds text gap used rest : List Char} {c : Char} {offset p : Nat} {b : UInt8}
  {toks : List Token} {t : Token}

theorem octets_append : octets (cs ++ ds) = octets cs ++ octets ds :=
  List.flatMap_append

theorem toUTF8_eq_octets (s : String) : s.toUTF8 = (octets s.toList).toByteArray := by
  have chars : s.toUTF8 = s.toList.utf8Encode := by
    rw [String.toUTF8_eq_toByteArray, ← String.toByteArray_ofList, String.ofList_toList]
  exact chars

theorem length_octets_toList (s : String) : (octets s.toList).length = s.utf8ByteSize := by
  rw [← String.size_toByteArray, ← String.toUTF8_eq_toByteArray, toUTF8_eq_octets,
    List.size_toByteArray]

theorem length_octets (cs : List Char) :
    (octets cs).length = (String.ofList cs).utf8ByteSize := by
  rw [← length_octets_toList, String.toList_ofList]

theorem getElem_toUTF8 (s : String) (inside : p < s.toUTF8.size) :
    (octets s.toList)[p]? = some s.toUTF8[p] := by
  have same := toUTF8_eq_octets s
  have size : p < (octets s.toList).length := by
    rw [← List.size_toByteArray, ← same]
    exact inside
  simp only [same, List.getElem_toByteArray, List.getElem?_eq_getElem size]

theorem octets_blank (blank : AllBlank gap) (mem : b ∈ octets gap) : b ∈ blankOctets := by
  obtain ⟨c, among, mem⟩ := List.mem_flatMap.1 mem
  rcases eq_of_isBlank (blank c among) with rfl | rfl | rfl <;>
    rw [List.mem_singleton.1 mem] <;> decide

theorem octets_pos (ne : cs ≠ []) : 0 < (octets cs).length := by
  cases cs with
  | nil => exact absurd rfl ne
  | cons c cs =>
    rw [length_octets, size_cons]
    exact Nat.lt_of_lt_of_le c.utf8Size_pos (Nat.le_add_right _ _)

/-- Blanks as far as they go, and a text that begins with none. -/
theorem exists_blanks (cs : List Char) :
    ∃ gap tail, cs = gap ++ tail ∧ AllBlank gap ∧ ∀ c ∈ tail.head?, isBlank c = false := by
  refine ⟨cs.takeWhile isBlank, cs.dropWhile isBlank, List.takeWhile_append_dropWhile.symm,
    List.all_eq_true.1 List.all_takeWhile, ?_⟩
  intro c mem
  have stop := List.head?_dropWhile_not isBlank cs
  rw [Option.mem_def.1 mem] at stop
  simpa using stop

/-- Scanning behind a token that was cut off, with blanks before it. -/
theorem Scanned.after {start stop : Nat} {kind : TokenKind}
    {result : Except SyntaxError (List Token)} (blank : AllBlank gap)
    (cut : first? (text ++ rest) = some (kind, text))
    (begins : start = offset + (octets gap).length)
    (ends : stop = start + (octets text).length) (h : Scanned stop rest result) :
    Scanned offset (gap ++ (text ++ rest))
      (result.map (⟨kind, String.ofList text, ⟨start, stop⟩⟩ :: ·)) := by
  have longest := first?_longest cut
  have spelled := first?_spells cut
  cases h with
  | all split next last =>
    subst split
    exact .all (by simp) (.token blank longest spelled begins ends next) last
  | stuck split next last visible none place =>
    subst split
    refine .stuck (by simp) (.token blank longest spelled begins ends next) last visible none ?_
    rw [place, ends, begins]
    simp only [octets_append, List.length_append]
    omega

/-- Scanning cuts off the longest tokens, one after the other. -/
theorem scanFrom_scanned (fits : offset + (octets cs).length ≤ Span.maxOffset) :
    Scanned offset cs (scanFrom offset 0 cs) := by
  -- Each step cuts off blanks and a token, so the induction is on the length of what is left.
  induction size : cs.length using Nat.strongRecOn generalizing offset cs with
  | ind n ih =>
    obtain ⟨gap, tail, rfl, blank, visible⟩ := exists_blanks cs
    rw [scanFrom_blanks blank, ← length_octets]
    simp only [octets_append, List.length_append] at fits
    cases tail with
    | nil => exact .all (List.nil_append _).symm .done (by simpa using blank)
    | cons c behind =>
      have solid : ¬isBlank c = true := by simp [visible c rfl]
      cases cut : first? (c :: behind) with
      | none =>
        have one : (octets (c :: behind)).length = c.utf8Size + (octets behind).length := by
          rw [length_octets, length_octets, size_cons]
        rw [scanFrom, if_neg solid, cut]
        dsimp only
        rw [ofRange_of_le (Nat.le_add_right _ _) (by omega)]
        exact .stuck (List.nil_append _).symm .done blank (visible c rfl)
          (fun _ => not_isLexeme_of_first? cut) rfl
      | some found =>
        obtain ⟨kind, text⟩ := found
        obtain ⟨rest, split⟩ := first?_isPrefix cut
        have pos := List.length_pos_iff.2 (first?_spells cut).ne_nil
        rw [← split] at cut fits size ⊢
        simp only [octets_append, List.length_append] at fits size
        have room : offset + (octets gap).length + (String.ofList text).utf8ByteSize ≤
            Span.maxOffset := by
          rw [← length_octets]
          omega
        rw [scanFrom_cut cut, placed_of_le room, ← length_octets]
        exact Scanned.after blank cut rfl rfl (ih rest.length (by omega) (by omega) rfl)

theorem scanned_scan {source : String} (small : source.utf8ByteSize ≤ Span.maxOffset) :
    Scanned 0 source.toList (scan source) := by
  rw [scan_eq]
  refine scanFrom_scanned ?_
  rwa [length_octets_toList, Nat.zero_add]

/-- The spans lie in the text that was cut, none of them empty. -/
theorem Cut.span_bounds (h : Cut rest offset used toks) : ∀ t ∈ toks,
    offset ≤ t.span.start ∧ t.span.start < t.span.stop ∧
      t.span.stop ≤ offset + (octets used).length := by
  induction h with
  | done => exact nofun
  | token blank longest spelled begins ends next ih =>
    have some := octets_pos spelled.ne_nil
    simp only [octets_append, List.length_append]
    refine List.forall_mem_cons.2 ⟨?_, ?_⟩
    · dsimp only
      omega
    · intro t mem
      have := ih t mem
      omega

theorem Cut.ordered (h : Cut rest offset used toks) :
    toks.Pairwise fun t u => t.span.stop ≤ u.span.start := by
  induction h with
  | done => exact .nil
  | token blank longest spelled begins ends next ih =>
    exact .cons (fun u mem => (next.span_bounds u mem).1) ih

/-- A byte that belongs to no token belongs to a blank. -/
theorem Cut.blank_outside (h : Cut rest offset used toks)
    (outside : ∀ t ∈ toks, ¬(t.span.start ≤ offset + p ∧ offset + p < t.span.stop))
    (byte : (octets used)[p]? = some b) : b ∈ blankOctets := by
  induction h generalizing p with
  | done => cases byte
  | @token offset start stop gap text used kind toks blank longest spelled begins ends next ih =>
    obtain ⟨notHere, notLater⟩ := List.forall_mem_cons.1 outside
    dsimp only at notHere
    rw [octets_append, octets_append] at byte
    -- The byte is not in the text of this token, so it is before it or in what is cut later.
    by_cases inGap : p < (octets gap).length
    · rw [List.getElem?_append_left inGap] at byte
      exact octets_blank blank (List.mem_of_getElem? byte)
    · have behind : (octets gap).length + (octets text).length ≤ p := by omega
      rw [List.getElem?_append_right (by omega), List.getElem?_append_right (by omega)] at byte
      refine ih (fun t mem => ?_) byte
      have place : stop + (p - (octets gap).length - (octets text).length) = offset + p := by
        omega
      rw [place]
      exact notLater t mem

/-- A token stands where its span says, and is the longest one there. -/
theorem Cut.mem (h : Cut rest offset used toks) (mem : t ∈ toks) :
    ∃ before behind, used = before ++ (t.text.toList ++ behind) ∧
      t.span.start = offset + (octets before).length ∧
      t.span.stop = t.span.start + t.text.utf8ByteSize ∧
      Longest t.text.toList (t.text.toList ++ (behind ++ rest)) ∧ Spells t.kind t.text.toList := by
  induction h with
  | done => cases mem
  | @token offset start stop gap text used kind toks blank longest spelled begins ends next ih =>
    cases mem with
    | head =>
      refine ⟨gap, used, ?_⟩
      dsimp only
      rw [String.toList_ofList, ← length_octets]
      exact ⟨rfl, begins, ends, longest, spelled⟩
    | tail _ mem =>
      obtain ⟨before, behind, rfl, place, stops, longest, spelled⟩ := ih mem
      refine ⟨gap ++ (text ++ before), behind, by simp, ?_, stops, longest, spelled⟩
      rw [place, ends, begins]
      simp only [octets_append, List.length_append]
      omega

end

end Token

open Token

/-- The tokens divide the first `size` bytes of a source: they stand there one after the other, with
blanks between them, each the longest at its place. -/
structure Divides (toks : List Token) (source : String) (size : Nat) : Prop where
  nonempty : ∀ t ∈ toks, t.span.start < t.span.stop
  ordered : toks.Pairwise fun t u => t.span.stop ≤ u.span.start
  within : ∀ t ∈ toks, t.span.stop ≤ size
  blank : ∀ p (inside : p < source.toUTF8.size), p < size →
    (∀ t ∈ toks, ¬(t.span.start ≤ p ∧ p < t.span.stop)) → source.toUTF8[p] ∈ blankOctets
  placed : ∀ t ∈ toks, ∃ before behind, source = before ++ t.text ++ behind ∧
    t.span = ⟨before.utf8ByteSize, before.utf8ByteSize + t.text.utf8ByteSize⟩ ∧
    Longest t.text.toList (t.text ++ behind).toList ∧ Pattern t.kind t.text.toList ∧
    ∀ word ∈ keywords, t.kind.spelling? = some word ↔ t.text = word

theorem Token.Cut.divides {source : String} {used gap rest : List Char} {toks : List Token}
    (split : source.toList = used ++ (gap ++ rest)) (cut : Cut (gap ++ rest) 0 used toks)
    (blank : AllBlank gap) : Divides toks source (octets (used ++ gap)).length where
  nonempty t mem := (cut.span_bounds t mem).2.1
  ordered := cut.ordered
  within t mem := by
    have := (cut.span_bounds t mem).2.2
    rw [octets_append, List.length_append]
    omega
  blank p inside front outside := by
    have byte := getElem_toUTF8 source inside
    rw [octets_append, List.length_append] at front
    rw [split, octets_append, octets_append] at byte
    by_cases inUsed : p < (octets used).length
    · rw [List.getElem?_append_left inUsed] at byte
      exact cut.blank_outside (by simpa using outside) byte
    · rw [List.getElem?_append_right (by omega), List.getElem?_append_left (by omega)] at byte
      exact octets_blank blank (List.mem_of_getElem? byte)
  placed t mem := by
    obtain ⟨before, behind, rfl, start, stop, longest, spelled⟩ := cut.mem mem
    rw [Nat.zero_add, length_octets] at start
    refine ⟨String.ofList before, String.ofList (behind ++ (gap ++ rest)), ?_, ?_, ?_,
      spelled.pattern, ?_⟩
    · rw [← String.toList_inj, split]
      simp
    · rw [← start, ← stop]
    · simpa using longest
    · intro word keyword
      rw [spelled.spelling?_eq_iff keyword, String.ofList_toList]

/-- A source that is scanned is divided into longest tokens as a whole. Where scanning fails, the
source is divided up to a character that is not blank and with which no token begins; the error has
the text and the place of that part of the source. -/
theorem scan_longest_match (source : String) (small : source.utf8ByteSize ≤ Span.maxOffset) :
    (∀ toks, scan source = .ok toks → Divides toks source source.utf8ByteSize) ∧
    ∀ e, scan source = .error e → ∃ toks before text behind, source = before ++ text ++ behind ∧
      Divides toks source before.utf8ByteSize ∧
      text ≠ "" ∧ (∀ c ∈ text.toList.head?, isBlank c = false) ∧
      (∀ front, front <+: (text ++ behind).toList → ¬IsLexeme front) ∧
      e = .invalidToken text ⟨before.utf8ByteSize, before.utf8ByteSize + text.utf8ByteSize⟩ := by
  have scanned := scanned_scan small
  constructor
  · intro toks eq
    rw [eq] at scanned
    cases scanned with
    | @all used gap _ split cut blank =>
      rw [← List.append_nil gap] at cut
      have whole := cut.divides (by rw [List.append_nil, split]) blank
      rwa [← split, length_octets_toList] at whole
  · intro e eq
    rw [eq] at scanned
    cases scanned with
    | @stuck start used gap behind c toks split cut blank visible none begins =>
      refine ⟨toks, String.ofList (used ++ gap), String.singleton c, String.ofList behind,
        ?_, ?_, ?_, ?_, ?_, ?_⟩
      · rw [← String.toList_inj, split]
        simp
      · rw [← length_octets]
        exact cut.divides split blank
      · simp [← String.toList_inj]
      · simpa using visible
      · simpa using none
      · rw [begins, Nat.zero_add, length_octets, String.utf8ByteSize_singleton]

/-- The exponent of `1e+` is not complete, and `Truex` is not a keyword. -/
theorem scan_longest_match_incomplete :
    (∃ toks, scan "x = 1e+ Truex" = .ok toks ∧
      toks.map piece = [(.name, "x"), (.assign, "="), (.int, "1"), (.name, "e"), (.plus, "+"),
        (.name, "Truex")] ∧
      Divides toks "x = 1e+ Truex" 13) ∧
    ∃ toks before text behind, "a\t!x" = before ++ text ++ behind ∧
      Divides toks "a\t!x" before.utf8ByteSize ∧
      text ≠ "" ∧ (∀ c ∈ text.toList.head?, isBlank c = false) ∧
      (∀ front, front <+: (text ++ behind).toList → ¬IsLexeme front) ∧
      SyntaxError.invalidToken "!" ⟨2, 3⟩ =
        .invalidToken text ⟨before.utf8ByteSize, before.utf8ByteSize + text.utf8ByteSize⟩ :=
  ⟨⟨_, rfl, rfl, (scan_longest_match "x = 1e+ Truex" (by decide)).1 _ rfl⟩,
    (scan_longest_match "a\t!x" (by decide)).2 _ rfl⟩

end Reckon
