import Reckon.Proofs.Tokenization

/-!
Text at a place of the source. A span shows a text if that text stands in the source between the two
ends of the span; both ends are then boundaries of characters. The span of every token shows its
text, and so does the span of an error of the scanner.
-/

namespace Reckon

namespace Span

/-- The bytes of the source from the start of the span to its end. -/
def bytes (s : Span) (source : String) : ByteArray := source.toUTF8.extract s.start s.stop

/-- The text stands in the source at the span. -/
def Shows (s : Span) (source text : String) : Prop :=
  ∃ before behind, source = before ++ text ++ behind ∧
    s = ⟨before.utf8ByteSize, before.utf8ByteSize + text.utf8ByteSize⟩

variable {s : Span} {source text : String} {size : Nat}

/-- A span inside a text stays as it is. -/
theorem clamp_eq_self (ordered : s.start ≤ s.stop) (within : s.stop ≤ size) : s.clamp size = s := by
  rw [clamp, Nat.min_eq_left (Nat.le_trans ordered within), Nat.max_eq_left ordered,
    Nat.min_eq_left within]

namespace Shows

theorem ordered (h : s.Shows source text) : s.start ≤ s.stop := by
  obtain ⟨_, _, _, rfl⟩ := h
  exact Nat.le_add_right _ _

theorem within (h : s.Shows source text) : s.stop ≤ source.utf8ByteSize := by
  obtain ⟨before, behind, rfl, rfl⟩ := h
  rw [String.utf8ByteSize_append, String.utf8ByteSize_append]
  exact Nat.le_add_right _ _

theorem start_eq_stop_iff (h : s.Shows source text) : s.start = s.stop ↔ text = "" := by
  obtain ⟨_, _, _, rfl⟩ := h
  rw [← String.utf8ByteSize_eq_zero_iff]
  dsimp only
  omega

theorem start_lt_stop (h : s.Shows source text) (ne : text ≠ "") : s.start < s.stop :=
  Nat.lt_of_le_of_ne h.ordered (mt h.start_eq_stop_iff.1 ne)

theorem bytes_eq (h : s.Shows source text) : s.bytes source = text.toUTF8 := by
  obtain ⟨before, behind, rfl, rfl⟩ := h
  exact Token.extract_middle before text behind

theorem isValid_start (h : s.Shows source text) : String.Pos.Raw.IsValid source ⟨s.start⟩ := by
  obtain ⟨before, behind, split, rfl⟩ := h
  exact String.Pos.Raw.isValid_iff_exists_append.2
    ⟨before, text ++ behind, by rw [split, String.append_assoc], rfl⟩

theorem isValid_stop (h : s.Shows source text) : String.Pos.Raw.IsValid source ⟨s.stop⟩ := by
  obtain ⟨before, behind, split, rfl⟩ := h
  refine String.Pos.Raw.isValid_iff_exists_append.2 ⟨before ++ text, behind, split, ?_⟩
  rw [String.Pos.Raw.ext_iff, String.byteIdx_rawEndPos, String.utf8ByteSize_append]

end Shows
end Span

namespace Token

section
variable {source : String} {cs : List Char} {toks : List Token} {t : Token} {e : SyntaxError}
  {offset skip : Nat}

/-- Every token is made of characters that stand in the source. -/
theorem exists_placed (h : scanFrom offset skip cs = .ok toks) (mem : t ∈ toks) :
    ∃ before chars behind kind, cs = before ++ (chars ++ behind) ∧ Spells kind chars ∧
      t = placed kind chars (offset + (String.ofList before).utf8ByteSize) := by
  induction cs generalizing offset skip toks with
  | nil =>
    cases h
    cases mem
  | cons c cs ih =>
    -- The characters of a later token stand behind the first character.
    have later {skip : Nat} {toks : List Token} (mem : t ∈ toks)
        (h : scanFrom (offset + c.utf8Size) skip cs = .ok toks) :
        ∃ before chars behind kind, c :: cs = before ++ (chars ++ behind) ∧ Spells kind chars ∧
          t = placed kind chars (offset + (String.ofList before).utf8ByteSize) := by
      obtain ⟨before, chars, behind, kind, rfl, spelled, rfl⟩ := ih h mem
      exact ⟨c :: before, chars, behind, kind, rfl, spelled, by rw [size_cons, ← Nat.add_assoc]⟩
    cases skip with
    | succ skip => exact later mem h
    | zero =>
      by_cases blank : isBlank c = true
      · rw [scanFrom_blank blank] at h
        exact later mem h
      · rw [scanFrom, if_neg blank] at h
        cases cut : first? (c :: cs) with
        | none =>
          rw [cut] at h
          cases h
        | some found =>
          obtain ⟨kind, chars⟩ := found
          rw [cut] at h
          obtain ⟨others, scanned, ⟨⟩⟩ := bind_eq_ok.1 h
          cases mem with
          | head =>
            obtain ⟨behind, split⟩ := first?_isPrefix cut
            exact ⟨[], chars, behind, kind, split.symm, first?_spells cut, rfl⟩
          | tail _ mem => exact later mem scanned

/-- What has been scanned is ASCII. -/
theorem utf8Size_of_scanFrom (h : scanFrom offset skip cs = .ok toks)
    (skipped : ∀ c ∈ cs.take skip, c.utf8Size = 1) : ∀ c ∈ cs, c.utf8Size = 1 := by
  induction cs generalizing offset skip toks with
  | nil => exact nofun
  | cons c cs ih =>
    cases skip with
    | succ skip =>
      obtain ⟨head, tail⟩ := List.forall_mem_cons.1 skipped
      exact List.forall_mem_cons.2 ⟨head, ih h tail⟩
    | zero =>
      by_cases blank : isBlank c = true
      · rw [scanFrom_blank blank] at h
        refine List.forall_mem_cons.2 ⟨?_, ih h (by simp)⟩
        rcases eq_of_isBlank blank with rfl | rfl | rfl <;> rfl
      · rw [scanFrom, if_neg blank] at h
        cases cut : first? (c :: cs) with
        | none =>
          rw [cut] at h
          cases h
        | some found =>
          obtain ⟨kind, chars⟩ := found
          rw [cut] at h
          obtain ⟨others, scanned, ⟨⟩⟩ := bind_eq_ok.1 h
          obtain ⟨behind, split⟩ := first?_isPrefix cut
          have spelled := first?_spells cut
          obtain ⟨d, ds, rfl, _⟩ := spelled.exists_cons
          obtain ⟨rfl, rfl⟩ := List.cons.inj split
          obtain ⟨head, tail⟩ := List.forall_mem_cons.1 spelled.utf8Size
          exact List.forall_mem_cons.2 ⟨head, ih scanned (by simpa using tail)⟩

/-- Every token has the text that stands in the source where its span says, also where the span is
capped. -/
theorem shows_of_scan (h : scan source = .ok toks) (mem : t ∈ toks) :
    t.span.Shows source t.text := by
  rw [scan_eq] at h
  obtain ⟨before, chars, behind, kind, split, spelled, rfl⟩ := exists_placed h mem
  rw [Nat.zero_add]
  rcases Nat.le_total (String.ofList before).utf8ByteSize Span.maxOffset with inside | beyond
  · rw [placed_of_ascii spelled.utf8Size inside]
    dsimp only
    generalize Span.maxOffset - (String.ofList before).utf8ByteSize = room
    have ascii : ∀ c ∈ chars.take room, c.utf8Size = 1 :=
      fun c mem => spelled.utf8Size c (List.mem_of_mem_take mem)
    refine ⟨String.ofList before, String.ofList (chars.drop room ++ behind), ?_, ?_⟩
    · simp only [← String.toList_inj, String.toList_append, String.toList_ofList]
      rw [split, List.append_assoc, ← List.append_assoc (chars.take room), List.take_append_drop]
    · rw [size_eq_length ascii, List.length_take]
  · rw [placed_of_ge beyond]
    -- The largest offset is inside what comes before the token, and no text stands there.
    have whole := utf8Size_of_scanFrom h (by simp)
    have ascii : ∀ c ∈ before, c.utf8Size = 1 := fun c mem => whole c (by simp [split, mem])
    have front : ∀ c ∈ before.take Span.maxOffset, c.utf8Size = 1 :=
      fun c mem => ascii c (List.mem_of_mem_take mem)
    rw [size_eq_length ascii] at beyond
    refine ⟨String.ofList (before.take Span.maxOffset),
      String.ofList (before.drop Span.maxOffset ++ (chars ++ behind)), ?_, ?_⟩
    · simp only [← String.toList_inj, String.toList_append, String.toList_ofList]
      rw [split, String.toList_empty, List.append_nil, ← List.append_assoc (before.take _),
        List.take_append_drop]
    · rw [size_eq_length front, List.length_take, Nat.min_eq_left beyond]
      rfl

theorem scan_spells (small : source.utf8ByteSize ≤ Span.maxOffset) (h : scan source = .ok toks) :
    ∀ t ∈ toks, Spells t.kind t.text.toList := by
  intro t mem
  have scanned := scanned_scan small
  rw [h] at scanned
  cases scanned with
  | all _ cut _ =>
    obtain ⟨_, _, _, _, _, _, spelled⟩ := cut.mem mem
    exact spelled

theorem ordered_of_scan (small : source.utf8ByteSize ≤ Span.maxOffset)
    (h : scan source = .ok toks) : toks.Pairwise fun t u => t.span.stop ≤ u.span.start := by
  have scanned := scanned_scan small
  rw [h] at scanned
  cases scanned with
  | all _ cut _ => exact cut.ordered

theorem text_ne_empty_of_scan (small : source.utf8ByteSize ≤ Span.maxOffset)
    (h : scan source = .ok toks) (mem : t ∈ toks) : t.text ≠ "" := by
  have chars := (scan_spells small h t mem).ne_nil
  intro empty
  rw [empty] at chars
  exact chars rfl

/-- Scanning stops at a character, and shows it. -/
theorem shows_of_scan_error (small : source.utf8ByteSize ≤ Span.maxOffset)
    (h : scan source = .error e) :
    ∃ c s, e = .invalidToken (String.singleton c) s ∧ s.Shows source (String.singleton c) := by
  have scanned := scanned_scan small
  rw [h] at scanned
  cases scanned with
  | @stuck start used gap behind c toks split cut blank visible none begins =>
    refine ⟨c, _, rfl, String.ofList (used ++ gap), String.ofList behind, ?_, ?_⟩
    · rw [← String.toList_inj, split]
      simp
    · rw [begins, Nat.zero_add, length_octets, String.utf8ByteSize_singleton]

end

end Token
end Reckon
