import Reckon.Proofs.Coverage
import Reckon.Proofs.Execution
import Reckon.Proofs.Layout
import Reckon.Proofs.TreeSpans

/-!
The places of failures. A syntax error is at a character that begins no token, at a token or at the
end of the source, and an error of the compiler is at a literal. So a failure that has a place has it
in the source, between characters, and what it quotes stands there. Diagnostics may cut the source at
such a place without looking; for spans from elsewhere they clamp it first.
-/

namespace Reckon

open Token Grammar

namespace Span

/-- The span lies in the source and begins and ends between characters. It is empty only at the end
of the source. -/
structure LiesIn (s : Span) (source : String) : Prop where
  ordered : s.start ≤ s.stop
  within : s.stop ≤ source.utf8ByteSize
  start_boundary : String.Pos.Raw.IsValid source ⟨s.start⟩
  stop_boundary : String.Pos.Raw.IsValid source ⟨s.stop⟩
  empty : s.start = s.stop → s.start = source.utf8ByteSize
  clamp : s.clamp source.utf8ByteSize = s

/-- The span shows some of the source, or it is the end of the source; what is quoted is what it
shows. -/
def Marks (s : Span) (source : String) (quoted : Option String) : Prop :=
  ∃ text, s.Shows source text ∧ (text = "" → s.start = source.utf8ByteSize) ∧
    ∀ q, quoted = some q → q = text

/-- A number moved between two bounds; nothing if these are not in order. -/
def clampBetween? (n low high : Nat) : Option Nat :=
  if low ≤ high then some (if n < low then low else if high < n then high else n) else none

/-- What `clamp` comes to if the end is moved between bounds that have to be in order. -/
def clamp? (s : Span) (size : Nat) : Option Span := do
  let start := min s.start size
  let stop ← clampBetween? s.stop start size
  return ⟨start, stop⟩

/-- The bounds are always in order. -/
theorem clamp?_eq (s : Span) (size : Nat) : s.clamp? size = some (s.clamp size) := by
  have stop : clampBetween? s.stop (min s.start size) size =
      some (min (max s.stop (min s.start size)) size) := by
    rw [clampBetween?, if_pos (Nat.min_le_right _ _)]
    congr 1
    split
    · omega
    · split <;> omega
  rw [clamp?, stop]
  rfl

section
variable {s : Span} {source text : String} {quoted : Option String}

theorem Marks.liesIn (h : s.Marks source quoted) : s.LiesIn source := by
  obtain ⟨text, shows, atEnd, _⟩ := h
  exact ⟨shows.ordered, shows.within, shows.isValid_start, shows.isValid_stop,
    fun empty => atEnd (shows.start_eq_stop_iff.1 empty),
    clamp_eq_self shows.ordered shows.within⟩

theorem Marks.bytes_eq (h : s.Marks source (some text)) : s.bytes source = text.toUTF8 := by
  obtain ⟨_, shows, _, same⟩ := h
  rw [same text rfl, shows.bytes_eq]

theorem Shows.marks (h : s.Shows source text) (ne : text ≠ "")
    (same : ∀ q, quoted = some q → q = text) : s.Marks source quoted :=
  ⟨text, h, fun empty => absurd empty ne, same⟩

theorem point_marks (small : source.utf8ByteSize ≤ maxOffset) :
    (point source.utf8ByteSize).Marks source none := by
  rw [point, ofRange_of_le (Nat.le_refl _) small]
  exact ⟨"", ⟨source, "", by simp, rfl⟩, fun _ => rfl, by simp⟩

end

end Span

/-- The part of the source that the message quotes. -/
def SyntaxError.quoted? : SyntaxError → Option String
  | .invalidToken text _ => some text
  | _ => none

/-- The part of the source that the message quotes. -/
def CompileError.quoted? : CompileError → Option String
  | .invalidLiteral _ text _ => some text
  | _ => none

/-- The part of the source that the message quotes; errors of the evaluation quote none. -/
def Failure.quoted? : Failure → Option String
  | .parse e => e.quoted?
  | .compile e => e.quoted?
  | .eval _ => none

section
variable {source : String} {toks : List Token} {start : Start} {limit : Nat} {t : Tree}
  {f : Failure} {s : Span}

theorem placeOf_marks (small : source.utf8ByteSize ≤ Span.maxOffset)
    (scanned : scan source = .ok toks) (n : Nat) :
    (placeOf toks source.utf8ByteSize n).Marks source none := by
  rw [placeOf]
  cases place : toks[n]? with
  | none => exact Span.point_marks small
  | some tok =>
    have mem := List.mem_of_getElem? place
    exact (shows_of_scan scanned mem).marks (text_ne_empty_of_scan small scanned mem) (by simp)

theorem Grammar.Refusal.quoted?_toError (r : Refusal) (limit size : Nat) :
    (r.toError limit size).quoted? = none := by
  obtain ⟨_, _ | ⟨_, _⟩⟩ | ⟨_ | ⟨_, _⟩⟩ := r <;> rfl

/-- The parser refuses a source at one of its tokens or at its end. -/
theorem span_of_refused {e : SyntaxError} (scanned : scan source = .ok toks)
    (failed : parse source start limit = .error e) :
    e.quoted? = none ∧ ∃ n, e.span = placeOf toks source.utf8ByteSize n := by
  rw [parse_eq_numbered scanned] at failed
  obtain ⟨_, moved, rfl⟩ := mapError_eq_error.1 failed
  cases refused : parseTokens start limit (numbered (toks.map piece)) with
  | ok t =>
    rw [refused] at moved
    cases moved
  | error r =>
    rw [refused] at moved
    cases moved
    have given : ∀ t ∈ r.ahead, t.span.start < toks.length := fun t mem => by
      simpa using lt_length_of_refused refused mem
    exact ⟨Refusal.quoted?_toError .., _, span_toError given⟩

/-- A syntax error is at a character that is no token, at a token, or at the end. -/
theorem syntaxError_marks {e : SyntaxError} (small : source.utf8ByteSize ≤ Span.maxOffset)
    (failed : parse source start limit = .error e) : e.span.Marks source e.quoted? := by
  cases scanned : scan source with
  | error e' =>
    rw [parse, scanned] at failed
    cases failed
    obtain ⟨c, s, rfl, shows⟩ := shows_of_scan_error small scanned
    refine shows.marks (by simp [← String.toList_inj]) fun q same => ?_
    cases same
    rfl
  | ok toks =>
    obtain ⟨quoted, n, place⟩ := span_of_refused scanned failed
    rw [quoted, place]
    exact placeOf_marks small scanned n

/-- An error of the compiler that has a place is at a literal. -/
theorem compileError_marks {e : CompileError} (small : source.utf8ByteSize ≤ Span.maxOffset)
    (read : parse source start limit = .ok t) (failed : t.compile .standard limit = .error e)
    (place : e.span? = some s) : s.Marks source e.quoted? := by
  obtain ⟨toks, scanned, derived, _⟩ := parse_eq_ok_iff.1 read
  have covered : Covered limit t.leaves (t.compile .standard limit) := derived.compile_covered
  rw [failed] at covered
  cases covered with
  | tooDeep => cases place
  | refused first =>
    obtain ⟨l, mem, refused⟩ := List.exists_of_findSome?_eq_some first
    obtain ⟨kind, _, rfl⟩ := Leaf.exists_of_refusal? refused
    cases place
    obtain ⟨shows, ne⟩ := derived.shows small scanned mem
    refine shows.marks ne fun q same => ?_
    cases same
    rfl

theorem execute_error_marks (small : source.utf8ByteSize ≤ Span.maxOffset)
    (failed : execute start limit source = .error f) (place : f.span? = some s) :
    s.Marks source f.quoted? := by
  rcases execute_eq_error failed with ⟨e, refused, rfl⟩ | ⟨t, e, read, refused, rfl⟩ | ⟨e, rfl⟩
  · cases place
    exact syntaxError_marks small refused
  · exact compileError_marks small read refused place
  · cases place

theorem treeSource_error_marks (small : source.utf8ByteSize ≤ Span.maxOffset)
    (failed : treeSource limit source = .error f) (place : f.span? = some s) :
    s.Marks source f.quoted? := by
  rcases bind_eq_error.1 failed with stopped | ⟨t, _, done⟩
  · obtain ⟨e, refused, rfl⟩ := mapError_eq_error.1 stopped
    cases place
    exact syntaxError_marks small refused
  · cases done

end

/-- A place that is reported lies in the source, and what is quoted stands there. Clamping any span
to any length has a result, which lies in that length. -/
theorem failure_span_liesIn :
    (∀ (source : String) (limit : Nat) (f : Failure) (s : Span),
      source.utf8ByteSize ≤ Span.maxOffset →
      (runSource limit source = .error f ∨ evalSource limit source = .error f ∨
        treeSource limit source = .error f) →
      f.span? = some s →
      s.LiesIn source ∧ ∀ text, f.quoted? = some text → s.bytes source = text.toUTF8) ∧
    ∀ (s : Span) (size : Nat), s.clamp? size = some (s.clamp size) ∧
      (s.clamp size).start ≤ (s.clamp size).stop ∧ (s.clamp size).stop ≤ size := by
  refine ⟨fun source limit f s small failed place => ?_, fun s size => ⟨s.clamp?_eq size,
    s.clamp_bounds size⟩⟩
  have marks : s.Marks source f.quoted? := by
    rcases failed with failed | failed | failed
    · exact execute_error_marks small failed place
    · exact execute_error_marks small failed place
    · exact treeSource_error_marks small failed place
  refine ⟨marks.liesIn, fun text quoted => ?_⟩
  rw [quoted] at marks
  exact marks.bytes_eq

/-- A character of two bytes, the end of a source, and an integer beyond 64 bits. -/
theorem failure_span_liesIn_each_stage :
    (runSource 9 "x = é" = .error (.parse (.invalidToken "é" ⟨4, 6⟩)) ∧
      Span.LiesIn ⟨4, 6⟩ "x = é" ∧ Span.bytes ⟨4, 6⟩ "x = é" = "é".toUTF8) ∧
    (treeSource 9 "(1" = .error (.parse (.unexpectedEnd "`)`" ⟨2, 2⟩)) ∧
      Span.LiesIn ⟨2, 2⟩ "(1") ∧
    evalSource 9 "-9223372036854775808" =
      .error (.compile (.invalidLiteral .integer "9223372036854775808" ⟨1, 20⟩)) ∧
      Span.LiesIn ⟨1, 20⟩ "-9223372036854775808" := by
  have first : runSource 9 "x = é" = .error (.parse (.invalidToken "é" ⟨4, 6⟩)) := rfl
  have second : treeSource 9 "(1" = .error (.parse (.unexpectedEnd "`)`" ⟨2, 2⟩)) := rfl
  have third : evalSource 9 "-9223372036854775808" =
      .error (.compile (.invalidLiteral .integer "9223372036854775808" ⟨1, 20⟩)) := rfl
  obtain ⟨lies, bytes⟩ :=
    failure_span_liesIn.1 "x = é" 9 _ _ (by decide) (.inl first) rfl
  exact ⟨⟨first, lies, bytes _ rfl⟩,
    ⟨second, (failure_span_liesIn.1 "(1" 9 _ _ (by decide) (.inr (.inr second)) rfl).1⟩, third,
    (failure_span_liesIn.1 "-9223372036854775808" 9 _ _ (by decide) (.inr (.inl third)) rfl).1⟩

end Reckon
