import Reckon.Proofs.Relocation
import Reckon.Proofs.Scanning

/-!
Scanning line by line. No token reaches over a newline, so what stands before a newline is scanned
as if it stood alone, and scanning goes on behind the newline. A text has the same tokens wherever
it begins, moved by as many bytes as its beginning.
-/

namespace Reckon
namespace Token

section
variable {p : Char → Bool} {cs text : List Char} {kind : TokenKind} (rest : List Char)

theorem takeWhile_newline (stop : p '\n' = false) :
    (cs ++ '\n' :: rest).takeWhile p = cs.takeWhile p := by
  induction cs with
  | nil => simp [stop]
  | cons c cs ih => simp only [List.cons_append, List.takeWhile_cons, ih]

theorem dropWhile_newline (stop : p '\n' = false) :
    (cs ++ '\n' :: rest).dropWhile p = cs.dropWhile p ++ '\n' :: rest := by
  induction cs with
  | nil => simp [stop]
  | cons c cs ih =>
    simp only [List.cons_append, List.dropWhile_cons, ih]
    split <;> rfl

theorem signedDigits_newline : signedDigits (cs ++ '\n' :: rest) = signedDigits cs := by
  cases cs with
  | nil => rfl
  | cons c cs =>
    rw [List.cons_append, signedDigits, signedDigits, takeWhile_newline rest rfl,
      ← List.cons_append, takeWhile_newline rest rfl]

theorem exponent_newline : exponent (cs ++ '\n' :: rest) = exponent cs := by
  cases cs with
  | nil => rfl
  | cons c cs => rw [List.cons_append, exponent, exponent, signedDigits_newline]

theorem number?_newline : number? (cs ++ '\n' :: rest) = number? cs := by
  rw [number?, number?, takeWhile_newline rest rfl, dropWhile_newline rest rfl]
  cases cs.dropWhile Char.isDigit with
  | nil => rfl
  | cons c ds =>
    by_cases point : c = '.'
    · subst point
      simp only [List.cons_append, takeWhile_newline rest (p := Char.isDigit) rfl,
        dropWhile_newline rest (p := Char.isDigit) rfl, exponent_newline]
    · have plain : exponent (c :: ds ++ '\n' :: rest) = exponent (c :: ds) :=
        exponent_newline rest
      rw [List.cons_append] at plain ⊢
      simp [point, plain]

theorem word?_newline (c : Char) : word? (c :: cs ++ '\n' :: rest) = word? (c :: cs) := by
  rw [List.cons_append, word?, word?, ← List.cons_append, takeWhile_newline rest rfl]

theorem sign?_newline (c : Char) : sign? (c :: cs ++ '\n' :: rest) = sign? (c :: cs) := by
  have follow : (∃ tail, cs ++ '\n' :: rest = '=' :: tail) ↔ ∃ tail, cs = '=' :: tail := by
    cases cs <;> simp
  exact Option.ext fun found => ⟨sign?_of_follow follow, sign?_of_follow follow.symm⟩

/-- The token at the front does not depend on what comes after a newline. -/
theorem first?_newline (c : Char) : first? (c :: cs ++ '\n' :: rest) = first? (c :: cs) := by
  rw [first?, first?, word?_newline, number?_newline, sign?_newline]

end

section
variable {cs text : List Char} {kind : TokenKind}

theorem signedDigits_isPrefix (cs : List Char) : signedDigits cs <+: cs := by
  cases cs with
  | nil => exact List.prefix_rfl
  | cons c cs =>
    have digits : cs.takeWhile Char.isDigit <+: cs := List.takeWhile_prefix _
    rw [signedDigits]
    split
    next =>
      cases row : cs.takeWhile Char.isDigit with
      | nil => exact List.nil_prefix
      | cons d ds => exact List.cons_prefix_cons.2 ⟨rfl, row ▸ digits⟩
    next => exact List.takeWhile_prefix _

theorem exponent_isPrefix (cs : List Char) : exponent cs <+: cs := by
  cases cs with
  | nil => exact List.prefix_rfl
  | cons c cs =>
    have digits := signedDigits_isPrefix cs
    rw [exponent]
    split
    next =>
      cases row : signedDigits cs with
      | nil => exact List.nil_prefix
      | cons d ds => exact List.cons_prefix_cons.2 ⟨rfl, row ▸ digits⟩
    next => exact List.nil_prefix

/-- Digits and then a part of what follows them. -/
theorem takeWhile_append_isPrefix {p : Char → Bool} (h : text <+: cs.dropWhile p) :
    cs.takeWhile p ++ text <+: cs := by
  have whole := (List.prefix_append_right_inj (cs.takeWhile p)).2 h
  rwa [List.takeWhile_append_dropWhile] at whole

theorem number?_isPrefix (h : number? cs = some (kind, text)) : text <+: cs := by
  rw [number?] at h
  split at h
  next rest point =>
    dsimp only at h
    split at h
    next => cases h
    next =>
      cases h
      have fraction := takeWhile_append_isPrefix (exponent_isPrefix (rest.dropWhile Char.isDigit))
      apply takeWhile_append_isPrefix
      rw [point]
      exact List.cons_prefix_cons.2 ⟨rfl, fraction⟩
  next =>
    split at h
    next => cases h
    next =>
      split at h
      next =>
        cases h
        exact List.takeWhile_prefix _
      next =>
        cases h
        exact takeWhile_append_isPrefix (exponent_isPrefix _)

theorem word?_isPrefix (h : word? cs = some (kind, text)) : text <+: cs := by
  cases cs with
  | nil => cases h
  | cons c cs =>
    rw [word?] at h
    split at h
    next =>
      cases h
      exact List.takeWhile_prefix _
    next => cases h

theorem sign?_isPrefix (h : sign? cs = some (kind, text)) : text <+: cs := by
  unfold sign? at h
  split at h <;> cases h <;> simp

/-- What is cut off stands at the front. -/
theorem first?_isPrefix (h : first? cs = some (kind, text)) : text <+: cs := by
  rw [first?] at h
  rcases word : word? cs with _ | ⟨k, w⟩
  · rcases number : number? cs with _ | ⟨k, n⟩
    · rw [word, number] at h
      exact sign?_isPrefix h
    · rw [word, number] at h
      cases h
      exact number?_isPrefix number
  · rw [word] at h
    cases h
    exact word?_isPrefix word

end

section
variable {cs text rest : List Char} {c : Char} {offset skip : Nat}

theorem size_le_of_isPrefix (h : text <+: cs) :
    (String.ofList text).utf8ByteSize ≤ (String.ofList cs).utf8ByteSize := by
  obtain ⟨tail, rfl⟩ := h
  rw [String.ofList_append, String.utf8ByteSize_append]
  exact Nat.le_add_right _ _

/-- The newline at `offset`. -/
def newlineAt (offset : Nat) : Token := placed .newline ['\n'] offset

/-- The tokens before a newline, the newline, and the tokens behind it. -/
theorem scanFrom_newline (rest : List Char) (inside : skip ≤ cs.length) :
    scanFrom offset skip (cs ++ '\n' :: rest) = do
      let stop := offset + (String.ofList cs).utf8ByteSize
      let before ← scanFrom offset skip cs
      let behind ← scanFrom (stop + 1) 0 rest
      return before ++ newlineAt stop :: behind := by
  induction cs generalizing offset skip with
  | nil =>
    obtain rfl := Nat.le_zero.1 inside
    rfl
  | cons c cs ih =>
    rw [size_cons, ← Nat.add_assoc]
    cases skip with
    | succ skip => exact ih (Nat.le_of_succ_le_succ inside)
    | zero =>
      by_cases blank : isBlank c = true
      · rw [List.cons_append, scanFrom_blank blank, scanFrom_blank blank]
        exact ih (Nat.zero_le _)
      · have same : first? (c :: cs ++ '\n' :: rest) = first? (c :: cs) :=
          first?_newline rest c
        rw [List.cons_append] at same ⊢
        rw [scanFrom, if_neg blank, scanFrom, if_neg blank, same]
        cases cut : first? (c :: cs) with
        | none => rfl
        | some found =>
          obtain ⟨kind, chars⟩ := found
          -- The token ends before the newline, so the newline is not among what is passed over.
          have short : chars.length - 1 ≤ cs.length := by
            have := (first?_isPrefix cut).length_le
            rw [List.length_cons] at this
            omega
          dsimp only
          rw [ih short]
          simp only [bind_assoc, pure_bind, List.cons_append]

/-- A token that is made later in a source, moved. -/
theorem placed_shift {kind : TokenKind} {distance : Nat}
    (fits : offset + distance + (String.ofList text).utf8ByteSize ≤ Span.maxOffset) :
    placed kind text (offset + distance) = (placed kind text offset).move (Span.shift distance) := by
  rw [placed_of_le fits, placed_of_le (by omega), move, Span.shift, Nat.add_right_comm offset]

/-- Scanning later in a source gives the same tokens, moved. -/
theorem scanFrom_shift {distance : Nat} {moved : List Token}
    (fits : offset + distance + (String.ofList cs).utf8ByteSize ≤ Span.maxOffset) :
    scanFrom (offset + distance) skip cs = .ok moved ↔
      ∃ toks, scanFrom offset skip cs = .ok toks ∧
        moved = toks.map (move (Span.shift distance)) := by
  induction cs generalizing offset skip moved with
  | nil =>
    rw [scanFrom, scanFrom]
    constructor
    · rintro ⟨⟩
      exact ⟨[], rfl, rfl⟩
    · rintro ⟨_, ⟨⟩, rfl⟩
      rfl
  | cons c cs ih =>
    rw [size_cons, ← Nat.add_assoc, Nat.add_right_comm offset] at fits
    cases skip with
    | succ skip =>
      rw [scanFrom, scanFrom, Nat.add_right_comm]
      exact ih fits
    | zero =>
      by_cases blank : isBlank c = true
      · rw [scanFrom_blank blank, scanFrom_blank blank, Nat.add_right_comm]
        exact ih fits
      · rw [scanFrom, if_neg blank, scanFrom, if_neg blank]
        cases cut : first? (c :: cs) with
        | none =>
          constructor
          · intro h
            cases h
          · rintro ⟨_, ⟨⟩, _⟩
        | some found =>
          obtain ⟨kind, chars⟩ := found
          have short := size_le_of_isPrefix (first?_isPrefix cut)
          rw [size_cons] at short
          have moved : placed kind chars (offset + distance) =
              (placed kind chars offset).move (Span.shift distance) := placed_shift (by omega)
          simp only [bind_eq_ok, Nat.add_right_comm offset distance, ih fits, moved]
          constructor
          · rintro ⟨_, ⟨toks, scanned, rfl⟩, ⟨⟩⟩
            exact ⟨_, ⟨toks, scanned, rfl⟩, rfl⟩
          · rintro ⟨_, ⟨toks, scanned, ⟨⟩⟩, rfl⟩
            exact ⟨_, ⟨toks, scanned, rfl⟩, rfl⟩

/-- Two texts with a newline between them are scanned one after the other. -/
theorem scan_join {first second : String} {toks : List Token}
    (total : (first ++ "\n" ++ second).utf8ByteSize ≤ Span.maxOffset) :
    scan (first ++ "\n" ++ second) = .ok toks ↔
      ∃ before behind, scan first = .ok before ∧ scan second = .ok behind ∧
        toks = before ++ newlineAt first.utf8ByteSize ::
          behind.map (move (Span.shift (first.utf8ByteSize + 1))) := by
  have chars : (first ++ "\n" ++ second).toList = first.toList ++ '\n' :: second.toList := by
    simp
  have fits : 0 + (first.utf8ByteSize + 1) + (String.ofList second.toList).utf8ByteSize ≤
      Span.maxOffset := by
    rw [String.utf8ByteSize_append, String.utf8ByteSize_append] at total
    rw [String.ofList_toList, Nat.zero_add]
    exact total
  have behind (moved : List Token) :
      scanFrom (first.utf8ByteSize + 1) 0 second.toList = .ok moved ↔
        ∃ toks, scan second = .ok toks ∧
          moved = toks.map (move (Span.shift (first.utf8ByteSize + 1))) := by
    rw [scan_eq, ← scanFrom_shift fits, Nat.zero_add]
  rw [scan_eq, scan_eq, chars, scanFrom_newline _ (Nat.zero_le _), String.ofList_toList]
  simp only [bind_eq_ok, Nat.zero_add, behind]
  constructor
  · rintro ⟨before, scanned, _, ⟨toks, scanned', rfl⟩, ⟨⟩⟩
    exact ⟨before, toks, scanned, scanned', rfl⟩
  · rintro ⟨before, toks, scanned, scanned', rfl⟩
    exact ⟨before, scanned, _, ⟨toks, scanned', rfl⟩, rfl⟩

end

end Token
end Reckon
