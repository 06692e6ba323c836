import Reckon.Proofs.Scanning

/-!
Sources longer than spans reach. Behind more spaces than the largest offset, the tokens of a text
are of the same kinds as without the spaces, but all of them at that offset and without a text.
-/

namespace Reckon
namespace Token

/-- `n` spaces. -/
def spaces (n : Nat) : String := String.ofList (List.replicate n ' ')

/-- A token of which the kind is all that is known. -/
def bare (kind : TokenKind) : Token := ⟨kind, "", ⟨Span.maxOffset, Span.maxOffset⟩⟩

section
variable {n m skip : Nat} {cs : List Char} {kind : TokenKind} {text : String} {toks : List Token}

theorem utf8ByteSize_replicate {c : Char} (ascii : c.utf8Size = 1) (n : Nat) :
    (String.ofList (List.replicate n c)).utf8ByteSize = n := by
  have all : ∀ d ∈ List.replicate n c, d.utf8Size = 1 := by
    intro d mem
    rw [List.eq_of_mem_replicate mem, ascii]
  rw [size_eq_length all, List.length_replicate]

/-- Behind spaces a text is scanned from farther on. -/
theorem scan_spaces_append (n : Nat) (text : String) :
    scan (spaces n ++ text) = scanFrom n 0 text.toList := by
  have blank : ∀ c ∈ List.replicate n ' ', isBlank c = true := by
    intro c mem
    rw [List.eq_of_mem_replicate mem]
    rfl
  have passed : scanFrom 0 0 (List.replicate n ' ' ++ text.toList) = _ :=
    scanFrom_blanks blank text.toList
  rw [utf8ByteSize_replicate rfl, Nat.zero_add] at passed
  rw [scan_eq, String.toList_append, spaces, String.toList_ofList, passed]

/-- Beyond the largest offset only the kinds of the tokens are left. -/
theorem scanFrom_far (far : Span.maxOffset ≤ n) (h : scanFrom m skip cs = .ok toks) :
    scanFrom n skip cs = .ok (toks.map fun t => bare t.kind) := by
  induction cs generalizing n m skip toks with
  | nil =>
    cases h
    rfl
  | cons c cs ih =>
    have farther : Span.maxOffset ≤ n + c.utf8Size := Nat.le_trans far (Nat.le_add_right ..)
    cases skip with
    | succ skip => exact ih farther h
    | zero =>
      by_cases blank : isBlank c = true
      · rw [scanFrom_blank blank] at h ⊢
        exact ih farther h
      · rw [scanFrom, if_neg blank] at h ⊢
        cases cut : first? (c :: cs) with
        | none =>
          rw [cut] at h
          cases h
        | some found =>
          obtain ⟨kind, chars⟩ := found
          rw [cut] at h
          obtain ⟨others, scanned, ⟨⟩⟩ := bind_eq_ok.1 h
          dsimp only
          rw [ih farther scanned, placed_of_ge far]
          rfl

theorem scan_far (far : Span.maxOffset ≤ n) (h : scan text = .ok toks) :
    scan (spaces n ++ text) = .ok (toks.map fun t => bare t.kind) := by
  rw [scan_eq] at h
  rw [scan_spaces_append]
  exact scanFrom_far far h

/-- What follows a token that ends at the largest offset or beyond is of known kinds only. -/
theorem scanFrom_straddling {first : List Char}
    (cut : first? (first ++ text.toList) = some (kind, first))
    (far : Span.maxOffset ≤ n + (String.ofList first).utf8ByteSize) (h : scan text = .ok toks) :
    scanFrom n 0 (first ++ text.toList) =
      .ok (placed kind first n :: toks.map fun t => bare t.kind) := by
  rw [scan_eq] at h
  rw [scanFrom_cut cut]
  dsimp only
  rw [scanFrom_far far h]
  rfl

/-- Behind fewer spaces, a token has as many characters as stand before the largest offset. -/
theorem scan_cut_short (near : n ≤ Span.maxOffset) (h : Spells kind text.toList) :
    scan (spaces n ++ text) = .ok [⟨kind,
      String.ofList (text.toList.take (Span.maxOffset - n)),
      ⟨n, n + min (Span.maxOffset - n) text.length⟩⟩] := by
  have alone : scanFrom n 0 (text.toList ++ []) = _ := scanFrom_append h (by simp [Apart]) rfl
  rw [List.append_nil, placed_of_ascii h.utf8Size near] at alone
  rw [scan_spaces_append, alone, String.length_toList]

end

end Token
end Reckon
