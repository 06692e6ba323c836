import Reckon.Proofs.Tokenization

/-!
The order of texts is the order of their bytes. UTF-8 keeps the order of the characters: the bytes
of a lower character come first from the first byte in which they differ, whatever stands behind the
two. So texts, which are ordered character by character, are ordered as the bytes are.
-/

namespace Reckon

/-- The order of the UTF-8 bytes, from the first of them on. -/
def BytesLt (s t : String) : Prop := s.toUTF8.data.toList < t.toUTF8.data.toList

instance (s t : String) : Decidable (BytesLt s t) :=
  inferInstanceAs (Decidable (s.toUTF8.data.toList < t.toUTF8.data.toList))

namespace Token

theorem byte_cons_lt {a b : Nat} {xs ys : List UInt8} (le : a ≤ b) (small : b < 256)
    (tail : a = b → xs < ys) : UInt8.ofNat a :: xs < UInt8.ofNat b :: ys := by
  rw [List.cons_lt_cons_iff]
  rcases Nat.lt_or_eq_of_le le with lt | rfl
  · left
    rw [UInt8.lt_iff_toNat_lt, UInt8.toNat_ofNat_of_lt' (Nat.lt_trans lt small),
      UInt8.toNat_ofNat_of_lt' small]
    exact lt
  · exact .inr ⟨rfl, tail rfl⟩

/-- A longer encoding begins with a higher byte, and two of one length first differ where the
characters do, taken in groups of six bits. -/
theorem utf8EncodeChar_append_lt {c d : Char} (lt : c < d) (xs ys : List UInt8) :
    String.utf8EncodeChar c ++ xs < String.utf8EncodeChar d ++ ys := by
  have below : c.val.toNat < d.val.toNat := lt
  have bound : d.val.toNat < 0x110000 := by
    rcases d.valid with h | h <;> simp only [UInt32.toNat] at * <;> omega
  unfold String.utf8EncodeChar
  generalize c.val.toNat = m at *
  generalize d.val.toNat = n at *
  dsimp only
  split_ifs
  all_goals refine byte_cons_lt (by omega) (by omega) fun first => ?_
  all_goals try omega
  · exact byte_cons_lt (by omega) (by omega) fun second => by omega
  · exact byte_cons_lt (by omega) (by omega) fun second =>
      byte_cons_lt (by omega) (by omega) fun third => by omega
  · exact byte_cons_lt (by omega) (by omega) fun second =>
      byte_cons_lt (by omega) (by omega) fun third =>
        byte_cons_lt (by omega) (by omega) fun fourth => by omega

theorem octets_lt {cs ds : List Char} (lt : cs < ds) : octets cs < octets ds := by
  induction cs generalizing ds with
  | nil =>
    cases ds with
    | nil => exact absurd lt (List.not_lt_nil _)
    | cons d ds =>
      obtain ⟨b, bs, bytes⟩ := List.exists_cons_of_length_pos
        (octets_pos (List.cons_ne_nil d ds))
      rw [bytes]
      exact List.nil_lt_cons b bs
  | cons c cs ih =>
    cases ds with
    | nil => exact absurd lt (List.not_lt_nil _)
    | cons d ds =>
      simp only [octets, List.flatMap_cons] at ih ⊢
      rcases List.cons_lt_cons_iff.1 lt with first | ⟨rfl, rest⟩
      · exact utf8EncodeChar_append_lt first _ _
      · exact List.append_left_lt (ih rest)

end Token

theorem bytesLt_iff {s t : String} : BytesLt s t ↔ s < t := by
  have same (s : String) : s.toUTF8.data.toList = Token.octets s.toList := by
    rw [Token.toUTF8_eq_octets, List.data_toByteArray]
  have forward {s t : String} (lt : s < t) : BytesLt s t := by
    rw [BytesLt, same, same]
    exact Token.octets_lt lt
  refine ⟨fun bytes => String.not_le.1 fun le => ?_, forward⟩
  by_cases lt : t < s
  · exact List.lt_irrefl _ (List.lt_trans bytes (forward lt))
  · obtain rfl := String.le_antisymm le (String.not_lt.1 lt)
    exact List.lt_irrefl _ bytes

/-- One byte comes before two, and a text before those that begin with it. -/
example : BytesLt "z" "é" ∧ BytesLt "a" "a1" ∧ ¬BytesLt "a" "B" := by decide

end Reckon
