import Reckon.Token.Scan

/-!
Positions of a source text and the lists of characters that stand between them. A search that goes
through the text by its positions is compared with one that goes through a list by what it reads.
-/

namespace Reckon
namespace Token

/-- The bytes of the middle part of a text. -/
theorem extract_middle (before text behind : String) :
    (before ++ text ++ behind).toByteArray.extract before.utf8ByteSize
      (before.utf8ByteSize + text.utf8ByteSize) = text.toByteArray := by
  rw [String.append_assoc, String.toByteArray_append, String.toByteArray_append,
    ← String.size_toByteArray, ← String.size_toByteArray]
  have front := @ByteArray.extract_append_size_add before.toByteArray
    (text.toByteArray ++ behind.toByteArray) 0 text.toByteArray.size
  rw [Nat.add_zero] at front
  rw [front]
  exact ByteArray.extract_append_eq_left rfl

section
variable {s : String} {p q r : s.Pos} {cs ds : List Char}

/-- The characters from a position to the end. How a slice of the bytes is decoded matters to the
first lemmas only. -/
@[irreducible]
def following (p : s.Pos) : List Char := (s.sliceFrom p).copy.toList

/-- The characters from `p` to `q` are `cs`. -/
def Reads (p q : s.Pos) (cs : List Char) : Prop := following p = cs ++ following q

theorem splits_following (p : s.Pos) :
    p.Splits (s.sliceTo p).copy (String.ofList (following p)) := by
  rw [following, String.ofList_toList]
  exact p.splits

theorem following_startPos : following s.startPos = s.toList := by
  rw [following, s.startPos.splits.eq_right (String.splits_startPos s)]

theorem following_eq_nil : following p = [] ↔ p = s.endPos := by
  rw [p.splits.eq_endPos_iff, following, String.toList_eq_nil_iff]

theorem following_eq_cons (h : p ≠ s.endPos) : following p = p.get h :: following (p.next h) := by
  rw [following, p.splits.eq_right (p.splits_next_right h), String.toList_append,
    String.toList_singleton, following, List.singleton_append]

/-- A position is told by the characters behind it. -/
theorem eq_of_following (h : following p = following q) : p = q :=
  (splits_following p).pos_eq_of_eq_right (h ▸ splits_following q)

namespace Reads

theorem refl (p : s.Pos) : Reads p p [] := rfl

theorem cons {h : p ≠ s.endPos} (rest : Reads (p.next h) q cs) : Reads p q (p.get h :: cs) := by
  rw [Reads, following_eq_cons h, rest, List.cons_append]

theorem append (h : Reads p q cs) (h' : Reads q r ds) : Reads p r (cs ++ ds) := by
  rw [Reads, List.append_assoc, ← h', ← h]

/-- Something is read just when the position moves. -/
theorem eq_nil_iff (h : Reads p q cs) : cs = [] ↔ q = p := by
  constructor
  · rintro rfl
    exact (eq_of_following h).symm
  · rintro rfl
    exact List.append_left_eq_self.1 h.symm

/-- With something read behind it, a character counts; alone it does not. -/
theorem after {h : p ≠ s.endPos} : Reads (p.next h) q cs →
    Reads p (if q = p.next h then p else q)
      (match cs with
      | [] => []
      | row => p.get h :: row) := by
  intro rest
  split
  case isTrue same =>
    rw [rest.eq_nil_iff.2 same]
    exact .refl p
  case isFalse moved =>
    cases cs with
    | nil => exact absurd (rest.eq_nil_iff.1 rfl) moved
    | cons => exact rest.cons

theorem splits (h : Reads p q cs) :
    q.Splits ((s.sliceTo p).copy ++ String.ofList cs) (String.ofList (following q)) := by
  have whole := (splits_following p).eq_append
  rw [h, String.ofList_append, ← String.append_assoc] at whole
  exact (splits_following q).of_eq
    ((String.append_left_inj _).1 ((splits_following q).eq_append.symm.trans whole)) rfl

theorem offset_eq (h : Reads p q cs) :
    q.offset.byteIdx = p.offset.byteIdx + (String.ofList cs).utf8ByteSize := by
  rw [h.splits.offset_eq_rawEndPos, (splits_following p).offset_eq_rawEndPos,
    String.byteIdx_rawEndPos, String.byteIdx_rawEndPos, String.utf8ByteSize_append]

theorem remainingBytes_eq (h : Reads p q cs) :
    p.remainingBytes = (String.ofList cs).utf8ByteSize + q.remainingBytes := by
  rw [(splits_following p).remainingBytes_eq, (splits_following q).remainingBytes_eq, h,
    String.ofList_append, String.utf8ByteSize_append]

theorem extract_eq (h : Reads p q cs) : s.extract p q = String.ofList cs := by
  have bytes := extract_middle (s.sliceTo p).copy (String.ofList cs) (String.ofList (following q))
  rw [← h.splits.eq_append] at bytes
  rw [← String.toByteArray_inj, String.toByteArray_extract, ← bytes, h.offset_eq,
    (splits_following p).offset_eq_rawEndPos, String.byteIdx_rawEndPos]

end Reads

theorem offset_next (h : p ≠ s.endPos) :
    (p.next h).offset.byteIdx = p.offset.byteIdx + (p.get h).utf8Size := by
  rw [(Reads.refl (p.next h)).cons.offset_eq, ← String.singleton_eq_ofList,
    String.utf8ByteSize_singleton]

theorem pos?_offset (p : s.Pos) : s.pos? p.offset = some p := by
  have valid : String.Pos.Raw.isValidForSlice s.toSlice p.offset = true :=
    String.Pos.Raw.isValidForSlice_eq_true_iff.2 p.toSlice.isValidForSlice
  rw [String.pos?, String.Slice.pos?, dif_pos valid]
  rfl

/-- The end of the characters for which `keep` holds. -/
@[specialize]
def rowEnd (keep : Char → Bool) (p : s.Pos) : s.Pos :=
  if h : p = s.endPos then p
  else if keep (p.get h) then rowEnd keep (p.next h) else p
termination_by p

theorem reads_rowEnd (keep : Char → Bool) (p : s.Pos) :
    Reads p (rowEnd keep p) ((following p).takeWhile keep) := by
  fun_induction rowEnd keep p with
  | case1 =>
    rw [following_eq_nil.2 rfl]
    exact .refl _
  | case2 p h kept ih =>
    rw [following_eq_cons h, List.takeWhile_cons_of_pos kept]
    exact ih.cons
  | case3 p h kept =>
    rw [following_eq_cons h, List.takeWhile_cons_of_neg kept]
    exact .refl p

theorem following_rowEnd (keep : Char → Bool) (p : s.Pos) :
    following (rowEnd keep p) = (following p).dropWhile keep := by
  have whole : following p = (following p).takeWhile keep ++ _ := reads_rowEnd keep p
  refine List.append_cancel_left (whole.symm.trans ?_)
  rw [List.takeWhile_append_dropWhile]

/-- Where a text is skipped, it is read. -/
theorem reads_of_skip? {text : String} (h : p.skip? text = some q) : Reads p q text.toList := by
  rw [String.Pos.skip?_eq_skip?_toSlice, String.Slice.Pos.skip?_eq_map_skipPrefix?,
    Option.map_map, Option.map_eq_some_iff] at h
  obtain ⟨found, skipped, rfl⟩ := h
  obtain ⟨behind, split⟩ := String.Slice.skipPrefix?_string_eq_some_iff.1 skipped
  have front : (s.sliceFrom p).copy = text ++ behind := split.eq_append
  have whole : s = (s.sliceTo p).copy ++ text ++ behind := by
    rw [String.append_assoc, ← front]
    exact p.splits.eq_append
  have place : ((String.Pos.ofToSlice ∘ String.Slice.Pos.ofSliceFrom) found).offset =
      ((s.sliceTo p).copy ++ text).rawEndPos := by
    change (String.Slice.Pos.ofSliceFrom found).offset = _
    rw [String.Slice.Pos.offset_ofSliceFrom, split.offset_eq_rawEndPos, String.Pos.offset_toSlice,
      p.splits.offset_eq_rawEndPos, String.Pos.Raw.ext_iff]
    simp
  rw [Reads, following, following, front, String.Pos.Splits.copy_sliceFrom_eq ⟨whole, place⟩,
    String.toList_append]

end

end Token
end Reckon
