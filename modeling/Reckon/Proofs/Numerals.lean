import Reckon.Numeral
import Reckon.Proofs.Spelling

/-!
Number tokens and the numbers they stand for. Digits are an integer unless their value is beyond 64
bits, every text of a float token is a double, and the written form of an integer that is not
negative reads back as that integer.
-/

namespace Reckon

open Token

namespace Decimal

section
variable {cs e : List Char} {magnitude? : List Char → Option Nat}

theorem ofDigits_eq_ofDigitChars (digits : List Char) :
    ofDigits digits = Nat.ofDigitChars 10 digits 0 :=
  ofDigits_eq_foldl digits

theorem digits?_of_isDigits (h : IsDigits cs) : digits? cs = some cs :=
  if_pos ⟨h.1, List.all_eq_true.2 h.2⟩

theorem signed?_of_isDigits (h : IsDigits cs) :
    signed? magnitude? cs = (magnitude? cs).map (fun n : Nat => (n : Int)) := by
  obtain ⟨d, ds, rfl, digit⟩ := h.exists_cons
  unfold signed?
  split
  next eq =>
    cases eq
    cases digit
  next eq =>
    cases eq
    cases digit
  next => cases magnitude? (d :: ds) <;> rfl

theorem exponent?_isSome (h : e = [] ∨ IsExponent e) : (exponent? e).isSome := by
  rcases h with rfl | h
  · rfl
  · cases h with
    | plain letter h =>
      rcases letter with rfl | rfl <;> simp [exponent?, signed?_of_isDigits h, digits?_of_isDigits h]
    | signed letter plusMinus h =>
      rcases letter with rfl | rfl <;> rcases plusMinus with rfl | rfl <;>
        simp [exponent?, signed?, digits?_of_isDigits h]

/-- A number with a point, whatever stands on its two sides. -/
theorem read?_point {whole fraction : List Char} (hw : AllDigits whole) (hf : AllDigits fraction)
    (digit : ¬(whole = [] ∧ fraction = [])) (exp : e = [] ∨ IsExponent e) :
    read? (whole ++ '.' :: (fraction ++ e)) =
      (exponent? e).map fun k => ⟨ofDigits (whole ++ fraction), k - fraction.length⟩ := by
  have stop : ∀ c ∈ ('.' :: (fraction ++ e)).head?, c.isDigit = false := by
    intro c mem
    cases mem
    rfl
  have stop' : ∀ c ∈ (e ++ []).head?, c.isDigit = false :=
    not_isDigit_optional exp (by simp [Apart])
  rw [List.append_nil] at stop'
  rw [read?, takeWhile_row hw stop, dropWhile_row hw stop]
  simp only [takeWhile_row hf stop', dropWhile_row hf stop', if_neg digit]

/-- A number without a point. -/
theorem read?_exponent {whole : List Char} (h : IsDigits whole) (exp : IsExponent e) :
    read? (whole ++ e) = (exponent? e).map fun k => ⟨ofDigits whole, k⟩ := by
  have stop : ∀ c ∈ (e ++ []).head?, c.isDigit = false := exp.not_isDigit
  rw [List.append_nil] at stop
  rw [read?, takeWhile_row h.2 stop, dropWhile_row h.2 stop]
  split
  next fraction rest eq =>
    split at eq
    next =>
      obtain ⟨c, cs, eq, letter⟩ := exp.exists_cons
      cases eq
      rcases letter with eq | eq <;> cases eq
    next =>
      cases eq
      rw [if_neg (fun both => h.1 both.1), List.append_nil]
      simp only [List.length_nil, Int.natCast_zero, Int.sub_zero]

theorem read?_isSome (h : IsFloat cs) : (read? cs).isSome := by
  cases h with
  | exponent h exp =>
    rw [read?_exponent h exp, Option.isSome_map]
    exact exponent?_isSome (.inr exp)
  | point h hf exp =>
    rw [read?_point h.2 hf (fun both => h.1 both.1) exp, Option.isSome_map]
    exact exponent?_isSome exp
  | @fraction fraction e h exp =>
    rw [← List.nil_append ('.' :: (fraction ++ e)),
      read?_point (List.forall_mem_nil _) h.2 (fun both => h.1 both.2) exp, Option.isSome_map]
    exact exponent?_isSome exp

end

end Decimal

namespace Numeral

section
variable {text : String} {n : Int64}

theorem int?_of_isDigits (h : IsDigits text.toList) :
    int? text = int64? (Nat.ofDigitChars 10 text.toList 0) := by
  rw [int?, Decimal.integer?, Decimal.signed?_of_isDigits h, Decimal.natural?,
    Decimal.digits?_of_isDigits h, Option.map_some, Option.map_some, Option.bind_some,
    Decimal.ofDigits_eq_ofDigitChars]

theorem int?_eq_none_iff (h : IsDigits text.toList) :
    int? text = none ↔ Int64.maxValue.toInt < Nat.ofDigitChars 10 text.toList 0 := by
  have least : Int64.minValue.toInt ≤ 0 := by decide
  rw [int?_of_isDigits h, int64?]
  split
  next within => simp [Int.not_lt.2 within.2]
  next beyond => simp; omega

theorem toLower_of_not_isAlpha {c : Char} (h : c.isAlpha = false) : c.toLower = c := by
  have neither : (c.isUpper || c.isLower) = false := h
  rw [Bool.or_eq_false_iff] at neither
  exact dif_neg (of_decide_eq_false neither.1)

/-- No word is spelled like a float token, which begins with a digit or a point. -/
theorem magnitude?_of_isFloat {cs : List Char} (h : IsFloat cs) :
    magnitude? cs = (Decimal.read? cs).map Decimal.toFloat := by
  obtain ⟨c, cs, rfl, first⟩ := h.exists_cons
  have notAlpha : c.isAlpha = false := by
    rcases first with digit | rfl
    · exact not_isAlpha_of_isDigit digit
    · rfl
  have notWord {word : String} {d : Char} {ds : List Char} (letters : word.toList = d :: ds)
      (letter : d.isAlpha = true) : String.ofList ((c :: cs).map Char.toLower) ≠ word := by
    intro same
    have chars := congrArg String.toList same
    rw [String.toList_ofList, letters, List.map_cons, toLower_of_not_isAlpha notAlpha] at chars
    rw [← (List.cons.inj chars).1, notAlpha] at letter
    cases letter
  rw [magnitude?, if_neg (not_or.2 ⟨notWord rfl rfl, notWord rfl rfl⟩), if_neg (notWord rfl rfl)]

/-- A float token has no sign. -/
theorem float?_of_isFloat (h : IsFloat text.toList) : float? text = magnitude? text.toList := by
  obtain ⟨c, cs, chars, first⟩ := h.exists_cons
  rw [float?]
  split
  next eq =>
    cases chars.symm.trans eq
    rcases first with no | no <;> cases no
  next eq =>
    cases chars.symm.trans eq
    rcases first with no | no <;> cases no
  next => rfl

theorem float?_isSome (h : IsFloat text.toList) : (float? text).isSome := by
  rw [float?_of_isFloat h, magnitude?_of_isFloat h, Option.isSome_map]
  exact Decimal.read?_isSome h

/-- The digits of an integer that is not negative. -/
theorem toList_toString_of_nonneg {k : Int} (h : 0 ≤ k) :
    (toString k).toList = Nat.toDigits 10 k.toNat := by
  obtain ⟨m, rfl⟩ := Int.eq_ofNat_of_zero_le h
  rw [Int.toNat_natCast, ← Nat.toList_repr]
  rfl

theorem toList_toString_of_neg {k : Int} (h : k < 0) :
    (toString k).toList = '-' :: Nat.toDigits 10 k.natAbs := by
  obtain ⟨m, rfl⟩ := Int.eq_negSucc_of_lt_zero h
  show ("-" ++ Nat.repr (m + 1)).toList = _
  rw [String.toList_append, Nat.toList_repr]
  rfl

theorem toList_ofInt (h : 0 ≤ n.toInt) : (ofInt n).toList = Nat.toDigits 10 n.toInt.toNat :=
  toList_toString_of_nonneg h

theorem isDigits_toDigits (m : Nat) : IsDigits (Nat.toDigits 10 m) :=
  ⟨Nat.toDigits_ne_nil, fun c mem => Nat.isDigit_of_mem_toDigits (by decide) (by decide) mem⟩

theorem isDigits_ofInt (h : 0 ≤ n.toInt) : IsDigits (ofInt n).toList := by
  rw [toList_ofInt h]
  exact isDigits_toDigits _

theorem int64?_toInt (n : Int64) : int64? n.toInt = some n := by
  rw [int64?, if_pos ⟨n.minValue_le_toInt, n.toInt_le⟩, Int64.ofInt_toInt]

theorem int?_ofInt (h : 0 ≤ n.toInt) : int? (ofInt n) = some n := by
  rw [int?_of_isDigits (isDigits_ofInt h), toList_ofInt h, Nat.ofDigitChars_ten_toDigits,
    Int.toNat_of_nonneg h, int64?_toInt]

end

end Numeral
end Reckon
