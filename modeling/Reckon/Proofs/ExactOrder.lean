import Reckon.Operator.Apply
import Reckon.Proofs.Truncation

/-!
Relations compare numbers exactly. An integer has its own place on the line and a double the place
of the rational number it is, and every relation holds of two numbers just as it holds of their
places. So the relations are those of one total preorder, whatever the kinds of the numbers.
-/

namespace Reckon

section
variable {n : Int64} {x : Float} {p q : WithBotTop ℚ}

/-- An integer and a number less than one away from another integer are ordered as the two integers
are, and as zero and the fraction are if the integers are the same. -/
theorem cmp_of_near {k w : ℤ} {a : ℚ} (near : |a - w| < 1) :
    cmp (k : ℚ) a = (compare k w).then (cmp 0 (a - w)) := by
  obtain ⟨above, below⟩ := abs_lt.1 near
  rcases lt_trichotomy k w with lt | rfl | gt
  · have : (k : ℚ) + 1 ≤ w := by exact_mod_cast lt
    have less : (k : ℚ) < a := by linarith
    rw [compare_lt_iff_lt.2 lt, less.cmp_eq_lt]
    rfl
  · have shifted := cmp_add_right (0 : ℚ) (a - k) k
    rw [zero_add, sub_add_cancel] at shifted
    rw [compare_eq_iff_eq.2 rfl, shifted]
    rfl
  · have : (w : ℚ) + 1 ≤ k := by exact_mod_cast gt
    have greater : a < k := by linarith
    rw [compare_gt_iff_gt.2 gt, greater.cmp_eq_gt]
    rfl

/-- The range test, the whole part and the fraction together give the exact order. -/
theorem orderMixed?_eq_cmp (px : Double.place? x = some p) :
    orderMixed? n x = some (cmp ↑(n.toInt : ℚ) p) := by
  have low : (-2 ^ 63 : ℚ) ≤ n.toInt := by exact_mod_cast n.le_toInt
  have high : (n.toInt : ℚ) < 2 ^ 63 := by exact_mod_cast n.toInt_lt
  have ordered : ¬x.isNaN := fun h => by
    rw [Double.place?_eq_none_iff.2 h] at px
    cases px
  rw [orderMixed?, if_neg ordered]
  split
  next beyond =>
    have beyond := (Double.le_iff Double.place?_bound px).1 beyond
    have less : ((n.toInt : ℚ) : WithBotTop ℚ) < p :=
      (WithBotTop.coe_strictMono high).trans_le beyond
    rw [less.cmp_eq_lt]
  next within =>
    have within := not_le.1 (mt (Double.le_iff Double.place?_bound px).2 within)
    split
    next beyond =>
      have beyond := (Double.lt_iff px Double.place?_neg_bound).1 beyond
      have greater : p < ((n.toInt : ℚ) : WithBotTop ℚ) :=
        beyond.trans_le (WithBotTop.coe_strictMono.monotone low)
      rw [greater.cmp_eq_gt]
    next within' =>
      have within' := not_lt.1 (mt (Double.lt_iff px Double.place?_neg_bound).2 within')
      cases p using WithBotTop.rec with
      | bot => exact absurd within' (WithBot.bot_lt_coe _).not_ge
      | top => exact absurd within not_top_lt
      | coe a =>
        obtain ⟨w, word, near, fraction⟩ := Double.exists_whole px
          (WithBotTop.coe_le_coe.1 within') (WithBotTop.coe_lt_coe.1 within)
        dsimp only
        rw [word, Double.order?_eq_cmp Double.place?_zero fraction, Double.cmp_coe_coe,
          Double.cmp_coe_coe, cmp_of_near near]
        cases compare n.toInt w <;> rfl

theorem orderMixed?_eq_none (px : Double.place? x = none) : orderMixed? n x = none := by
  rw [orderMixed?, if_pos (Double.place?_eq_none_iff.1 px)]

end

namespace Number

def value : Number → Value
  | .int n => .int n
  | .float x => .float x

/-- The place of a number on the line, the rational number it is or one of the ends. -/
def place? : Number → Option (WithBotTop ℚ)
  | .int n => some ↑(n.toInt : ℚ)
  | .float x => Double.place? x

section
variable {a b : Number} {p q : WithBotTop ℚ}

/-- Numbers are ordered as their places are. -/
theorem order?_eq_cmp (pa : a.place? = some p) (pb : b.place? = some q) :
    a.order? b = some (cmp p q) := by
  cases a with
  | int n =>
    obtain rfl := Option.some.inj pa
    cases b with
    | int m =>
      obtain rfl := Option.some.inj pb
      rw [Double.cmp_coe_coe, Int.cast_strictMono.cmp_map_eq, cmp_eq_compare]
      rfl
    | float y => exact orderMixed?_eq_cmp pb
  | float x =>
    cases b with
    | int m =>
      obtain rfl := Option.some.inj pb
      rw [order?, orderMixed?_eq_cmp pa, Option.map_some, cmp_swap]
    | float y => exact Double.order?_eq_cmp pa pb

/-- A number without a place has no order with any. -/
theorem order?_eq_none (h : a.place? = none ∨ b.place? = none) : a.order? b = none := by
  cases a with
  | int n =>
    replace h := h.resolve_left (Option.some_ne_none _)
    cases b with
    | int m => cases h
    | float y => exact orderMixed?_eq_none h
  | float x =>
    cases b with
    | int m =>
      replace h := h.resolve_right (Option.some_ne_none _)
      rw [order?, orderMixed?_eq_none h, Option.map_none]
    | float y => exact Double.order?_eq_none h

theorem place?_eq_none_iff : a.place? = none ↔ ∃ x, a = .float x ∧ x.isNaN := by
  cases a with
  | int n => simp [place?]
  | float x => simpa [place?] using Double.place?_eq_none_iff

theorem places_or (a b : Number) : (∃ p q, a.place? = some p ∧ b.place? = some q) ∨
    (a.place? = none ∨ b.place? = none) := by
  cases a.place? <;> cases b.place? <;> simp

theorem order?_swap (a b : Number) : b.order? a = (a.order? b).map Ordering.swap := by
  rcases places_or a b with ⟨p, q, pa, pb⟩ | none
  · rw [order?_eq_cmp pa pb, order?_eq_cmp pb pa, Option.map_some, cmp_swap]
  · rw [order?_eq_none none, order?_eq_none none.symm, Option.map_none]

end

end Number

namespace Relation

/-- The relation between places. -/
def Means (op : Relation) (p q : WithBotTop ℚ) : Prop :=
  match op with
  | .greater => q < p
  | .greaterEqual => q ≤ p
  | .equal => p = q
  | .lessEqual => p ≤ q
  | .less => p < q
  | .notEqual => p ≠ q

instance : (op : Relation) → (p q : WithBotTop ℚ) → Decidable (op.Means p q)
  | .greater, p, q => inferInstanceAs (Decidable (q < p))
  | .greaterEqual, p, q => inferInstanceAs (Decidable (q ≤ p))
  | .equal, p, q => inferInstanceAs (Decidable (p = q))
  | .lessEqual, p, q => inferInstanceAs (Decidable (p ≤ q))
  | .less, p, q => inferInstanceAs (Decidable (p < q))
  | .notEqual, p, q => inferInstanceAs (Decidable (p ≠ q))

/-- The relation with its sides exchanged. -/
def flip : Relation → Relation
  | .greater => .less
  | .greaterEqual => .lessEqual
  | .equal => .equal
  | .lessEqual => .greaterEqual
  | .less => .greater
  | .notEqual => .notEqual

section
variable {op : Relation} {p q r : WithBotTop ℚ}

theorem holds_cmp : op.holds (some (cmp p q)) = decide (op.Means p q) := by
  rw [Bool.eq_iff_iff, decide_eq_true_iff]
  cases op with
  | greater => simp [holds, Means, cmp_eq_gt_iff]
  | greaterEqual => simp [holds, Means, cmp_eq_gt_iff, cmp_eq_eq_iff, le_iff_lt_or_eq, @eq_comm _ p]
  | equal => simp [holds, Means, cmp_eq_eq_iff]
  | lessEqual => simp [holds, Means, cmp_eq_lt_iff, cmp_eq_eq_iff, le_iff_lt_or_eq]
  | less => simp [holds, Means, cmp_eq_lt_iff]
  | notEqual => simp [holds, Means, cmp_eq_eq_iff]

theorem holds_none : op.holds none = decide (op = .notEqual) := by cases op <;> rfl

theorem holds_flip (order : Option Ordering) :
    op.flip.holds (order.map Ordering.swap) = op.holds order := by
  rcases order with _ | _ | _ | _ <;> cases op <;> rfl

/-- An order is exactly one of the three. -/
theorem exists_unique_strict (order : Ordering) :
    ∃! op, op ∈ [less, equal, greater] ∧ op.holds (some order) := by
  cases order with
  | lt => exact ⟨less, by decide, fun op => by cases op <;> decide⟩
  | eq => exact ⟨equal, by decide, fun op => by cases op <;> decide⟩
  | gt => exact ⟨greater, by decide, fun op => by cases op <;> decide⟩

theorem Means.trans (h : op.Means p q) (h' : op.Means q r) (ne : op ≠ .notEqual) :
    op.Means p r := by
  cases op with
  | greater => exact lt_trans h' h
  | greaterEqual => exact le_trans h' h
  | equal => exact Eq.trans h h'
  | lessEqual => exact le_trans h h'
  | less => exact lt_trans h h'
  | notEqual => exact absurd rfl ne

end

end Relation

namespace Number

/-- The relation holds of two numbers when programs compare them. -/
def Related (op : Relation) (a b : Number) : Prop :=
  (BinaryOp.relation op).apply a.value b.value = .ok (.bool true)

section
variable {op : Relation} {a b c : Number} {p q : WithBotTop ℚ}

theorem apply_relation : (BinaryOp.relation op).apply a.value b.value =
    .ok (.bool (op.holds (a.order? b))) := by
  cases a <;> cases b <;> rfl

theorem apply_eq_means (pa : a.place? = some p) (pb : b.place? = some q) :
    (BinaryOp.relation op).apply a.value b.value = .ok (.bool (decide (op.Means p q))) := by
  rw [apply_relation, order?_eq_cmp pa pb, Relation.holds_cmp]

theorem apply_eq_notEqual (h : a.place? = none ∨ b.place? = none) :
    (BinaryOp.relation op).apply a.value b.value = .ok (.bool (decide (op = .notEqual))) := by
  rw [apply_relation, order?_eq_none h, Relation.holds_none]

theorem related_iff : Related op a b ↔ op.holds (a.order? b) := by
  rw [Related, apply_relation]
  simp

theorem related_lessEqual : Related .lessEqual a b ↔ Related .less a b ∨ Related .equal a b := by
  simp only [related_iff, Relation.holds, Bool.or_eq_true]

theorem related_notEqual : Related .notEqual a b ↔ ¬Related .equal a b := by
  simp only [related_iff, Relation.holds, bne, Bool.not_eq_true', Bool.not_eq_true]

theorem related_flip : Related op a b ↔ Related op.flip b a := by
  rw [related_iff, related_iff, order?_swap a b, Relation.holds_flip]

theorem related_trichotomy (pa : a.place? = some p) (pb : b.place? = some q) :
    ∃! op, op ∈ [Relation.less, .equal, .greater] ∧ Related op a b := by
  simp only [related_iff, order?_eq_cmp pa pb]
  exact Relation.exists_unique_strict (cmp p q)

/-- Numbers in a relation other than `notEqual` have places, in that relation. -/
theorem Related.means (h : Related op a b) (ne : op ≠ .notEqual) :
    ∃ p q, a.place? = some p ∧ b.place? = some q ∧ op.Means p q := by
  rcases places_or a b with ⟨p, q, pa, pb⟩ | none
  · refine ⟨p, q, pa, pb, ?_⟩
    rwa [related_iff, order?_eq_cmp pa pb, Relation.holds_cmp, decide_eq_true_iff] at h
  · rw [related_iff, order?_eq_none none, Relation.holds_none, decide_eq_true_iff] at h
    exact absurd h ne

theorem Related.trans (h : Related op a b) (h' : Related op b c) (ne : op ≠ .notEqual) :
    Related op a c := by
  obtain ⟨p, q, pa, pb, h⟩ := h.means ne
  obtain ⟨q', r, pb', pc, h'⟩ := h'.means ne
  obtain rfl : q = q' := Option.some.inj (pb.symm.trans pb')
  rw [related_iff, order?_eq_cmp pa pc, Relation.holds_cmp, decide_eq_true_iff]
  exact h.trans h' ne

end

end Number

open Number (Related)

/-- Relations compare integers and doubles alike by their exact places. Of what is not a number
only `notEqual` holds. So the six relations are those of one total preorder of all other numbers:
of less, equal and greater exactly one holds, all but `notEqual` are transitive, and exchanging the
sides exchanges the relations. -/
theorem comparison_exact (a b c : Number) :
    (∀ (op : Relation) (p q : WithBotTop ℚ), a.place? = some p → b.place? = some q →
      (BinaryOp.relation op).apply a.value b.value = .ok (.bool (decide (op.Means p q)))) ∧
    (∀ op : Relation, a.place? = none ∨ b.place? = none →
      (BinaryOp.relation op).apply a.value b.value = .ok (.bool (decide (op = .notEqual)))) ∧
    (a.place? = none ↔ ∃ x, a = .float x ∧ x.isNaN) ∧
    (a.place? ≠ none → b.place? ≠ none →
      ∃! op, op ∈ [Relation.less, .equal, .greater] ∧ Related op a b) ∧
    (Related .lessEqual a b ↔ Related .less a b ∨ Related .equal a b) ∧
    (Related .notEqual a b ↔ ¬Related .equal a b) ∧
    (∀ op, Related op a b ↔ Related op.flip b a) ∧
    (∀ op, op ≠ .notEqual → Related op a b → Related op b c → Related op a c) := by
  refine ⟨fun _ _ _ => Number.apply_eq_means, fun _ => Number.apply_eq_notEqual,
    Number.place?_eq_none_iff, fun ha hb => ?_, Number.related_lessEqual, Number.related_notEqual,
    fun _ => Number.related_flip, fun _ ne h h' => h.trans h' ne⟩
  obtain ⟨p, pa⟩ := Option.ne_none_iff_exists'.1 ha
  obtain ⟨q, pb⟩ := Option.ne_none_iff_exists'.1 hb
  exact Number.related_trichotomy pa pb

/-- `2 ^ 53 + 1`, which no double is, is greater than the double `2 ^ 53` next to it; that is
greater than `2 ^ 53 - 1`; and nothing but `notEqual` holds of what is not a number. -/
theorem comparison_exact_beside_double :
    let above : Number := .int 9007199254740993
    let double : Number := .float (.ofModel (.ofInt 9007199254740992))
    let below : Number := .int 9007199254740991
    let nan : Number := .float (.ofModel (.pack .notANumber))
    (BinaryOp.relation .greater).apply above.value double.value = .ok (.bool true) ∧
    (BinaryOp.relation .equal).apply above.value double.value = .ok (.bool false) ∧
    (BinaryOp.relation .lessEqual).apply nan.value double.value = .ok (.bool false) ∧
    (BinaryOp.relation .notEqual).apply nan.value double.value = .ok (.bool true) ∧
    (∃! op, op ∈ [Relation.less, .equal, .greater] ∧ Related op above double) ∧
    Related .greater above below := by
  intro above double below nan
  have unpacked : (Float.ofModel (.ofInt 9007199254740992)).toModel.unpack =
      .finite .positive (2 ^ 52) 1 (Nat.two_pow_pos 52) := rfl
  have place : double.place? = some ↑(2 ^ 53 : ℚ) := by
    change Double.place? _ = _
    rw [Double.place?, unpacked, Double.formPlace?, Double.rational_positive]
    norm_num
  have placeAbove : above.place? = some ↑(2 ^ 53 + 1 : ℚ) := by
    have word : (9007199254740993 : Int64).toInt = 2 ^ 53 + 1 := by decide
    rw [Number.place?, word]
    norm_num
  have placeBelow : below.place? = some ↑(2 ^ 53 - 1 : ℚ) := by
    have word : (9007199254740991 : Int64).toInt = 2 ^ 53 - 1 := by decide
    rw [Number.place?, word]
    norm_num
  have noPlace : nan.place? = none := rfl
  have greater : Relation.greater.Means ↑(2 ^ 53 + 1 : ℚ) ↑(2 ^ 53 : ℚ) :=
    WithBotTop.coe_lt_coe.2 (by norm_num)
  have greater' : Relation.greater.Means ↑(2 ^ 53 : ℚ) ↑(2 ^ 53 - 1 : ℚ) :=
    WithBotTop.coe_lt_coe.2 (by norm_num)
  have unequal : ¬Relation.equal.Means ↑(2 ^ 53 + 1 : ℚ) ↑(2 ^ 53 : ℚ) := ne_of_gt greater
  obtain ⟨places, -, -, strict, -, -, -, trans⟩ := comparison_exact above double below
  obtain ⟨places', -⟩ := comparison_exact double below above
  obtain ⟨-, none, -⟩ := comparison_exact nan double below
  have first := places .greater _ _ placeAbove place
  have second := places' .greater _ _ place placeBelow
  have third := places .equal _ _ placeAbove place
  rw [decide_eq_true greater] at first
  rw [decide_eq_true greater'] at second
  rw [decide_eq_false unequal] at third
  exact ⟨first, third, none .lessEqual (.inl noPlace), none .notEqual (.inl noPlace),
    strict (by simp [placeAbove]) (by simp [place]), trans .greater (by decide) first second⟩

end Reckon
