import Reckon.Proofs.ParserCompleteness

/-!
More room never changes what is read. A parser with more room, and with parts that are themselves
given more, reads the same tree or is refused in the same place for the same reason, unless the
first one was refused for lack of levels.
-/

namespace Reckon

/-- The second result is the first one, unless the first one is a failure of the kind `deep`. -/
inductive SameUnless {ε α : Type} (deep : ε → Bool) : Except ε α → Except ε α → Prop where
  | same {x : Except ε α} : SameUnless deep x x
  | deep {e : ε} {y : Except ε α} (h : deep e) : SameUnless deep (.error e) y

namespace SameUnless

variable {ε α β : Type} {deep : ε → Bool} {x y : Except ε α}

theorem bind {f g : α → Except ε β} (h : SameUnless deep x y)
    (next : ∀ a, SameUnless deep (f a) (g a)) : SameUnless deep (x >>= f) (y >>= g) := by
  cases h with
  | same =>
    cases x with
    | ok a => exact next a
    | error e => exact .same
  | deep h => exact .deep h

theorem map {f : α → Except ε β} (h : SameUnless deep x y) :
    SameUnless deep (x >>= f) (y >>= f) :=
  h.bind fun _ => .same

theorem eq (h : SameUnless deep x y) (shallow : ∀ e, x = .error e → deep e = false) : y = x := by
  cases h with
  | same => rfl
  | deep h =>
    have not := shallow _ rfl
    rw [h] at not
    cases not

end SameUnless

namespace Grammar

/-- The refusal is for lack of levels. -/
def Refusal.isDepth : Refusal → Bool
  | .unexpected _ _ => false
  | .tooDeep _ => true

/-- `q` with more room does what `p` does, unless `p` runs out of levels. -/
def Extends (p q : Parser) : Prop :=
  ∀ ⦃room room' toks⦄, room ≤ room' → SameUnless Refusal.isDepth (p room toks) (q room' toks)

section
variable {p q : Parser} {rule : Rule} {operator : TokenKind → Option Rule} {room room' : Nat}
  {toks : List Token}

theorem Extends.nested (h : Extends p q) : Extends (nested p) (nested q) := by
  intro room room' toks le
  cases room with
  | zero => exact .deep rfl
  | succ room =>
    obtain ⟨room', rfl⟩ : ∃ r, room' = r + 1 := ⟨room' - 1, by omega⟩
    exact h (Nat.le_of_succ_le_succ le)

theorem Extends.wrapped (h : Extends p q) : Extends (wrapped rule p) (wrapped rule q) := by
  intro room room' toks le
  exact (h le).map

theorem chainFrom_extends (h : Extends p q) {tree : Tree} (le : room ≤ room') :
    SameUnless Refusal.isDepth (chainFrom rule operator p room tree toks)
      (chainFrom rule operator q room' tree toks) := by
  induction room generalizing room' tree toks with
  | zero =>
    cases toks with
    | nil =>
      rw [chainFrom, chainFrom]
      exact .same
    | cons t toks =>
      cases sign : operator t.kind with
      | none =>
        simp only [chainFrom, sign]
        exact .same
      | some op =>
        rw [chainFrom, sign]
        exact .deep rfl
  | succ room ih =>
    obtain ⟨room', rfl⟩ : ∃ r, room' = r + 1 := ⟨room' - 1, by omega⟩
    have le := Nat.le_of_succ_le_succ le
    cases toks with
    | nil =>
      rw [chainFrom, chainFrom]
      exact .same
    | cons t toks =>
      cases sign : operator t.kind with
      | none =>
        simp only [chainFrom, sign]
        exact .same
      | some op =>
        simp only [chainFrom, sign]
        exact (h le).bind fun _ => ih le

theorem chain_extends (h : Extends p q) :
    Extends (chain rule operator p) (chain rule operator q) := by
  intro room room' toks le
  exact (h le).bind fun _ => chainFrom_extends h le

theorem arithExpr_extends (h : Extends p q) : Extends (arithExpr p) (arithExpr q) :=
  (chain_extends (chain_extends h)).wrapped

theorem comparison_extends (h : Extends p q) : Extends (comparison p) (comparison q) := by
  intro room room' toks le
  refine (arithExpr_extends h le).bind fun left => ?_
  dsimp only
  split
  · exact (arithExpr_extends h le).map
  · exact .same

theorem negation_extends (h : Extends p q) : Extends (negation p) (negation q) := by
  intro room room' toks le
  induction toks generalizing room room' with
  | nil =>
    rw [negation_of_ne_not (by simp), negation_of_ne_not (by simp)]
    exact (comparison_extends h).wrapped le
  | cons t toks ih =>
    by_cases kind : t.kind = .not
    · obtain ⟨_, text, span⟩ := t
      cases kind
      cases room with
      | zero => exact .deep rfl
      | succ room =>
        obtain ⟨room', rfl⟩ : ∃ r, room' = r + 1 := ⟨room' - 1, by omega⟩
        rw [negation, negation]
        exact (ih (Nat.le_of_succ_le_succ le)).map
    · rw [negation_of_ne_not (by simpa using kind), negation_of_ne_not (by simpa using kind)]
      exact (comparison_extends h).wrapped le

theorem logicExpr_extends (h : Extends p q) : Extends (logicExpr p) (logicExpr q) :=
  (chain_extends (chain_extends (negation_extends h))).wrapped.nested

theorem indices_extends (h : Extends p q) {bound : List Token} (le : room ≤ room') :
    SameUnless Refusal.isDepth (indices p room bound toks) (indices q room' bound toks) := by
  fun_induction indices p room bound toks with
  | case1 _ bound text span toks ih =>
    rw [indices]
    refine (arithExpr_extends h le).bind fun index => ?_
    exact SameUnless.same.bind fun rest => (ih rest).map
  | case2 bound toks none =>
    rw [indices]
    · exact .same
    · exact none

theorem atomAround_extends (h : Extends p q) : Extends (atomAround p) (atomAround q) := by
  refine Extends.nested fun room room' toks le => ?_
  split
  · exact .same
  · exact .same
  · exact .same
  · exact .same
  · exact (indices_extends h le).map
  · exact (h le).map
  · exact (logicExpr_extends h le).bind fun _ => .same
  · exact .same

theorem atomUpTo_extends {bound bound' : Nat} (le : bound ≤ bound') :
    Extends (atomUpTo bound) (atomUpTo bound') := by
  induction bound generalizing bound' with
  | zero =>
    intro room room' toks _
    exact .deep rfl
  | succ bound ih =>
    obtain ⟨bound', rfl⟩ : ∃ b, bound' = b + 1 := ⟨bound' - 1, by omega⟩
    exact atomAround_extends (ih (Nat.le_of_succ_le_succ le))

theorem line_extends (h : Extends p q) : Extends (line p) (line q) := by
  intro room room' toks le
  unfold line
  split
  · exact (logicExpr_extends h le).map
  · exact (logicExpr_extends h).wrapped le

theorem lines_extends (h : Extends p q) {bound : List Token} (le : room ≤ room') :
    SameUnless Refusal.isDepth (lines p room bound toks) (lines q room' bound toks) := by
  fun_induction lines p room bound toks with
  | case1 _ bound t toks newline ih =>
    rw [lines, if_pos newline]
    exact ih
  | case2 _ bound t toks other ih =>
    rw [lines, if_neg other]
    refine (line_extends h le).bind fun first => ?_
    exact SameUnless.same.bind fun _ => (ih first.2).map
  | case3 bound toks none =>
    rw [lines]
    · exact .same
    · exact none

theorem Start.parser_extends (h : Extends p q) (start : Start) :
    Extends (start.parser p) (start.parser q) := by
  intro room room' toks le
  cases start with
  | program => exact (lines_extends h le).map
  | line => exact line_extends h le
  | expression => exact logicExpr_extends h le
  | arith => exact arithExpr_extends h le

theorem parseTokens_extends {start : Start} {limit limit' : Nat} (le : limit ≤ limit') :
    SameUnless Refusal.isDepth (parseTokens start limit toks) (parseTokens start limit' toks) :=
  (start.parser_extends (atomUpTo_extends le) le).map

end

end Grammar

end Reckon
