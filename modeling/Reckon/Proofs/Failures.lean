import Reckon.Operator.Apply
import Reckon.Proofs.Sequence

/-!
What operators fail with. A unary or binary operator names itself and the kind of the operand it
does not accept, divides by zero or overflows; an index step is at fault with the index, with the
value it applies to, or with the range. None of them knows of nesting.
-/

namespace Reckon

section
variable {v l r : Value} {e : EvalError} {place : Place}

theorem Value.error_of_asNumber (h : v.asNumber place = .error e) :
    e = .typeMismatch place .number v.kind := by
  unfold asNumber at h
  split at h <;> cases h
  rfl

theorem Value.error_of_asBool (h : v.asBool place = .error e) :
    e = .typeMismatch place .bool v.kind := by
  unfold asBool at h
  split at h <;> cases h
  rfl

theorem error_of_checked {operation : IntOperation} {n : Int}
    (h : checked operation n = .error e) : e = .integerOverflow operation := by
  unfold checked at h
  split at h <;> cases h
  rfl

theorem RingOp.error_of_apply {op : RingOp} {a b : Number} (h : op.apply a b = .error e) :
    e = .integerOverflow (.ring op) := by
  unfold apply at h
  split at h
  · exact error_of_checked h
  · cases h

theorem Number.error_of_divide {a b : Number} (h : a.divide b = .error e) :
    e = .divisionByZero := by
  unfold divide at h
  split at h <;> cases h
  rfl

/-- Of two operands that are read in the same way, one cannot be read, or what comes after them
fails. -/
theorem error_of_operands {α : Type} {read : Value → Except EvalError α}
    {combine : α → α → Except EvalError Value}
    (mismatch : ∀ {v e}, read v = .error e → ∃ expected, e = .typeMismatch place expected v.kind)
    (h : (do let a ← read l; let b ← read r; combine a b) = .error e) :
    (∃ expected found, e = .typeMismatch place expected found) ∨
      ∃ a b, combine a b = .error e := by
  obtain h | ⟨a, _, h⟩ := bind_eq_error.1 h
  · obtain ⟨expected, eq⟩ := mismatch h
    exact .inl ⟨expected, _, eq⟩
  obtain h | ⟨b, _, h⟩ := bind_eq_error.1 h
  · obtain ⟨expected, eq⟩ := mismatch h
    exact .inl ⟨expected, _, eq⟩
  exact .inr ⟨a, b, h⟩

/-- An operand of the wrong kind, a zero divisor or a result out of range. -/
theorem BinaryOp.error_of_apply {op : BinaryOp} (h : op.apply l r = .error e) :
    (∃ expected found, e = .typeMismatch (.binary op) expected found) ∨ e = .divisionByZero ∨
      ∃ operation, e = .integerOverflow operation := by
  cases op with
  | ring op =>
    obtain h | ⟨a, b, h⟩ := error_of_operands (fun h => ⟨_, Value.error_of_asNumber h⟩) h
    · exact .inl h
    · exact .inr (.inr ⟨_, RingOp.error_of_apply h⟩)
  | divide =>
    obtain h | ⟨a, b, h⟩ := error_of_operands (fun h => ⟨_, Value.error_of_asNumber h⟩) h
    · exact .inl h
    · exact .inr (.inl (Number.error_of_divide h))
  | logic op =>
    obtain h | ⟨a, b, h⟩ := error_of_operands (fun h => ⟨_, Value.error_of_asBool h⟩) h
    · exact .inl h
    · cases h
  | relation op =>
    obtain h | ⟨a, b, h⟩ := error_of_operands (fun h => ⟨_, Value.error_of_asNumber h⟩) h
    · exact .inl h
    · cases h

theorem UnaryOp.error_of_apply {op : UnaryOp} (h : op.apply v = .error e) :
    (∃ expected, e = .typeMismatch (.unary op) expected v.kind) ∨
      e = .integerOverflow .negate := by
  cases op with
  | negate =>
    obtain h | ⟨n, _, h⟩ := bind_eq_error.1 h
    · exact .inl ⟨_, Value.error_of_asNumber h⟩
    · cases n with
      | int n => exact .inr (error_of_checked h)
      | float x => cases h
  | not =>
    obtain h | ⟨b, _, h⟩ := bind_eq_error.1 h
    · exact .inl ⟨_, Value.error_of_asBool h⟩
    · cases h

theorem Value.error_of_index {base index : Value} (h : base.index index = .error e) :
    e = .typeMismatch .index .int index.kind ∨ e = .notIndexable base.kind ∨
      ∃ i length, e = .indexOutOfRange i length := by
  unfold Value.index at h
  split at h
  · cases h
    exact .inl rfl
  · cases h
    exact .inr (.inl rfl)
  · split at h
    · cases h
    · cases h
      exact .inr (.inr ⟨_, _, rfl⟩)

end
end Reckon
