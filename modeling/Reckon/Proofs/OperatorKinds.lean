import Reckon.Operator.Apply
import Reckon.Proofs.Sequence

/-!
The kinds that operators yield. Which kind a result has, and which operand is of the wrong kind,
can be told from the kinds of the operands. The numbers themselves only decide whether a division
or an integer operation fails.
-/

namespace Reckon

namespace EvalError

/-- The error comes from what the numbers are, and not from the kinds of the values. -/
def isNumeric : EvalError → Bool
  | .divisionByZero | .integerOverflow _ => true
  | _ => false

end EvalError

namespace Kind

/-- The kind, if values of it are numbers. -/
def asNumber (place : Place) : Kind → Except EvalError Kind
  | .int => .ok .int
  | .float => .ok .float
  | k => .error (.typeMismatch place .number k)

def asBool (place : Place) : Kind → Except EvalError Kind
  | .bool => .ok .bool
  | k => .error (.typeMismatch place .bool k)

/-- Arithmetic stays within the integers only if both sides are integers. -/
def promote : Kind → Kind → Kind
  | .int, .int => .int
  | _, _ => .float

end Kind

/-- The kind of `left op right`. -/
def BinaryOp.kindOn (op : BinaryOp) (left right : Kind) : Except EvalError Kind :=
  match op with
  | .ring _ => do
    let a ← left.asNumber (.binary op)
    let b ← right.asNumber (.binary op)
    return a.promote b
  | .divide => do
    let _ ← left.asNumber (.binary op)
    let _ ← right.asNumber (.binary op)
    return .float
  | .logic _ => do
    let _ ← left.asBool (.binary op)
    let _ ← right.asBool (.binary op)
    return .bool
  | .relation _ => do
    let _ ← left.asNumber (.binary op)
    let _ ← right.asNumber (.binary op)
    return .bool

/-- The kind of `op operand`. -/
def UnaryOp.kindOn (op : UnaryOp) (operand : Kind) : Except EvalError Kind :=
  match op with
  | .negate => operand.asNumber (.unary op)
  | .not => operand.asBool (.unary op)

/-- The error of indexing a value of a kind other than lists. -/
def Kind.indexError (base index : Kind) : EvalError :=
  if index = .int then .notIndexable base else .typeMismatch .index .int index

/-- The result is what its kind was said to be, or a number is at fault where a kind was said. -/
inductive OfKind : Except EvalError Kind → Except EvalError Value → Prop where
  | ok (v : Value) : OfKind (.ok v.kind) (.ok v)
  | error (e : EvalError) : OfKind (.error e) (.error e)
  | numeric {e : EvalError} (k : Kind) (numeric : e.isNumeric) : OfKind (.ok k) (.error e)

def Number.kind : Number → Kind
  | .int _ => .int
  | .float _ => .float

theorem Value.asNumber_kind (place : Place) (v : Value) :
    v.kind.asNumber place = (v.asNumber place).map Number.kind := by
  cases v <;> rfl

theorem Value.asBool_kind (place : Place) (v : Value) :
    v.kind.asBool place = (v.asBool place).map fun _ => .bool := by
  cases v <;> rfl

/-- An operand that is not read fails by its kind as it fails by its value. -/
theorem OfKind.bind {α : Type} {operand : Except EvalError α} {kindOf : α → Kind}
    {kind : Kind → Except EvalError Kind} {f : α → Except EvalError Value}
    (h : ∀ a, OfKind (kind (kindOf a)) (f a)) :
    OfKind (operand.map kindOf >>= kind) (operand >>= f) := by
  cases operand with
  | error e => exact .error e
  | ok a => exact h a

theorem checked_ofKind (operation : IntOperation) (n : Int) :
    OfKind (.ok .int) (checked operation n) := by
  unfold checked
  split
  next w _ => exact .ok (.int w)
  next => exact .numeric .int rfl

theorem RingOp.apply_ofKind (op : RingOp) (a b : Number) :
    OfKind (.ok (a.kind.promote b.kind)) (op.apply a b) := by
  cases a with
  | int m =>
    cases b with
    | int n => exact checked_ofKind (.ring op) _
    | float y => exact .ok (.float _)
  | float x => cases b <;> exact .ok (.float _)

theorem Number.divide_ofKind (a b : Number) : OfKind (.ok .float) (a.divide b) := by
  unfold divide
  split
  · exact .numeric .float rfl
  · exact .ok (.float _)

theorem BinaryOp.apply_ofKind (op : BinaryOp) (l r : Value) :
    OfKind (op.kindOn l.kind r.kind) (op.apply l r) := by
  cases op with
  | ring op =>
    simp only [kindOn, Value.asNumber_kind]
    exact .bind fun a => .bind fun b => op.apply_ofKind a b
  | divide =>
    simp only [kindOn, Value.asNumber_kind]
    exact .bind fun a => .bind fun b => a.divide_ofKind b
  | logic op =>
    simp only [kindOn, Value.asBool_kind]
    exact .bind fun a => .bind fun b => .ok (.bool (op.apply a b))
  | relation op =>
    simp only [kindOn, Value.asNumber_kind]
    exact .bind fun a => .bind fun b => .ok (.bool (op.holds (a.order? b)))

theorem UnaryOp.apply_ofKind (op : UnaryOp) (v : Value) :
    OfKind (op.kindOn v.kind) (op.apply v) := by
  cases op with
  | negate =>
    rw [kindOn, ← bind_pure (Kind.asNumber _ _), Value.asNumber_kind]
    refine .bind fun a => ?_
    cases a with
    | int n => exact checked_ofKind .negate _
    | float x => exact .ok (.float (-x))
  | not =>
    rw [kindOn, ← bind_pure (Kind.asBool _ _), Value.asBool_kind]
    exact .bind fun a => .ok (.bool !a)

/-- The kinds that programs make values of. -/
def Kind.isScalar : Kind → Bool
  | .int | .float | .bool => true
  | .list | .void => false

theorem Kind.isScalar_of_asNumber {place : Place} {k n : Kind} (h : k.asNumber place = .ok n) :
    n.isScalar := by
  cases k <;> cases h <;> rfl

theorem Kind.isScalar_of_asBool {place : Place} {k b : Kind} (h : k.asBool place = .ok b) :
    b.isScalar := by
  cases k <;> cases h
  rfl

theorem Kind.isScalar_promote (a b : Kind) : (a.promote b).isScalar := by
  unfold promote
  split <;> rfl

theorem BinaryOp.isScalar_of_kindOn {op : BinaryOp} {l r k : Kind} (h : op.kindOn l r = .ok k) :
    k.isScalar := by
  cases op with
  | ring op =>
    obtain ⟨a, _, h⟩ := bind_eq_ok.1 h
    obtain ⟨b, _, ⟨⟩⟩ := bind_eq_ok.1 h
    exact a.isScalar_promote b
  | divide | logic _ | relation _ =>
    obtain ⟨_, _, h⟩ := bind_eq_ok.1 h
    obtain ⟨_, _, ⟨⟩⟩ := bind_eq_ok.1 h
    rfl

theorem UnaryOp.isScalar_of_kindOn {op : UnaryOp} {operand k : Kind}
    (h : op.kindOn operand = .ok k) : k.isScalar := by
  cases op with
  | negate => exact Kind.isScalar_of_asNumber h
  | not => exact Kind.isScalar_of_asBool h

theorem OfKind.isNumeric_of_error {k : Kind} {e : EvalError} (h : OfKind (.ok k) (.error e)) :
    e.isNumeric := by
  cases h
  assumption

theorem OfKind.eq_of_ok {k : Except EvalError Kind} {v : Value} (h : OfKind k (.ok v)) :
    k = .ok v.kind := by
  cases h
  rfl

/-- A value that is no list cannot be indexed, whatever the index. -/
theorem Value.index_eq_error {base : Value} (flat : base.kind ≠ .list) (index : Value) :
    base.index index = .error (base.kind.indexError index.kind) := by
  cases base with
  | list items => exact absurd rfl flat
  | _ => cases index <;> rfl

end Reckon
