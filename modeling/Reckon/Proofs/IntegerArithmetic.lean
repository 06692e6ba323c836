import Reckon.Proofs.PlainEvaluation

/-!
Arithmetic of integers, exactly and in words of 64 bits. What a program of integers yields is its
exact value, if all values on the way fit a word; if not, it is the overflow of the first operation
whose value does not fit, in the order in which operations are carried out.
-/

namespace Reckon

/-- Numbers and the operations on them, as they are grouped. -/
inductive IntExpr where
  | numeral (n : Nat)
  | negate (operand : IntExpr)
  | ring (op : RingOp) (left right : IntExpr)
deriving DecidableEq

/-- The number is that of a word. -/
def InWord (n : Int) : Prop := -9223372036854775808 ≤ n ∧ n ≤ 9223372036854775807

instance : DecidablePred InWord := fun _ => instDecidableAnd

theorem inWord_iff {n : Int} :
    InWord n ↔ Int64.minValue.toInt ≤ n ∧ n ≤ Int64.maxValue.toInt := by
  have least : Int64.minValue.toInt = -9223372036854775808 := by decide
  have greatest : Int64.maxValue.toInt = 9223372036854775807 := by decide
  rw [least, greatest]
  exact Iff.rfl

theorem inWord_toInt (n : Int64) : InWord n.toInt :=
  inWord_iff.2 ⟨n.minValue_le_toInt, n.toInt_le⟩

theorem int64?_of_inWord {n : Int} (fits : InWord n) : int64? n = some (.ofInt n) :=
  if_pos (inWord_iff.1 fits)

theorem int64?_of_not_inWord {n : Int} (beyond : ¬InWord n) : int64? n = none :=
  if_neg (mt inWord_iff.2 beyond)

theorem toInt_ofInt_of_inWord {n : Int} (fits : InWord n) : (Int64.ofInt n).toInt = n := by
  have := fits.2
  exact Int64.toInt_ofInt_of_le fits.1 (by omega)

theorem toInt_of_int64? {n : Int} {w : Int64} (h : int64? n = some w) : w.toInt = n := by
  by_cases fits : InWord n
  · rw [int64?_of_inWord fits] at h
    cases h
    exact toInt_ofInt_of_inWord fits
  · rw [int64?_of_not_inWord fits] at h
    cases h

namespace IntExpr

/-- The value among all integers. -/
def exact : IntExpr → Int
  | numeral n => n
  | negate a => -a.exact
  | ring .add a b => a.exact + b.exact
  | ring .sub a b => a.exact - b.exact
  | ring .mul a b => a.exact * b.exact

/-- The numbers it is made of, from left to right. -/
def numerals : IntExpr → List Nat
  | numeral n => [n]
  | negate a => a.numerals
  | ring _ a b => a.numerals ++ b.numerals

/-- The expression and all expressions in it: the left operand, the right operand, the operation. -/
def postorder : IntExpr → List IntExpr
  | numeral n => [numeral n]
  | negate a => a.postorder ++ [negate a]
  | ring op a b => a.postorder ++ (b.postorder ++ [ring op a b])

def operands : IntExpr → List IntExpr
  | numeral _ => []
  | negate a => [a]
  | ring _ a b => [a, b]

/-- The operation done last. -/
def operation? : IntExpr → Option IntOperation
  | numeral _ => none
  | negate _ => some .negate
  | ring op _ _ => some (.ring op)

/-- The operands fit words and the value does not. -/
def Overflows (a : IntExpr) : Prop := (∀ b ∈ a.operands, InWord b.exact) ∧ ¬InWord a.exact

instance : DecidablePred Overflows := fun _ => instDecidableAnd

/-- The program that computes the expression in words. -/
def program : IntExpr → Expr
  | numeral n => .literal (.int (.ofInt n))
  | negate a => .unary .negate a.program
  | ring op a b => .binary (.ring op) a.program b.program

/-- What the program of an expression may yield: the exact value where everything fits, else the
overflow of the first operation whose value does not. -/
inductive Computes (a : IntExpr) : Except EvalError Value → Prop where
  | exact {n : Int64} (fit : ∀ s ∈ a.postorder, InWord s.exact) (value : n.toInt = a.exact) :
      Computes a (.ok (.int n))
  | overflow {before after : List IntExpr} {s : IntExpr} {op : IntOperation}
      (order : a.postorder = before ++ s :: after) (fit : ∀ u ∈ before, InWord u.exact)
      (first : s.Overflows) (operation : s.operation? = some op) :
      Computes a (.error (.integerOverflow op))

section
variable {a b : IntExpr} {front back : List IntExpr} {op : IntOperation} {err : EvalError}

theorem exact_ring (op : RingOp) (a b : IntExpr) :
    (ring op a b).exact = op.onInts a.exact b.exact := by
  cases op <;> rfl

theorem self_mem_postorder (a : IntExpr) : a ∈ a.postorder := by
  cases a <;> simp [postorder]

/-- When everything before fits, the operation done last decides. -/
theorem Computes.of_checked (order : a.postorder = front ++ [a])
    (fit : ∀ u ∈ front, InWord u.exact) (operands : ∀ b ∈ a.operands, InWord b.exact)
    (operation : a.operation? = some op) : Computes a (checked op a.exact) := by
  by_cases fits : InWord a.exact
  · rw [checked, int64?_of_inWord fits]
    refine .exact ?_ (toInt_ofInt_of_inWord fits)
    rw [order]
    exact List.forall_mem_append.2 ⟨fit, List.forall_mem_singleton.2 fits⟩
  · rw [checked, int64?_of_not_inWord fits]
    exact .overflow order fit ⟨operands, fits⟩ operation

/-- An overflow in an operand is one of the whole, if everything before the operand fits. -/
theorem Computes.of_operand (h : Computes b (.error err))
    (order : a.postorder = front ++ (b.postorder ++ back)) (fit : ∀ u ∈ front, InWord u.exact) :
    Computes a (.error err) := by
  cases h with
  | @overflow before after s op inner fits first operation =>
    have whole : a.postorder = (front ++ before) ++ s :: (after ++ back) := by
      rw [order, inner]
      simp
    exact .overflow whole (List.forall_mem_append.2 ⟨fit, fits⟩) first operation

/-- Running the program carries out the operations in order. -/
theorem plain_program (fits : ∀ n ∈ a.numerals, n ≤ 9223372036854775807) (env : Environment) :
    ∃ result, a.program.plain.on env = (result, env) ∧ Computes a result := by
  induction a with
  | numeral n =>
    have small : n ≤ 9223372036854775807 := fits n (List.mem_singleton.2 rfl)
    have word : InWord n := ⟨by omega, by omega⟩
    exact ⟨_, rfl, .exact (List.forall_mem_singleton.2 word) (toInt_ofInt_of_inWord word)⟩
  | negate a ih =>
    obtain ⟨result, run, computes⟩ := ih fits
    rw [program, Expr.plain, Run.on_bind, run]
    cases result with
    | error err => exact ⟨_, rfl, computes.of_operand (List.nil_append _).symm (by simp)⟩
    | ok v =>
      cases computes with
      | @exact n fit value =>
        have last : Computes (negate a) (checked .negate (-a.exact)) :=
          .of_checked rfl fit (List.forall_mem_singleton.2 (fit a a.self_mem_postorder)) rfl
        rw [← value] at last
        exact ⟨_, Run.on_liftExcept _, last⟩
  | ring op a b iha ihb =>
    -- The right operand is run even where the operation will overflow, so it may fail first.
    obtain ⟨fitsA, fitsB⟩ := List.forall_mem_append.1 fits
    obtain ⟨left, runA, computesA⟩ := iha fitsA
    obtain ⟨right, runB, computesB⟩ := ihb fitsB
    rw [program, Expr.plain, Run.on_bind, runA]
    cases left with
    | error err => exact ⟨_, rfl, computesA.of_operand (List.nil_append _).symm (by simp)⟩
    | ok v =>
      cases computesA with
      | @exact n fitA valueA =>
        dsimp only [Yield.andThen]
        rw [Run.on_bind, runB]
        cases right with
        | error err => exact ⟨_, rfl, computesB.of_operand rfl fitA⟩
        | ok w =>
          cases computesB with
          | @exact m fitB valueB =>
            have operands : ∀ c ∈ [a, b], InWord c.exact :=
              List.forall_mem_cons.2 ⟨fitA a a.self_mem_postorder,
                List.forall_mem_singleton.2 (fitB b b.self_mem_postorder)⟩
            have last : Computes (ring op a b) (checked (.ring op) (ring op a b).exact) :=
              .of_checked (List.append_assoc ..).symm (List.forall_mem_append.2 ⟨fitA, fitB⟩)
                operands rfl
            rw [exact_ring, ← valueA, ← valueB] at last
            exact ⟨_, Run.on_liftExcept _, last⟩

theorem Computes.exact_of_ok {v : Value} (h : Computes a (.ok v)) :
    ∃ n : Int64, v = .int n ∧ n.toInt = a.exact := by
  cases h with
  | exact _ value => exact ⟨_, rfl, value⟩

theorem Computes.ok_iff {result : Except EvalError Value} (h : Computes a result) :
    (∃ n : Int64, result = .ok (.int n) ∧ n.toInt = a.exact) ↔
      ∀ s ∈ a.postorder, InWord s.exact := by
  cases h with
  | exact fit value => exact ⟨fun _ => fit, fun _ => ⟨_, rfl, value⟩⟩
  | overflow order _ first _ =>
    refine ⟨nofun, fun fit => absurd (fit _ ?_) first.2⟩
    rw [order]
    exact List.mem_append_right _ (List.mem_cons_self ..)

/-- Where not everything fits, the first operation that overflows is reported. -/
theorem Computes.error_of_beyond {result : Except EvalError Value} (h : Computes a result)
    (beyond : ¬∀ s ∈ a.postorder, InWord s.exact) :
    ∃ s op, a.postorder.find? (·.Overflows) = some s ∧ s.operation? = some op ∧
      result = .error (.integerOverflow op) := by
  cases h with
  | exact fit _ => exact absurd fit beyond
  | @overflow before after s op order fit first operation =>
    refine ⟨s, op, ?_, operation, rfl⟩
    have earlier : before.find? (fun u => decide u.Overflows) = none := by
      refine List.find?_eq_none.2 fun u mem overflows => ?_
      exact (of_decide_eq_true overflows).2 (fit u mem)
    have here : (s :: after).find? (fun u => decide u.Overflows) = some s :=
      List.find?_cons_of_pos (decide_eq_true first)
    rw [order, List.find?_append, earlier, here]
    rfl

end
end IntExpr
end Reckon
