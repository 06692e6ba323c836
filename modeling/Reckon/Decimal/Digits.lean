/-!
Rows of decimal digits and the numbers they stand for. Long rows are evaluated by joining
neighbours, two digits to one of the squared base, so that nearly all steps are on short numbers;
`ofDigits_eq_foldl` says that this is the number read digit by digit.
-/

namespace Reckon
namespace Decimal

def digitValue (c : Char) : Nat := c.toNat - '0'.toNat

/-- The number `n` with a digit written after it. -/
def withDigit (n : Nat) (c : Char) : Nat := 10 * n + digitValue c

/-- The number with these digits in the base, the lowest first. -/
def positionalValue (base : Nat) : List Nat → Nat
  | [] => 0
  | digit :: digits => digit + base * positionalValue base digits

/-- Digits of the base as digits of its square. -/
def joinPairs (base : Nat) : List Nat → List Nat
  | low :: high :: digits => (low + base * high) :: joinPairs base digits
  | digits => digits

/-- The number with these digits, after some rounds of joining. -/
def joinedValue : (rounds base : Nat) → List Nat → Nat
  | 0, base, digits => positionalValue base digits
  | rounds + 1, base, digits => joinedValue rounds (base * base) (joinPairs base digits)

/-- The number a row of ASCII digits stands for. -/
def ofDigits (digits : List Char) : Nat :=
  joinedValue digits.length.log2 10 (digits.reverse.map digitValue)

theorem positionalValue_joinPairs (base : Nat) (digits : List Nat) :
    positionalValue (base * base) (joinPairs base digits) = positionalValue base digits := by
  fun_induction joinPairs base digits with
  | case1 low high digits ih =>
    simp only [positionalValue, ih, Nat.mul_add, Nat.mul_assoc, Nat.add_assoc]
  | case2 digits short =>
    match digits, short with
    | [], _ => rfl
    | [_], _ => simp only [positionalValue, Nat.mul_zero]
    | low :: high :: digits, short => exact (short low high digits rfl).elim

theorem joinedValue_eq (rounds base : Nat) (digits : List Nat) :
    joinedValue rounds base digits = positionalValue base digits := by
  induction rounds generalizing base digits with
  | zero => rfl
  | succ rounds ih => rw [joinedValue, ih, positionalValue_joinPairs]

theorem positionalValue_map (digits : List Char) :
    positionalValue 10 (digits.map digitValue) =
      digits.foldr (fun c n => withDigit n c) 0 := by
  induction digits with
  | nil => rfl
  | cons c digits ih =>
    rw [List.map_cons, positionalValue, ih, List.foldr_cons, withDigit, Nat.add_comm]

theorem ofDigits_eq_foldl (digits : List Char) : ofDigits digits = digits.foldl withDigit 0 := by
  rw [ofDigits, joinedValue_eq, positionalValue_map, List.foldr_reverse]

/-- A nonempty row of ASCII digits, and nothing else. -/
def digits? (cs : List Char) : Option (List Char) :=
  if cs ≠ [] ∧ cs.all Char.isDigit then some cs else none

def natural? (cs : List Char) : Option Nat := (digits? cs).map ofDigits

/-- What `magnitude?` reads, after a sign if there is one. -/
def signed? (magnitude? : List Char → Option Nat) : List Char → Option Int
  | '-' :: cs => (magnitude? cs).map fun n => -(n : Int)
  | '+' :: cs => (magnitude? cs).map fun n => (n : Int)
  | cs => (magnitude? cs).map fun n => (n : Int)

/-- A natural number that may have a sign. -/
def integer? : List Char → Option Int := signed? natural?

end Decimal
end Reckon
