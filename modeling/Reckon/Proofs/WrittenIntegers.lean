import Reckon.Command
import Reckon.Proofs.DecimalLength
import Reckon.Proofs.IntegerPrograms

/-!
Integers written as source. The written form of an integer is its digits, after a minus sign if it
is negative, and the sign is read as a negation. Every word but the least one can be read back from
its written form; the digits of the least one are those of a number that is no word.
-/

namespace Reckon

open Grammar

/-- An atom as a whole expression. -/
def Grammar.expressionOf (atom : Tree) : Tree :=
  Rule.logicExpr.node [Rule.disjunction.node [Rule.conjunction.node [Rule.negation.node
    [Rule.comparison.node [Rule.arithExpr.node [Rule.sum.node [Rule.product.node [atom]]]]]]]]

/-- The atom of an integer literal. -/
def Grammar.intAtom (text : String) (span : Span) : Tree :=
  Rule.atom.node [Terminal.int.leaf text span]

/-- The atom with a minus sign before it. -/
def Grammar.minusAtom (atom : Tree) : Tree := Rule.atom.node [Rule.negAtom.node [atom]]

namespace Numeral

variable {n : Int64}

theorem toList_ofInt_neg (h : n.toInt < 0) :
    (ofInt n).toList = '-' :: Nat.toDigits 10 n.toInt.natAbs :=
  toList_toString_of_neg h

end Numeral

namespace Token

variable {kind : TokenKind} {cs : List Char} {text : String}

theorem scanFrom_alone (offset : Nat) (h : Spells kind cs)
    (short : offset + cs.length ≤ Span.maxOffset) :
    ∃ span, scanFrom offset 0 cs = .ok [⟨kind, String.ofList cs, span⟩] := by
  have scanned : scanFrom offset 0 (cs ++ []) = .ok [placed kind cs offset] :=
    scanFrom_append h (by simp [Apart]) rfl
  rw [List.append_nil, placed_of_le (by rwa [size_eq_length h.utf8Size])] at scanned
  exact ⟨_, scanned⟩

theorem scan_alone (kind : TokenKind) (h : Spells kind text.toList)
    (short : text.length ≤ Span.maxOffset) : ∃ span, scan text = .ok [⟨kind, text, span⟩] := by
  have scanned := scanFrom_alone 0 h (by rwa [Nat.zero_add, String.length_toList])
  rwa [String.ofList_toList, ← scan_eq] at scanned

theorem scan_minus (kind : TokenKind) (chars : text.toList = '-' :: cs) (h : Spells kind cs)
    (short : text.length ≤ Span.maxOffset) :
    ∃ sign span, scan text = .ok [⟨.minus, "-", sign⟩, ⟨kind, String.ofList cs, span⟩] := by
  have cut : first? (['-'] ++ cs) = some (.minus, ['-']) := rfl
  rw [← String.length_toList, chars, List.length_cons, Nat.add_comm] at short
  obtain ⟨span, behind⟩ := scanFrom_alone (0 + (String.ofList ['-']).utf8ByteSize) h short
  refine ⟨⟨0, 1⟩, span, ?_⟩
  rw [scan_eq, chars, ← List.singleton_append, scanFrom_cut cut]
  dsimp only
  rw [behind]
  rfl

end Token

namespace Grammar

variable {t : Tree} {a : IntExpr} {text : String} {span : Span}

theorem integer?_expressionOf : (expressionOf t).integer? = t.integer? := by
  rw [expressionOf]
  repeat rw [integer?_wrapper (by decide)]

theorem integer?_minusAtom (form : t.integer? = some a) :
    (minusAtom t).integer? = some (.negate a) := by
  rw [minusAtom, integer?_wrapper (by decide), integer?_negAtom, form]
  rfl

theorem levels_expressionOf : (expressionOf t).levels .standard = t.levels .standard := by
  rw [expressionOf]
  repeat rw [levels_transparent rfl]

theorem levels_intAtom : (intAtom text span).levels .standard = 1 := by
  rw [intAtom, levels_transparent rfl, levels_leaf]

theorem levels_minusAtom : (minusAtom t).levels .standard = t.levels .standard + 1 := by
  rw [minusAtom, levels_transparent rfl, levels_unary rfl]

end Grammar

section
variable {source text : String} {toks : List Token} {tree : Tree} {a : IntExpr} {limit : Nat}
  {env : Environment}

theorem parse_literal {k : Terminal} {span : Span} (literal : k.isLiteral) (enough : 2 ≤ limit)
    (scanned : Token.scan source = .ok [⟨k.kind, text, span⟩]) :
    parse source .expression limit = .ok (expressionOf (Rule.atom.node [k.leaf text span])) := by
  obtain ⟨limit, rfl⟩ := Nat.exists_eq_add_of_le' enough
  rw [parse, scanned]
  cases k with
  | varName => cases literal
  | _ => rfl

theorem parse_minus_literal {k : Terminal} {sign span : Span} (literal : k.isLiteral)
    (enough : 3 ≤ limit)
    (scanned : Token.scan source = .ok [⟨.minus, "-", sign⟩, ⟨k.kind, text, span⟩]) :
    parse source .expression limit =
      .ok (expressionOf (minusAtom (Rule.atom.node [k.leaf text span]))) := by
  obtain ⟨limit, rfl⟩ := Nat.exists_eq_add_of_le' enough
  rw [parse, scanned]
  cases k with
  | varName => cases literal
  | _ => rfl

/-- Where everything fits, running a source of integers yields its exact value. -/
theorem execute_exact (scanned : Token.scan source = .ok toks)
    (spelled : ∀ t ∈ toks, Token.Spells t.kind t.text.toList)
    (integers : ∀ t ∈ toks, t.kind ∈ integerKinds)
    (read : parse source .expression limit = .ok tree) (form : tree.integer? = some a)
    (levels : tree.levels .standard ≤ limit)
    (literals : ∀ n ∈ integersOf toks, n ≤ 9223372036854775807)
    (fit : ∀ s ∈ a.postorder, InWord s.exact) :
    ∃ n : Int64, tree.execute limit env = (.ok (.int n), env) ∧ n.toInt = a.exact := by
  have derived := derives_of_parse scanned read
  obtain ⟨b, arithmetic⟩ := derived.arithmetic (by decide) integers spelled
  obtain rfl := Option.some.inj (form.symm.trans arithmetic.form)
  obtain ⟨e, compiled⟩ := (derived.compiles_iff spelled levels).2 literals
  obtain ⟨result, run, computes⟩ := arithmetic.run compiled literals env
  obtain ⟨n, rfl, value⟩ := computes.ok_iff.2 fit
  refine ⟨n, ?_, value⟩
  rw [Tree.execute, compiled]
  dsimp only
  rw [run]
  rfl

/-- Digits yield their value. -/
theorem execute_digits {m : Nat} (digits : Token.IsDigits source.toList)
    (short : source.length ≤ Span.maxOffset) (value : Nat.ofDigitChars 10 source.toList 0 = m)
    (small : m ≤ 9223372036854775807) (env : Environment) :
    ∃ tree, parse source .expression defaultLimit = .ok tree ∧
      ∃ n : Int64, tree.execute defaultLimit env = (.ok (.int n), env) ∧ n.toInt = m := by
  obtain ⟨span, scanned⟩ := Token.scan_alone .int digits short
  have form : (expressionOf (intAtom source span)).integer? = some (.numeral m) := by
    rw [integer?_expressionOf, intAtom, integer?_int, value]
  have levels : (expressionOf (intAtom source span)).levels .standard ≤ defaultLimit := by
    rw [levels_expressionOf, levels_intAtom]
    decide
  have literals : ∀ n ∈ integersOf [⟨.int, source, span⟩], n ≤ 9223372036854775807 := by
    simpa [integersOf, value] using small
  have word : InWord m := ⟨by omega, by omega⟩
  have read := parse_literal (k := .int) rfl (by decide : 2 ≤ defaultLimit) scanned
  exact ⟨_, read, execute_exact scanned (List.forall_mem_singleton.2 digits)
    (by simp [integerKinds]) read form levels literals (List.forall_mem_singleton.2 word)⟩

/-- Digits after a minus sign yield the negation of their value. -/
theorem execute_minus_digits {digits : List Char} {m : Nat} (chars : source.toList = '-' :: digits)
    (h : Token.IsDigits digits) (short : source.length ≤ Span.maxOffset)
    (value : Nat.ofDigitChars 10 digits 0 = m) (small : m ≤ 9223372036854775807) (env : Environment) :
    ∃ tree, parse source .expression defaultLimit = .ok tree ∧
      ∃ n : Int64, tree.execute defaultLimit env = (.ok (.int n), env) ∧ n.toInt = -m := by
  obtain ⟨sign, span, scanned⟩ := Token.scan_minus .int chars h short
  have atom : (intAtom (String.ofList digits) span).integer? = some (.numeral m) := by
    rw [intAtom, integer?_int, String.toList_ofList, value]
  have form := integer?_expressionOf.trans (integer?_minusAtom atom)
  have levels : (expressionOf (minusAtom (intAtom (String.ofList digits) span))).levels .standard ≤
      defaultLimit := by
    rw [levels_expressionOf, levels_minusAtom, levels_intAtom]
    decide
  have literals : ∀ n ∈ integersOf [⟨.minus, "-", sign⟩, ⟨.int, String.ofList digits, span⟩],
      n ≤ 9223372036854775807 := by
    simpa [integersOf, value] using small
  have word : InWord m := ⟨by omega, by omega⟩
  have opposite : InWord (-m) := ⟨by omega, by omega⟩
  have read := parse_minus_literal (k := .int) rfl (by decide : 3 ≤ defaultLimit) scanned
  have minus : Token.Spells .minus "-".toList := rfl
  have number : Token.Spells .int (String.ofList digits).toList := by rwa [String.toList_ofList]
  exact ⟨_, read, execute_exact scanned
    (List.forall_mem_cons.2 ⟨minus, List.forall_mem_singleton.2 number⟩) (by simp [integerKinds])
    read form levels literals
    (List.forall_mem_cons.2 ⟨word, List.forall_mem_singleton.2 opposite⟩)⟩

end

/-- The digits of the least word are too large for a literal. -/
theorem execute_least (env : Environment) :
    ∃ tree, parse (Value.int Int64.minValue).text .expression defaultLimit = .ok tree ∧
      tree.execute defaultLimit env = (.error (.compile (.invalidLiteral .integer
        "9223372036854775808" ⟨1, 20⟩)), env) :=
  ⟨_, rfl, rfl⟩

/-- Every word but the least one is read back from its written form, in every environment and
without changing it. What is written for the least one is read, but it does not compile. -/
theorem word_read_back (n : Int64) (env : Environment) :
    (n ≠ Int64.minValue → ∃ tree,
      parse (Value.int n).text .expression defaultLimit = .ok tree ∧
        tree.execute defaultLimit env = (.ok (.int n), env)) ∧
    (n = Int64.minValue → ∃ tree,
      parse (Value.int n).text .expression defaultLimit = .ok tree ∧
        tree.execute defaultLimit env = (.error (.compile (.invalidLiteral .integer
          "9223372036854775808" ⟨1, 20⟩)), env)) := by
  refine ⟨fun notLeast => ?_, fun least => least ▸ execute_least env⟩
  have word := inWord_toInt n
  have short : (Numeral.ofInt n).length ≤ Span.maxOffset :=
    Nat.le_trans (Numeral.length_ofInt_le n) (by decide)
  rw [Value.text_int]
  rcases Int.lt_or_le n.toInt 0 with negative | nonneg
  · have above : n.toInt ≠ -9223372036854775808 := fun eq => notLeast (Int64.toInt_inj.1 eq)
    have small : n.toInt.natAbs ≤ 9223372036854775807 := by
      have := word.1
      omega
    obtain ⟨tree, read, m, run, exact⟩ := execute_minus_digits (Numeral.toList_ofInt_neg negative)
      (Numeral.isDigits_toDigits _) short Nat.ofDigitChars_ten_toDigits small env
    obtain rfl : m = n := Int64.toInt_inj.1 (by omega)
    exact ⟨tree, read, run⟩
  · have small : n.toInt.toNat ≤ 9223372036854775807 := by
      have := word.2
      omega
    have value : Nat.ofDigitChars 10 (Numeral.ofInt n).toList 0 = n.toInt.toNat := by
      rw [Numeral.toList_ofInt nonneg, Nat.ofDigitChars_ten_toDigits]
    obtain ⟨tree, read, m, run, exact⟩ :=
      execute_digits (Numeral.isDigits_ofInt nonneg) short value small env
    obtain rfl : m = n := Int64.toInt_inj.1 (by omega)
    exact ⟨tree, read, run⟩

/-- The word above the least one is read back, and the least one is not. -/
theorem word_read_back_above_least :
    (∃ tree, parse (Value.int (-9223372036854775807)).text .expression defaultLimit = .ok tree ∧
      tree.execute defaultLimit .empty = (.ok (.int (-9223372036854775807)), .empty)) ∧
    ∃ tree, parse (Value.int (-9223372036854775808)).text .expression defaultLimit = .ok tree ∧
      tree.execute defaultLimit .empty = (.error (.compile (.invalidLiteral .integer
        "9223372036854775808" ⟨1, 20⟩)), .empty) :=
  ⟨(word_read_back (-9223372036854775807) .empty).1 (by decide),
    (word_read_back (-9223372036854775808) .empty).2 (by decide)⟩

/-- Not every word can be read back from its written form. -/
theorem least_word_not_read_back :
    ¬∀ (n : Int64) (env : Environment), ∃ tree,
      parse (Value.int n).text .expression defaultLimit = .ok tree ∧
        (tree.execute defaultLimit env).1 = .ok (.int n) := by
  intro all
  obtain ⟨tree, read, run⟩ := all Int64.minValue .empty
  obtain ⟨same, read', failed⟩ := execute_least .empty
  obtain rfl := Except.ok.inj (read.symm.trans read')
  rw [failed] at run
  cases run

end Reckon
