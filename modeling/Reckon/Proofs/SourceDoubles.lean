import Reckon.Proofs.AtomicLines
import Reckon.Proofs.WrittenDoubles
import Reckon.Proofs.WrittenIntegers

/-!
Doubles written as source. The written form of a double without a sign is one float token; that of a
double with the sign `-` is the written form of its negation after a minus sign, which is read as an
operator. Negation only turns the sign over, so every finite double is read back to the last bit,
the two zeros included.
-/

namespace Reckon

open Grammar Double
open Float.Model (UnpackedFloat)
open Float.Model.UnpackedFloat

namespace Double

variable {x : Float} {u : UnpackedFloat}

theorem canonical_neg (h : Canonical u) : Canonical u.neg := by
  cases h with
  | notANumber => exact .notANumber
  | infinity s => exact .infinity (-s)
  | zero s => exact .zero (-s)
  | finite pos fits low high full => exact .finite pos fits low high full

theorem unpack_neg (x : Float) : (-x).toModel.unpack = x.toModel.unpack.neg :=
  unpack_pack (canonical_neg (canonical_unpack x.toModel))

theorem neg_neg (x : Float) : - -x = x := by
  have twice : (-x).toModel.unpack.neg = x.toModel.unpack := by
    rw [unpack_neg]
    cases x.toModel.unpack with
    | notANumber => rfl
    | infinity s | zero s | finite s _ _ _ => cases s <;> rfl
  show Float.ofModel (.pack (-x).toModel.unpack.neg) = x
  rw [twice, ofModel_pack_unpack]

theorem abs_neg (x : Float) : (-x).abs = x.abs := by
  show Float.ofModel (.pack (-x).toModel.unpack.abs) = Float.ofModel (.pack x.toModel.unpack.abs)
  rw [unpack_neg]
  cases x.toModel.unpack <;> rfl

theorem isFinite_neg (x : Float) : (-x).isFinite = x.isFinite := by
  show (-x).toModel.unpack.isFinite = x.toModel.unpack.isFinite
  rw [unpack_neg]
  cases x.toModel.unpack <;> rfl

theorem isInf_of_isFinite (finite : x.isFinite) : x.isInf = false := by
  have finite : x.toModel.unpack.isFinite = true := finite
  show x.toModel.unpack.isInf = false
  cases form : x.toModel.unpack with
  | infinity s =>
    rw [form] at finite
    cases finite
  | _ => rfl

/-- A finite double or its negation has the sign `+`. -/
theorem sign_cases (finite : x.isFinite) :
    IsPositive x ∨ sign? x.toModel.unpack = some .negative ∧ IsPositive (-x) := by
  have finite : x.toModel.unpack.isFinite = true := finite
  simp only [IsPositive, unpack_neg]
  cases form : x.toModel.unpack with
  | zero s | finite s _ _ _ =>
    cases s with
    | positive => exact .inl rfl
    | negative => exact .inr ⟨rfl, rfl⟩
  | _ =>
    rw [form] at finite
    cases finite

end Double

/-- The sign is written first, and what follows is the written form without it. -/
theorem Numeral.toList_ofFloat_of_negative {x : Float}
    (negative : sign? x.toModel.unpack = some .negative) :
    (ofFloat x).toList = '-' :: (ofFloat (-x)).toList := by
  rw [ofFloat, ofFloat, unpack_neg]
  cases form : x.toModel.unpack with
  | notANumber =>
    rw [form] at negative
    cases negative
  | infinity s | zero s | finite s _ _ _ =>
    rw [form] at negative
    cases negative
    simp only [UnpackedFloat.neg, String.toList_ofList, Double.abs_neg]
    rfl

section
variable {text : String} {span : Span} {x : Float} {limit : Nat} {t : Tree}

/-- Between an expression and an atom are only transparent rules. -/
theorem Grammar.compile_expressionOf :
    (expressionOf t).compile .standard (limit + 1) = compileAt (limit + 1) limit 8 t := by
  have whole : (expressionOf t).compile .standard (limit + 1) =
      compileAt (limit + 1) limit 0 (expressionOf t) := by
    rw [Tree.compile, Tree.descend]
  rw [whole, expressionOf]
  repeat rw [compileAt_transparent rfl (by decide)]

theorem Grammar.compileAt_floatAtom {room hops : Nat} (few : hops < maxPassThrough)
    (value : Numeral.float? text = some x) :
    compileAt limit room hops (Rule.atom.node [Terminal.signedFloat.leaf text span]) =
      .ok (.literal (.float x)) := by
  rw [compileAt_transparent rfl (Nat.le_of_lt few), compileAt_leaf rfl few, Tree.compileTerminal,
    value]

theorem Grammar.execute_floatAtom (value : Numeral.float? text = some x) (env : Environment) :
    (expressionOf (Rule.atom.node [Terminal.signedFloat.leaf text span])).execute (limit + 1) env =
      (.ok (.float x), env) := by
  have compiled : (expressionOf (Rule.atom.node [Terminal.signedFloat.leaf text span])).compile
      .standard (limit + 1) = .ok (.literal (.float x)) := by
    rw [compile_expressionOf, compileAt_floatAtom (by decide) value]
  rw [Tree.execute_eq_plain compiled]
  rfl

theorem Grammar.execute_minusAtom (value : Numeral.float? text = some x) (env : Environment) :
    (expressionOf (minusAtom (Rule.atom.node [Terminal.signedFloat.leaf text span]))).execute
      (limit + 2) env = (.ok (.float (-x)), env) := by
  have compiled :
      (expressionOf (minusAtom (Rule.atom.node [Terminal.signedFloat.leaf text span]))).compile
        .standard (limit + 2) = .ok (.unary .negate (.literal (.float x))) := by
    rw [compile_expressionOf, minusAtom, compileAt_transparent rfl (by decide),
      compileAt_unary rfl (by decide), compilePart, Tree.descend,
      compileAt_floatAtom (by decide) value]
    rfl
  rw [Tree.execute_eq_plain compiled]
  rfl

end

section
variable {source : String} {x : Float} {limit : Nat}

/-- A float token yields what it is read as. -/
theorem execute_float_token (float : Token.IsFloat source.toList)
    (short : source.length ≤ Span.maxOffset)
    (value : Numeral.magnitude? source.toList = some x) (enough : 2 ≤ limit) (env : Environment) :
    ∃ tree, parse source .expression limit = .ok tree ∧
      tree.execute limit env = (.ok (.float x), env) := by
  obtain ⟨span, scanned⟩ := Token.scan_alone .float float short
  have value : Numeral.float? source = some x := (Numeral.float?_of_isFloat float).trans value
  refine ⟨_, parse_literal (k := .signedFloat) rfl enough scanned, ?_⟩
  obtain ⟨limit, rfl⟩ := Nat.exists_eq_add_of_le' enough
  exact execute_floatAtom value env

/-- A float token after a minus sign yields the negation of what it is read as. -/
theorem execute_minus_float_token {cs : List Char} (chars : source.toList = '-' :: cs)
    (float : Token.IsFloat cs) (short : source.length ≤ Span.maxOffset)
    (value : Numeral.magnitude? cs = some x) (enough : 3 ≤ limit) (env : Environment) :
    ∃ tree, parse source .expression limit = .ok tree ∧
      tree.execute limit env = (.ok (.float (-x)), env) := by
  obtain ⟨sign, span, scanned⟩ := Token.scan_minus .float chars float short
  have float : Token.IsFloat (String.ofList cs).toList := by rwa [String.toList_ofList]
  have value : Numeral.float? (String.ofList cs) = some x := by
    rwa [Numeral.float?_of_isFloat float, String.toList_ofList]
  refine ⟨_, parse_minus_literal (k := .signedFloat) rfl enough scanned, ?_⟩
  obtain ⟨limit, rfl⟩ := Nat.exists_eq_add_of_le' enough
  exact execute_minusAtom value env

end

/-- Every finite double is read back from its written form, in every environment and without
changing it, within any limit that leaves room for a literal after a minus sign. -/
theorem double_read_back {x : Float} (finite : x.isFinite) {limit : Nat} (enough : 3 ≤ limit)
    (env : Environment) :
    ∃ tree, parse (Value.float x).text .expression limit = .ok tree ∧
      tree.execute limit env = (.ok (.float x), env) := by
  have short : (Numeral.ofFloat x).length ≤ Span.maxOffset :=
    Nat.le_trans (Numeral.length_ofFloat_le x) (by decide)
  rw [Value.text_float]
  rcases sign_cases finite with positive | ⟨negative, positive⟩
  · obtain ⟨float, value⟩ := Numeral.magnitude?_ofFloat positive (isInf_of_isFinite finite)
    exact execute_float_token float short value (by omega) env
  · have bounded : (-x).isInf = false := isInf_of_isFinite ((isFinite_neg x).trans finite)
    obtain ⟨float, value⟩ := Numeral.magnitude?_ofFloat positive bounded
    have run := execute_minus_float_token (Numeral.toList_ofFloat_of_negative negative) float short
      value enough env
    rwa [Double.neg_neg] at run

/-- The negative double next to zero is written in exponent form and read back. -/
theorem double_read_back_subnormal :
    (Float.ofBits 0x8000000000000001).isFinite ∧ 3 ≤ defaultLimit ∧
      (Value.float (Float.ofBits 0x8000000000000001)).text = "-5e-324" ∧
      ∃ tree, parse "-5e-324" .expression defaultLimit = .ok tree ∧
        tree.execute defaultLimit .empty =
          (.ok (.float (Float.ofBits 0x8000000000000001)), .empty) := by
  have text : (Value.float (Float.ofBits 0x8000000000000001)).text = "-5e-324" := by
    decide +kernel
  have read := double_read_back (x := Float.ofBits 0x8000000000000001) (by decide)
    (by decide : 3 ≤ defaultLimit) .empty
  rw [text] at read
  exact ⟨by decide, by decide, text, read⟩

end Reckon
