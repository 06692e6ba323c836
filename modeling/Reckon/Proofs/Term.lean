import Reckon.Expr
import Reckon.Proofs.Numerals
import Reckon.Proofs.Scanning

/-!
Terms and their source text, with only the necessary parentheses. Every term has a level, every
place for an operand asks for one, and an operand is put in parentheses exactly when its own level
is lower.
-/

namespace Reckon

/-- The expressions that source text can stand for, with the texts of their names and floats. -/
inductive Term where
  | int (n : Int64) (nonneg : 0 ≤ n.toInt)
  | float (text : String) (spelled : Token.Spells .float text.toList)
  | bool (b : Bool)
  | variable (name : String) (spelled : Token.Spells .name name.toList) (indices : List Term)
  | unary (op : UnaryOp) (operand : Term)
  | binary (op : BinaryOp) (left right : Term)

namespace BinaryOp

/-- The kind of token an operator is written as. -/
def kind : BinaryOp → TokenKind
  | .ring .add => .plus
  | .ring .sub => .minus
  | .ring .mul => .star
  | .divide => .slash
  | .logic .and => .and
  | .logic .or => .or
  | .relation op => .relation op

def level : BinaryOp → Nat
  | .logic .or => 1
  | .logic .and => 2
  | .relation _ => 4
  | .ring .add | .ring .sub => 5
  | .ring .mul | .divide => 6

/-- The level the left operand needs. Comparisons do not chain. -/
def leftNeed : BinaryOp → Nat
  | .relation _ => 5
  | op => op.level

/-- The level the right operand needs: operators of one level group to the left. -/
def rightNeed (op : BinaryOp) : Nat := op.level + 1

end BinaryOp

namespace UnaryOp

def kind : UnaryOp → TokenKind
  | .negate => .minus
  | .not => .not

/-- The level of the operator, which is also what its operand needs. -/
def level : UnaryOp → Nat
  | .negate => 7
  | .not => 3

end UnaryOp

namespace Term

mutual

/-- The executable form of a term. -/
def expr : Term → Expr
  | .int n _ => .literal (.int n)
  | .float text spelled =>
    .literal (.float ((Numeral.float? text).get (Numeral.float?_isSome spelled)))
  | .bool b => .literal (.bool b)
  | .variable name _ indices => .variable name (exprs indices)
  | .unary op operand => .unary op operand.expr
  | .binary op left right => .binary op left.expr right.expr

def exprs : List Term → List Expr
  | [] => []
  | t :: ts => t.expr :: exprs ts

end

def level : Term → Nat
  | .int _ _ | .float _ _ | .bool _ | .variable _ _ _ => 7
  | .unary op _ => op.level
  | .binary op _ _ => op.level

abbrev Piece := TokenKind × String

/-- A token of a kind that has only one spelling. -/
def sign (kind : TokenKind) : Piece := (kind, kind.spelling?.getD "")

def enclosed (opening : TokenKind) (pieces : List Piece) (closing : TokenKind) : List Piece :=
  sign opening :: (pieces ++ [sign closing])

/-- An operand of some level where another one is needed. -/
def placed (need level : Nat) (pieces : List Piece) : List Piece :=
  if level < need then enclosed .leftParen pieces .rightParen else pieces

/-- The level an index needs. -/
def indexNeed : Nat := 5

mutual

/-- The tokens of a term from left to right. -/
def pieces : Term → List Piece
  | .int n _ => [(.int, Numeral.ofInt n)]
  | .float text _ => [(.float, text)]
  | .bool true => [sign .true]
  | .bool false => [sign .false]
  | .variable name _ indices => (.name, name) :: indexPieces indices
  | .unary op operand => sign op.kind :: placed op.level operand.level operand.pieces
  | .binary op left right =>
    placed op.leftNeed left.level left.pieces ++
      sign op.kind :: placed op.rightNeed right.level right.pieces

def indexPieces : List Term → List Piece
  | [] => []
  | t :: ts =>
    enclosed .leftBracket (placed indexNeed t.level t.pieces) .rightBracket ++ indexPieces ts

end

/-- The text of a term: its tokens with single spaces between them. -/
def text (t : Term) : String := " ".intercalate (t.pieces.map Prod.snd)

example :
    (Term.binary (.ring .sub) (.unary .negate (.bool true))
      (.binary (.ring .sub) (.bool true) (.unary .not (.bool false)))).text =
        "- True - ( True - ( not False ) )" := rfl

/-- Every piece is a text of its kind. -/
abbrev Spelled (pieces : List Piece) : Prop := ∀ p ∈ pieces, Token.Spells p.1 p.2.toList

section
variable {kind opening closing : TokenKind} {ps : List Piece}

theorem spells_sign (fixed : kind.spelling?.isSome) :
    Token.Spells (sign kind).1 (sign kind).2.toList := by
  cases kind with
  | name | int | float => cases fixed
  | _ => exact congrArg some String.ofList_toList.symm

theorem spelled_enclosed (ho : opening.spelling?.isSome) (hc : closing.spelling?.isSome)
    (h : Spelled ps) : Spelled (enclosed opening ps closing) := by
  refine List.forall_mem_cons.2 ⟨spells_sign ho, List.forall_mem_append.2 ⟨h, ?_⟩⟩
  exact List.forall_mem_singleton.2 (spells_sign hc)

theorem spelled_placed {need level : Nat} (h : Spelled ps) : Spelled (placed need level ps) := by
  rw [placed]
  split
  · exact spelled_enclosed rfl rfl h
  · exact h

theorem isSome_spelling?_binary (op : BinaryOp) : op.kind.spelling?.isSome := by
  match op with
  | .ring .add | .ring .sub | .ring .mul | .divide | .logic .and | .logic .or
  | .relation _ => rfl

theorem isSome_spelling?_unary (op : UnaryOp) : op.kind.spelling?.isSome := by
  cases op <;> rfl

end

mutual

theorem spelled_pieces : (t : Term) → Spelled t.pieces
  | .int _ nonneg => List.forall_mem_singleton.2 (Numeral.isDigits_ofInt nonneg)
  | .float _ spelled => List.forall_mem_singleton.2 spelled
  | .bool true => List.forall_mem_singleton.2 (spells_sign rfl)
  | .bool false => List.forall_mem_singleton.2 (spells_sign rfl)
  | .variable _ spelled indices =>
    List.forall_mem_cons.2 ⟨spelled, spelled_indexPieces indices⟩
  | .unary op operand =>
    List.forall_mem_cons.2
      ⟨spells_sign (isSome_spelling?_unary op), spelled_placed operand.spelled_pieces⟩
  | .binary op left right =>
    List.forall_mem_append.2 ⟨spelled_placed left.spelled_pieces, List.forall_mem_cons.2
      ⟨spells_sign (isSome_spelling?_binary op), spelled_placed right.spelled_pieces⟩⟩

theorem spelled_indexPieces : (ts : List Term) → Spelled (indexPieces ts)
  | [] => by simp [indexPieces]
  | t :: ts =>
    List.forall_mem_append.2
      ⟨spelled_enclosed rfl rfl (spelled_placed t.spelled_pieces), spelled_indexPieces ts⟩

end

section
variable {toks : List Token} {ps : List Piece} {p : Piece} {opening closing : TokenKind}

theorem kind_of_piece {t : Token} (h : t.piece = p) : t.kind = p.1 :=
  congrArg Prod.fst h

theorem exists_single (h : toks.map Token.piece = [p]) :
    ∃ o : Token, toks = [o] ∧ o.kind = p.1 ∧ o.text = p.2 := by
  obtain ⟨o, rest, rfl, ho, none⟩ := List.map_eq_cons_iff.1 h
  obtain rfl := List.map_eq_nil_iff.1 none
  exact ⟨o, rfl, kind_of_piece ho, congrArg Prod.snd ho⟩

theorem exists_enclosed (h : toks.map Token.piece = enclosed opening ps closing) :
    ∃ o us c, o.kind = opening ∧ us.map Token.piece = ps ∧ c.kind = closing ∧
      toks = o :: (us ++ [c]) := by
  obtain ⟨o, rest, rfl, ho, h⟩ := List.map_eq_cons_iff.1 h
  obtain ⟨us, _, rfl, hu, last⟩ := List.map_eq_append_iff.1 h
  obtain ⟨c, rfl, hc, _⟩ := exists_single last
  exact ⟨o, us, c, kind_of_piece ho, hu, hc, rfl⟩

end

end Term
end Reckon
