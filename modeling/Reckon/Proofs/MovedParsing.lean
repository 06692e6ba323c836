import Reckon.Proofs.ParserCompleteness
import Reckon.Proofs.Relocation
import Reckon.Proofs.Scanning

/-!
The parser looks at nothing but the kinds and texts of tokens. Reading the same tokens at other
places comes to the same tree with its terminals at those places, or to the same refusal before the
same token. The places themselves may serve to number the tokens, which shows that a refusal is
before one of the tokens that were given, or at their end.
-/

namespace Reckon
namespace Grammar

variable {α β γ δ : Type}

/-- The refusal with the tokens ahead at other places. -/
def Refusal.move (g : Span → Span) : Refusal → Refusal
  | .unexpected expected ahead => .unexpected expected (ahead.map (Token.move g))
  | .tooDeep ahead => .tooDeep (ahead.map (Token.move g))

/-- The result at other places, where `f` moves what was read. -/
def moveResult (g : Span → Span) (f : α → β) : Except Refusal α → Except Refusal β
  | .ok a => .ok (f a)
  | .error e => .error (e.move g)

/-- Something read together with the tokens it leaves, at other places. -/
def moveRead (g : Span → Span) (f : α → β) (read : α × List Token) : β × List Token :=
  (f read.1, read.2.map (Token.move g))

/-- Moving the tokens ahead moves what `p` reads. -/
def Movable (g : Span → Span) (p : Parser) : Prop :=
  ∀ room toks, p room (toks.map (Token.move g)) =
    moveResult g (moveRead g (Tree.move g)) (p room toks)

section
variable {g : Span → Span} {p : Parser} {rule : Rule} {operator : TokenKind → Option Rule}
  {room : Nat} {toks bound : List Token}

@[simp] theorem moveResult_pure (f : α → β) (a : α) :
    moveResult g f (pure a) = pure (f a) := rfl

@[simp] theorem moveRead_mk (f : α → β) (a : α) (rest : List Token) :
    moveRead g f (a, rest) = (f a, rest.map (Token.move g)) := rfl

@[simp] theorem moveRead_fst (f : α → β) (read : α × List Token) :
    (moveRead g f read).1 = f read.1 := rfl

@[simp] theorem moveRead_snd (f : α → β) (read : α × List Token) :
    (moveRead g f read).2 = read.2.map (Token.move g) := rfl

theorem moveResult_bind {f : α → β} {f' : γ → δ} {x : Except Refusal α} {y : Except Refusal β}
    {k : α → Except Refusal γ} {k' : β → Except Refusal δ} (first : y = moveResult g f x)
    (next : ∀ a, k' (f a) = moveResult g f' (k a)) : (y >>= k') = moveResult g f' (x >>= k) := by
  subst first
  cases x with
  | ok a => exact next a
  | error e => rfl

theorem Movable.nested (h : Movable g p) : Movable g (nested p) := by
  intro room toks
  cases room with
  | zero => rfl
  | succ room => exact h room toks

theorem Movable.wrapped (h : Movable g p) : Movable g (wrapped rule p) := by
  intro room toks
  refine moveResult_bind (h room toks) fun read => ?_
  simp

theorem expect_move {kind : TokenKind} {expected : String} (toks : List Token) :
    expect kind expected (toks.map (Token.move g)) =
      moveResult g (List.map (Token.move g)) (expect kind expected toks) := by
  cases toks with
  | nil => rfl
  | cons t toks =>
    simp only [List.map_cons, expect, Token.move]
    split <;> rfl

theorem chainFrom_move (h : Movable g p) (tree : Tree) :
    chainFrom rule operator p room (tree.move g) (toks.map (Token.move g)) =
      moveResult g (moveRead g (Tree.move g)) (chainFrom rule operator p room tree toks) := by
  fun_induction chainFrom rule operator p room tree toks with
  | case1 room tree => rw [List.map_nil, chainFrom]; rfl
  | case2 room tree t toks none =>
    simp only [List.map_cons, chainFrom, Token.move, none]
    rfl
  | case3 tree t toks op sign =>
    simp only [List.map_cons, chainFrom, Token.move, sign]
    rfl
  | case4 tree t toks op sign room ih =>
    simp only [List.map_cons, chainFrom, Token.move, sign]
    refine moveResult_bind (h room toks) fun read => ?_
    simpa using ih read.1 read.2

theorem chain_move (h : Movable g p) : Movable g (chain rule operator p) := by
  intro room toks
  refine moveResult_bind (h room toks) fun read => ?_
  simpa using chainFrom_move h (rule.node [read.1])

theorem arithExpr_move (h : Movable g p) : Movable g (arithExpr p) :=
  (chain_move (chain_move h)).wrapped

theorem comparison_move (h : Movable g p) : Movable g (comparison p) := by
  intro room toks
  refine moveResult_bind (arithExpr_move h room toks) fun left => ?_
  dsimp only [moveRead_fst, moveRead_snd]
  rcases left.2 with _ | ⟨⟨kind, text, span⟩, rest⟩
  · simp
  · cases kind with
    | relation op =>
      refine moveResult_bind (arithExpr_move h room rest) fun right => ?_
      simp
    | _ => simp [Token.move]

theorem negation_move (h : Movable g p) : Movable g (negation p) := by
  intro room toks
  induction toks generalizing room with
  | nil =>
    rw [negation_of_ne_not (by simp), negation_of_ne_not (by simp)]
    exact (comparison_move h).wrapped room []
  | cons t toks ih =>
    by_cases kind : t.kind = .not
    · obtain ⟨_, text, span⟩ := t
      cases kind
      cases room with
      | zero => rfl
      | succ room =>
        refine moveResult_bind (ih room) fun read => ?_
        simp
    · rw [negation_of_ne_not (by simpa using kind), negation_of_ne_not (by simpa using kind)]
      exact (comparison_move h).wrapped room (t :: toks)

theorem logicExpr_move (h : Movable g p) : Movable g (logicExpr p) :=
  (chain_move (chain_move (negation_move h))).wrapped.nested

theorem indices_move (h : Movable g p) (toks : List Token) :
    indices p room (bound.map (Token.move g)) (toks.map (Token.move g)) =
      moveResult g (moveRead g (List.map (Tree.move g))) (indices p room bound toks) := by
  fun_induction indices p room bound toks with
  | case1 _ bound text span toks ih =>
    refine moveResult_bind (arithExpr_move h room toks) fun index => ?_
    refine moveResult_bind (expect_move index.2) fun rest => ?_
    refine moveResult_bind (ih rest) fun others => ?_
    simp
  | case2 bound toks none =>
    rw [indices]
    · rfl
    · intro _ _ text span _ some moved
      obtain ⟨_, _, rfl, _⟩ := List.map_eq_cons_iff.1 some
      obtain ⟨⟨_, _, _⟩, _, rfl, bracket, _⟩ := List.map_eq_cons_iff.1 moved
      cases bracket
      exact none _ _ _ _ _ rfl rfl

theorem atomAround_move (h : Movable g p) : Movable g (atomAround p) := by
  refine Movable.nested fun room toks => ?_
  rcases toks with _ | ⟨⟨kind, text, span⟩, rest⟩
  · rfl
  cases kind with
  | name =>
    refine moveResult_bind (indices_move h rest) fun read => ?_
    simp
  | minus =>
    refine moveResult_bind (h room rest) fun read => ?_
    simp
  | leftParen =>
    refine moveResult_bind (logicExpr_move h room rest) fun inner => ?_
    refine moveResult_bind (expect_move inner.2) fun rest => ?_
    simp
  | _ => simp [Token.move, moveResult, moveRead, Refusal.move]

theorem atomUpTo_move (bound : Nat) : Movable g (atomUpTo bound) := by
  induction bound with
  | zero => exact fun room toks => rfl
  | succ bound ih => exact atomAround_move ih

theorem line_move (h : Movable g p) : Movable g (line p) := by
  intro room toks
  fun_cases line p room toks with
  | case1 text span sign place rest =>
    refine moveResult_bind (logicExpr_move h room rest) fun value => ?_
    simp
  | case2 _ none =>
    rw [line]
    · exact (logicExpr_move h).wrapped room toks
    · intro text span sign place rest moved
      obtain ⟨⟨_, _, _⟩, _, rfl, first, moved⟩ := List.map_eq_cons_iff.1 moved
      obtain ⟨⟨_, _, _⟩, _, rfl, second, _⟩ := List.map_eq_cons_iff.1 moved
      cases first
      cases second
      exact none _ _ _ _ _ rfl

theorem endOfLine_move (toks : List Token) :
    endOfLine (toks.map (Token.move g)) = moveResult g id (endOfLine toks) := by
  cases toks with
  | nil => rfl
  | cons t toks =>
    simp only [List.map_cons, endOfLine, Token.move]
    split <;> rfl

theorem lines_move (h : Movable g p) (toks : List Token) :
    lines p room (bound.map (Token.move g)) (toks.map (Token.move g)) =
      moveResult g (moveRead g (List.map (Tree.move g))) (lines p room bound toks) := by
  fun_induction lines p room bound toks with
  | case1 _ bound t toks newline ih =>
    rw [List.map_cons, List.map_cons, lines, if_pos (by exact newline)]
    exact ih
  | case2 _ bound t toks other ih =>
    rw [List.map_cons, List.map_cons, lines, if_neg (by exact other)]
    refine moveResult_bind (line_move h room (t :: toks)) fun first => ?_
    refine moveResult_bind (endOfLine_move first.2) fun _ => ?_
    refine moveResult_bind (ih first.2) fun others => ?_
    simp
  | case3 bound toks none =>
    rw [lines]
    · rfl
    · intro _ _ _ _ some moved
      obtain ⟨_, _, rfl, _⟩ := List.map_eq_cons_iff.1 some
      obtain ⟨_, _, rfl, _⟩ := List.map_eq_cons_iff.1 moved
      exact none _ _ _ _ rfl rfl

theorem Start.parser_move (h : Movable g p) (start : Start) : Movable g (start.parser p) := by
  intro room toks
  cases start with
  | program =>
    refine moveResult_bind (lines_move h toks) fun read => ?_
    simp
  | line => exact line_move h room toks
  | expression => exact logicExpr_move h room toks
  | arith => exact arithExpr_move h room toks

theorem parseTokens_move (start : Start) (limit : Nat) (toks : List Token) :
    parseTokens start limit (toks.map (Token.move g)) =
      moveResult g (Tree.move g) (parseTokens start limit toks) := by
  refine moveResult_bind (start.parser_move (atomUpTo_move limit) limit toks) fun read => ?_
  obtain ⟨tree, _ | ⟨t, rest⟩⟩ := read <;> rfl

end

/-- Tokens with their numbers for places. -/
def numbered (pieces : List (TokenKind × String)) : List Token :=
  pieces.mapIdx fun n p => ⟨p.1, p.2, ⟨n, n⟩⟩

/-- The place of the token whose number is given as a place. A place that is no token's number is
moved on by one. -/
def placeIn (toks : List Token) (s : Span) : Span :=
  (toks[s.start]?).elim ⟨s.start + 1, s.stop⟩ Token.span

/-- The tokens before which there is a refusal. -/
def Refusal.ahead : Refusal → List Token
  | .unexpected _ ahead | .tooDeep ahead => ahead

section
variable {pieces : List (TokenKind × String)} {start : Start} {limit : Nat} {r : Refusal}
  {t : Token}

theorem Refusal.ahead_move (g : Span → Span) (r : Refusal) :
    (r.move g).ahead = r.ahead.map (Token.move g) := by
  cases r <;> rfl

@[simp] theorem length_numbered : (numbered pieces).length = pieces.length := List.length_mapIdx

theorem map_piece_numbered : (numbered pieces).map Token.piece = pieces := by
  refine List.ext_getElem (by simp) fun n _ _ => ?_
  simp [numbered, Token.piece]

theorem map_numbered (toks : List Token) :
    (numbered (toks.map Token.piece)).map (Token.move (placeIn toks)) = toks := by
  refine List.ext_getElem (by simp) fun n _ inside => ?_
  simp [numbered, Token.piece, Token.move, placeIn, inside]

/-- A refusal is before tokens that were given: moving all other places changes nothing. -/
theorem lt_length_of_refused (h : parseTokens start limit (numbered pieces) = .error r)
    (mem : t ∈ r.ahead) : t.span.start < pieces.length := by
  have fixed := map_numbered (numbered pieces)
  rw [map_piece_numbered] at fixed
  have moved := parseTokens_move (g := placeIn (numbered pieces)) start limit (numbered pieces)
  rw [fixed, h] at moved
  have ahead := congrArg Refusal.ahead (Except.error.inj moved)
  rw [Refusal.ahead_move] at ahead
  have still : ∀ t ∈ r.ahead, t.move (placeIn (numbered pieces)) = id t :=
    List.map_inj_left.1 (by rw [← ahead, List.map_id])
  have place := congrArg (·.span.start) (still t mem)
  refine Nat.lt_of_not_le fun beyond => ?_
  have none : (numbered pieces)[t.span.start]? = none := by
    rw [List.getElem?_eq_none_iff, length_numbered]
    omega
  simp [Token.move, placeIn, none] at place

end

end Grammar
end Reckon
