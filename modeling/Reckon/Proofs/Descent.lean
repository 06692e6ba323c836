import Reckon.Proofs.MovedParsing

/-!
Reading with nothing to bound it. The rules call each other and the loops in them go on for as long
as they do; how far is given from outside, as the number of calls that may stand inside each other
and of turns that a loop may take. A reading that never ended would come to nothing however large
the number, and none does. Every rule but that of a block uses up a token, and so does every turn of
a loop that is not the last; a rule that calls another before it has used up a token calls one on a
lower rung of the ladder from lines down to atoms. So with every call the tokens get fewer, or they
stay and the rung is lower. A guard may refuse levels, but nothing rests on that.
-/

namespace Reckon
namespace Grammar

/-- What decides whether another level may be opened. -/
structure Guard where
  State : Type
  /-- The guard one level deeper, if that level may be opened. -/
  enter : State → Option State

/-- The guard that counts levels and refuses those beyond its limit. -/
abbrev Guard.gauge : Guard := ⟨DepthGauge, fun g => g.enter.toOption⟩

/-- The guard that refuses nothing. -/
abbrev Guard.unlimited : Guard := ⟨Unit, some⟩

/-- The ranks of chained operators. -/
inductive Rank where
  | product
  | sum
  | conjunction
  | disjunction
deriving DecidableEq

namespace Rank

def rule : Rank → Rule
  | .product => .product
  | .sum => .sum
  | .conjunction => .conjunction
  | .disjunction => .disjunction

def operator : Rank → TokenKind → Option Rule
  | .product => productOperator
  | .sum => sumOperator
  | .conjunction => conjunctionOperator
  | .disjunction => disjunctionOperator

end Rank

/-- The rules that are read by a function of their own. -/
inductive Reader where
  | block
  | line
  | assignVar
  | logicExpr
  | chain (rank : Rank)
  | negation
  | comparison
  | arithExpr
  | atom
  | «variable»
deriving DecidableEq

/-- What the operators of a rank join. -/
def Rank.operand : Rank → Reader
  | .product => .atom
  | .sum => .chain .product
  | .conjunction => .negation
  | .disjunction => .chain .conjunction

def Start.reader : Start → Reader
  | .program => .block
  | .line => .line
  | .expression => .logicExpr
  | .arith => .arithExpr

namespace Descent

/-- Comes to something or is refused, unless more is needed than is given. -/
abbrev Reading (α : Type) := ExceptT Refusal Option α

theorem run_liftExcept {α : Type} (x : Except Refusal α) :
    (liftExcept x : Reading α).run = some x := by
  cases x <;> rfl

theorem liftExcept_bind {α β : Type} (x : Except Refusal α) (f : α → Except Refusal β) :
    (liftExcept (x >>= f) : Reading β) = liftExcept x >>= fun a => liftExcept (f a) := by
  cases x <;> rfl

/-- Reads with a rule. -/
abbrev Caller (guard : Guard) := Reader → guard.State → List Token → Reading (Tree × List Token)

/-- The guard one level deeper, or a refusal before the tokens ahead. -/
def level (guard : Guard) (g : guard.State) (toks : List Token) : Except Refusal guard.State :=
  match guard.enter g with
  | some inside => .ok inside
  | none => .error (.tooDeep toks)

/-- Passes over one token, of whatever kind. -/
def take (expected : String) : List Token → Except Refusal (Token × List Token)
  | [] => .error (.unexpected expected [])
  | t :: rest => .ok (t, rest)

/-- A name and `=` are ahead. -/
def startsAssignment : List Token → Bool
  | name :: sign :: _ => name.kind = .name ∧ sign.kind = .assign
  | _ => false

/-- Takes one turn after the other until there is nothing more, at most `n` in all. -/
def loop {σ α : Type} (turn : σ → List Token → Reading (Option σ × List Token)) (result : σ → α) :
    (n : Nat) → σ → List Token → Reading (α × List Token)
  | 0, _, _ => ExceptT.mk none
  | n + 1, s, toks => do
    match ← turn s toks with
    | (some next, rest) => loop turn result n next rest
    | (none, rest) => return (result s, rest)

section
variable {guard : Guard} (call : Caller guard)

/-- One turn of a chain: the operator and the operand ahead, with the level of the operator left
open, or nothing more. -/
def chainTurn (rank : Rank) (before : guard.State × Tree) :
    List Token → Reading (Option (guard.State × Tree) × List Token)
  | [] => return (none, [])
  | t :: toks =>
    match rank.operator t.kind with
    | none => return (none, t :: toks)
    | some op => do
      let inside ← liftExcept (level guard before.1 (t :: toks))
      let (right, rest) ← call rank.operand inside toks
      return (some (inside, rank.rule.node [op.node [before.2, right]]), rest)

/-- One turn of the indices: the index ahead, or nothing more. -/
def indexTurn (g : guard.State) (before : List Tree) :
    List Token → Reading (Option (List Tree) × List Token)
  | ⟨.leftBracket, _, _⟩ :: toks => do
    let (index, rest) ← call .arithExpr g toks
    let rest ← liftExcept (expect .rightBracket "`]`" rest)
    return (some (before ++ [index]), rest)
  | toks => return (none, toks)

/-- One turn of the lines: the newline ahead, or the line, or nothing more. -/
def lineTurn (g : guard.State) (before : List Tree) :
    List Token → Reading (Option (List Tree) × List Token)
  | [] => return (none, [])
  | t :: toks =>
    if t.kind = .newline then return (some before, toks)
    else do
      let (line, rest) ← call .line g (t :: toks)
      liftExcept (endOfLine rest)
      return (some (before ++ [line]), rest)

/-- What a rule does itself, with at most `n` turns of its loop. -/
def step (n : Nat) (reader : Reader) (g : guard.State) (toks : List Token) :
    Reading (Tree × List Token) :=
  match reader with
  | .block => do
    let (lines, rest) ← loop (lineTurn call g) id n [] toks
    return (Rule.block.node lines, rest)
  | .line => do
    let (tree, rest) ← call (if startsAssignment toks then .assignVar else .logicExpr) g toks
    return (Rule.line.node [tree], rest)
  | .assignVar => do
    let (name, rest) ← liftExcept (take "variable name" toks)
    let rest ← liftExcept (expect .assign "`=`" rest)
    let (value, rest) ← call .logicExpr g rest
    return (Rule.assignVar.node [Terminal.varName.leaf name.text name.span, value], rest)
  | .logicExpr => do
    let inside ← liftExcept (level guard g toks)
    let (tree, rest) ← call (.chain .disjunction) inside toks
    return (Rule.logicExpr.node [tree], rest)
  | .chain rank => do
    let (first, rest) ← call rank.operand g toks
    loop (chainTurn call rank) Prod.snd n (g, rank.rule.node [first]) rest
  | .negation =>
    match toks with
    | ⟨.not, _, _⟩ :: toks => do
      let inside ← liftExcept (level guard g toks)
      let (operand, rest) ← call .negation inside toks
      return (Rule.negation.node [Rule.notOp.node [operand]], rest)
    | toks => do
      let (tree, rest) ← call .comparison g toks
      return (Rule.negation.node [tree], rest)
  | .comparison => do
    let (left, rest) ← call .arithExpr g toks
    match rest with
    | ⟨.relation op, _, _⟩ :: rest => do
      let (right, rest) ← call .arithExpr g rest
      return (Rule.comparison.node [(Rule.relation op).node [left, right]], rest)
    | rest => return (Rule.comparison.node [left], rest)
  | .arithExpr => do
    let (tree, rest) ← call (.chain .sum) g toks
    return (Rule.arithExpr.node [tree], rest)
  | .atom => do
    let inside ← liftExcept (level guard g toks)
    match toks with
    | ⟨.int, text, span⟩ :: rest => return (Rule.atom.node [Terminal.int.leaf text span], rest)
    | ⟨.float, text, span⟩ :: rest =>
      return (Rule.atom.node [Terminal.signedFloat.leaf text span], rest)
    | ⟨.true, text, span⟩ :: rest => return (Rule.atom.node [Terminal.true.leaf text span], rest)
    | ⟨.false, text, span⟩ :: rest => return (Rule.atom.node [Terminal.false.leaf text span], rest)
    | ⟨.name, text, span⟩ :: rest => do
      let (tree, rest) ← call .variable inside (⟨.name, text, span⟩ :: rest)
      return (Rule.atom.node [tree], rest)
    | ⟨.minus, _, _⟩ :: rest => do
      let (operand, rest) ← call .atom inside rest
      return (Rule.atom.node [Rule.negAtom.node [operand]], rest)
    | ⟨.leftParen, _, _⟩ :: rest => do
      let (inner, rest) ← call .logicExpr inside rest
      let rest ← liftExcept (expect .rightParen "`)`" rest)
      return (Rule.atom.node [Rule.bracketed.node [inner]], rest)
    | toks => throw (.unexpected "an expression" toks)
  | .variable => do
    let (name, rest) ← liftExcept (take "variable name" toks)
    let (indices, rest) ← loop (indexTurn call g) id n [] rest
    return (Rule.variable.node (Terminal.varName.leaf name.text name.span :: indices), rest)

end

/-- Reads with at most `n` calls inside each other, this one counted, and fewer turns of a loop. -/
def read (guard : Guard) : (n : Nat) → Caller guard
  | 0 => fun _ _ _ => ExceptT.mk none
  | n + 1 => step (read guard n) n

/-- The tree, if no tokens are left. -/
def atEnd : Tree × List Token → Except Refusal Tree
  | (tree, []) => .ok tree
  | (_, rest) => .error (.unexpected "end of input" rest)

/-- Reads all tokens. -/
def readTokens (guard : Guard) (n : Nat) (start : Start) (g : guard.State) (toks : List Token) :
    Reading Tree := do
  liftExcept (atEnd (← read guard n start.reader g toks))

/-- Two readings end in the same way: with what was read and with tokens at the end of `toks`, not
all of them if what was read is among `moves`, or with a refusal before tokens at the end of
`toks`. -/
inductive EndAlike {α : Type} (moves : α → Prop) (toks : List Token) :
    Reading (α × List Token) → Reading (α × List Token) → Prop where
  | read (a : α) (rest : List Token) (suffix : rest <:+ toks)
      (fewer : moves a → rest.length < toks.length) :
      EndAlike moves toks (return (a, rest)) (return (a, rest))
  | refused (refusal : Refusal) (suffix : refusal.ahead <:+ toks) :
      EndAlike moves toks (throw refusal) (throw refusal)

/-- All numbers beyond `enough` come to the same. The tokens it leaves are those at the end of
`toks`, and some have been used up if what was read is among `moves`; a refusal is before tokens at
the end of `toks`. -/
def Settles {α : Type} (moves : α → Prop) (toks : List Token) (enough : Nat)
    (reading : Nat → Reading (α × List Token)) : Prop :=
  ∃ answer, (∀ n, enough < n → (reading n).run = some answer) ∧
    (∀ a rest, answer = .ok (a, rest) →
      rest <:+ toks ∧ (moves a → rest.length < toks.length)) ∧
    ∀ refusal, answer = .error refusal → refusal.ahead <:+ toks

namespace EndAlike

variable {α β : Type} {moves : α → Prop} {moves' : β → Prop} {guard : Guard} {g : guard.State}
  {toks rest : List Token} {x y : Reading (α × List Token)}

theorem eq (h : EndAlike moves toks x y) : y = x := by
  cases h <;> rfl

theorem exists_answer (h : EndAlike moves toks x y) : ∃ answer, x.run = some answer ∧
    (∀ a rest, answer = .ok (a, rest) →
      rest <:+ toks ∧ (moves a → rest.length < toks.length)) ∧
    ∀ refusal, answer = .error refusal → refusal.ahead <:+ toks := by
  cases h with
  | read a rest suffix fewer =>
    refine ⟨.ok (a, rest), rfl, ?_, nofun⟩
    rintro _ _ ⟨⟩
    exact ⟨suffix, fewer⟩
  | refused refusal suffix =>
    refine ⟨.error refusal, rfl, nofun, ?_⟩
    rintro _ ⟨⟩
    exact suffix

theorem settles {enough : Nat} {reading : Nat → Reading (α × List Token)}
    (h : ∀ n m, enough < n → enough < m → EndAlike moves toks (reading n) (reading m)) :
    Settles moves toks enough reading := by
  have one := Nat.lt_succ_self enough
  obtain ⟨answer, ran, left⟩ := (h _ _ one one).exists_answer
  refine ⟨answer, fun n more => ?_, left⟩
  rw [(h _ n one more).eq, ran]

theorem bind {f f' : α × List Token → Reading (β × List Token)} (first : EndAlike moves toks x y)
    (next : ∀ a rest, rest <:+ toks → (moves a → rest.length < toks.length) →
      EndAlike moves' toks (f (a, rest)) (f' (a, rest))) :
    EndAlike moves' toks (x >>= f) (y >>= f') := by
  cases first with
  | read a rest suffix fewer => exact next a rest suffix fewer
  | refused refusal suffix => exact .refused refusal suffix

/-- What ends on some of the tokens ends on all of them. -/
theorem of_suffix {moves' : α → Prop} (h : EndAlike moves' rest x y) (suffix : rest <:+ toks)
    (fewer : ∀ a, moves a → moves' a ∨ rest.length < toks.length) : EndAlike moves toks x y := by
  cases h with
  | read a left inner less =>
    refine .read a left (inner.trans suffix) fun moved => ?_
    rcases fewer a moved with moved | before
    · exact Nat.lt_of_lt_of_le (less moved) suffix.length_le
    · exact Nat.lt_of_le_of_lt inner.length_le before
  | refused refusal inner => exact .refused refusal (inner.trans suffix)

theorem level {f f' : guard.State → Reading (α × List Token)} (suffix : rest <:+ toks)
    (next : ∀ inside, EndAlike moves toks (f inside) (f' inside)) :
    EndAlike moves toks (liftExcept (level guard g rest) >>= f)
      (liftExcept (Descent.level guard g rest) >>= f') := by
  rw [Descent.level]
  cases guard.enter g with
  | some inside => exact next inside
  | none => exact .refused (.tooDeep rest) suffix

theorem expect {kind : TokenKind} {expected : String}
    {f f' : List Token → Reading (α × List Token)} (suffix : rest <:+ toks)
    (next : ∀ left, left <:+ toks → left.length < rest.length →
      EndAlike moves toks (f left) (f' left)) :
    EndAlike moves toks (liftExcept (expect kind expected rest) >>= f)
      (liftExcept (Grammar.expect kind expected rest) >>= f') := by
  cases rest with
  | nil => exact .refused (.unexpected expected []) suffix
  | cons t left =>
    rw [Grammar.expect]
    split
    · exact next left ((List.suffix_cons t left).trans suffix) (Nat.lt_succ_self _)
    · exact .refused (.unexpected expected (t :: left)) suffix

theorem take {expected : String} {f f' : Token × List Token → Reading (α × List Token)}
    (next : ∀ t left, left <:+ toks → left.length < toks.length →
      EndAlike moves toks (f (t, left)) (f' (t, left))) :
    EndAlike moves toks (liftExcept (take expected toks) >>= f)
      (liftExcept (Descent.take expected toks) >>= f') := by
  cases toks with
  | nil => exact .refused (.unexpected expected []) List.suffix_rfl
  | cons t left => exact next t left (List.suffix_cons t left) (Nat.lt_succ_self _)

theorem endOfLine {f f' : Unit → Reading (α × List Token)} (suffix : rest <:+ toks)
    (next : EndAlike moves toks (f ()) (f' ())) :
    EndAlike moves toks (liftExcept (endOfLine rest) >>= f)
      (liftExcept (Grammar.endOfLine rest) >>= f') := by
  cases rest with
  | nil => exact next
  | cons t left =>
    rw [Grammar.endOfLine]
    split
    · exact next
    · exact .refused (.unexpected "newline" (t :: left)) suffix

end EndAlike

end Descent

/-- The place of the rule on the ladder. A rule that calls another on the same tokens calls one on a
lower rung. -/
def Reader.rung : Reader → Nat
  | .variable => 0
  | .atom => 1
  | .chain .product => 2
  | .chain .sum => 3
  | .arithExpr => 4
  | .comparison => 5
  | .negation => 6
  | .chain .conjunction => 7
  | .chain .disjunction => 8
  | .logicExpr => 9
  | .assignVar => 10
  | .line => 11
  | .block => 12

namespace Descent

/-- What gets less with every call: the tokens ahead count before the rung. -/
def weight (reader : Reader) (toks : List Token) : Nat := 13 * toks.length + reader.rung

/-- All calls of less weight end alike, and those that do not read a block use up a token. -/
def EndAlikeBelow {guard : Guard} (call call' : Caller guard) (n : Nat) : Prop :=
  ∀ reader g toks, weight reader toks < n →
    EndAlike (fun _ => reader ≠ .block) toks (call reader g toks) (call' reader g toks)

section
variable {guard : Guard} {g : guard.State} {reader : Reader} {rank : Rank} {n m k : Nat}
  {toks rest : List Token} {call call' : Caller guard}

theorem weight_lt_of_le {lower upper : Reader} (le : rest.length ≤ toks.length)
    (lt : lower.rung < upper.rung) : weight lower rest < weight upper toks :=
  Nat.add_lt_add_of_le_of_lt (Nat.mul_le_mul_left 13 le) lt

theorem weight_lt_of_rung {lower upper : Reader} (lt : lower.rung < upper.rung) :
    weight lower toks < weight upper toks :=
  weight_lt_of_le (Nat.le_refl _) lt

theorem weight_lt_of_length {r s : Reader} (lt : rest.length < toks.length) :
    weight r rest < weight s toks := by
  have rung : r.rung < 13 := by
    rcases r with _ | _ | _ | _ | (_ | _ | _ | _) | _ | _ | _ | _ | _ <;> decide
  rw [weight, weight]
  omega

theorem length_le_weight (reader : Reader) (toks : List Token) :
    toks.length ≤ weight reader toks := by
  rw [weight]
  omega

theorem operand_ne_block (rank : Rank) : rank.operand ≠ .block := by
  cases rank <;> decide

theorem rung_operand (rank : Rank) : rank.operand.rung < (Reader.chain rank).rung := by
  cases rank <;> decide

/-- A loop ends if its turns do and every one of them that is not the last uses up a token. It takes
at most one turn more than there are tokens. -/
theorem loop_end {σ α : Type} {turn turn' : σ → List Token → Reading (Option σ × List Token)}
    (result : σ → α) (turns : ∀ s toks, toks.length ≤ k →
      EndAlike (fun next => next.isSome) toks (turn s toks) (turn' s toks)) (s : σ)
    (short : toks.length ≤ k) (enough : toks.length < n) (enough' : toks.length < m) :
    EndAlike (fun _ => False) toks (loop turn result n s toks) (loop turn' result m s toks) := by
  induction n generalizing m s toks with
  | zero => cases enough
  | succ n ih =>
    obtain ⟨m, rfl⟩ := Nat.exists_eq_succ_of_ne_zero (Nat.ne_zero_of_lt enough')
    refine (turns s toks short).bind fun next rest suffix fewer => ?_
    cases next with
    | none => exact .read _ rest suffix nofun
    | some next =>
      have less := fewer rfl
      exact (ih next (by omega) (by omega) (by omega)).of_suffix suffix nofun

/-- A call on some of the tokens, of less weight, uses up some of them all. -/
theorem EndAlikeBelow.on (below : EndAlikeBelow call call' n) (less : weight reader rest < n)
    (suffix : rest <:+ toks) (inner : reader ≠ .block) :
    EndAlike (fun _ => True) toks (call reader g rest) (call' reader g rest) :=
  (below reader g rest less).of_suffix suffix fun _ _ => .inl inner

/-- What a call reads, made part of a tree. -/
theorem EndAlikeBelow.wrapped (below : EndAlikeBelow call call' n) (wrap : Tree → Tree) {P : Prop}
    (less : weight reader rest < n) (suffix : rest <:+ toks) (inner : reader ≠ .block) :
    EndAlike (fun _ => P) toks
      (call reader g rest >>= fun read => return (wrap read.1, read.2))
      (call' reader g rest >>= fun read => return (wrap read.1, read.2)) :=
  (below.on less suffix inner).bind fun _ rest suffix fewer =>
    .read _ rest suffix fun _ => fewer True.intro

/-- A turn of a chain ends on tokens no more than those the chain is read from. -/
theorem chainTurn_ends (below : EndAlikeBelow call call' (weight (.chain rank) toks))
    (before : guard.State × Tree) (short : rest.length ≤ toks.length) :
    EndAlike (fun next => next.isSome) rest (chainTurn call rank before rest)
      (chainTurn call' rank before rest) := by
  cases rest with
  | nil => exact .read none [] List.suffix_rfl nofun
  | cons t rest =>
    rw [chainTurn, chainTurn]
    cases rank.operator t.kind with
    | none => exact .read none _ List.suffix_rfl nofun
    | some op =>
      refine .level List.suffix_rfl fun inside => ?_
      refine (below.on (weight_lt_of_length short) (List.suffix_cons t rest)
        (operand_ne_block rank)).bind fun right left suffix fewer => ?_
      exact .read _ left suffix fun _ => fewer True.intro

theorem indexTurn_ends (below : EndAlikeBelow call call' (weight .variable toks))
    (before : List Tree) (short : rest.length ≤ toks.length) :
    EndAlike (fun next => next.isSome) rest (indexTurn call g before rest)
      (indexTurn call' g before rest) := by
  rw [indexTurn.eq_def, indexTurn.eq_def]
  split
  next text span rest =>
    refine (below.on (weight_lt_of_length short) (List.suffix_cons _ rest)
      (by decide)).bind fun index left suffix fewer => ?_
    refine .expect suffix fun more suffix less => ?_
    exact .read _ more suffix fun _ => Nat.lt_trans less (fewer True.intro)
  next => exact .read none rest List.suffix_rfl nofun

theorem lineTurn_ends (below : EndAlikeBelow call call' (weight .block toks))
    (before : List Tree) (short : rest.length ≤ toks.length) :
    EndAlike (fun next => next.isSome) rest (lineTurn call g before rest)
      (lineTurn call' g before rest) := by
  cases rest with
  | nil => exact .read none [] List.suffix_rfl nofun
  | cons t rest =>
    rw [lineTurn, lineTurn]
    by_cases newline : t.kind = .newline
    · rw [if_pos newline, if_pos newline]
      exact .read _ rest (List.suffix_cons t rest) fun _ => Nat.lt_succ_self _
    · rw [if_neg newline, if_neg newline]
      refine (below.on (weight_lt_of_le short (by decide)) List.suffix_rfl
        (by decide)).bind fun line left suffix fewer => ?_
      exact .endOfLine suffix (.read _ left suffix fun _ => fewer True.intro)

/-- The rule ends if all calls of less weight do. A call on the same tokens goes down the ladder;
any other call is on tokens that are left when some have been used up. -/
theorem step_ends (reader : Reader) (g : guard.State)
    (below : EndAlikeBelow call call' (weight reader toks)) (enough : weight reader toks ≤ n)
    (enough' : weight reader toks ≤ m) :
    EndAlike (fun _ => reader ≠ .block) toks (step call n reader g toks)
      (step call' m reader g toks) := by
  cases reader with
  | block =>
    have lines : EndAlike (fun _ => False) toks (loop (lineTurn call g) id n [] toks)
        (loop (lineTurn call' g) id m [] toks) := by
      have less : toks.length < weight .block toks := by
        rw [weight, Reader.rung]
        omega
      exact loop_end id (fun before _ short => lineTurn_ends below before short) []
        (Nat.le_refl toks.length) (Nat.lt_of_lt_of_le less enough)
        (Nat.lt_of_lt_of_le less enough')
    exact lines.bind fun lines rest suffix _ => .read _ rest suffix (absurd rfl)
  | line =>
    rw [step, step]
    cases startsAssignment toks with
    | true =>
      exact below.wrapped (fun tree => Rule.line.node [tree]) (weight_lt_of_rung (by decide))
        List.suffix_rfl (by decide)
    | false =>
      exact below.wrapped (fun tree => Rule.line.node [tree]) (weight_lt_of_rung (by decide))
        List.suffix_rfl (by decide)
  | assignVar =>
    refine .take fun name rest suffix less => .expect suffix fun rest suffix less' => ?_
    exact below.wrapped
      (fun value => Rule.assignVar.node [Terminal.varName.leaf name.text name.span, value])
      (weight_lt_of_length (Nat.lt_trans less' less)) suffix (by decide)
  | logicExpr =>
    refine .level List.suffix_rfl fun inside => ?_
    exact below.wrapped (fun tree => Rule.logicExpr.node [tree]) (weight_lt_of_rung (by decide))
      List.suffix_rfl (by decide)
  | chain rank =>
    refine (below.on (weight_lt_of_rung (rung_operand rank)) List.suffix_rfl
      (operand_ne_block rank)).bind fun first rest suffix fewer => ?_
    -- The first operand has used up a token, so the loop need not.
    have less := fewer True.intro
    have turns := Nat.lt_of_lt_of_le less (length_le_weight (.chain rank) toks)
    have links := loop_end Prod.snd (fun before _ short => chainTurn_ends below before short)
      (g, rank.rule.node [first]) suffix.length_le (Nat.lt_of_lt_of_le turns enough)
      (Nat.lt_of_lt_of_le turns enough')
    exact links.of_suffix suffix fun _ _ => .inr less
  | negation =>
    rw [step.eq_def, step.eq_def]
    dsimp only
    split
    next text span rest =>
      refine .level (List.suffix_cons _ rest) fun inside => ?_
      exact below.wrapped (fun operand => Rule.negation.node [Rule.notOp.node [operand]])
        (weight_lt_of_length (Nat.lt_succ_self _)) (List.suffix_cons _ rest) (by decide)
    next =>
      exact below.wrapped (fun tree => Rule.negation.node [tree]) (weight_lt_of_rung (by decide))
        List.suffix_rfl (by decide)
  | comparison =>
    refine (below.on (weight_lt_of_rung (by decide)) List.suffix_rfl
      (by decide)).bind fun left rest suffix fewer => ?_
    dsimp only
    split
    next op text span rest =>
      have inner := (List.suffix_cons _ rest).trans suffix
      have less := Nat.lt_trans (Nat.lt_succ_self rest.length) (fewer True.intro)
      exact below.wrapped
        (fun right => Rule.comparison.node [(Rule.relation op).node [left, right]])
        (weight_lt_of_length less) inner (by decide)
    next => exact .read _ rest suffix fun _ => fewer True.intro
  | arithExpr =>
    exact below.wrapped (fun tree => Rule.arithExpr.node [tree]) (weight_lt_of_rung (by decide))
      List.suffix_rfl (by decide)
  | atom =>
    refine .level List.suffix_rfl fun inside => ?_
    split
    next text span rest => exact .read _ rest (List.suffix_cons _ rest) fun _ => Nat.lt_succ_self _
    next text span rest => exact .read _ rest (List.suffix_cons _ rest) fun _ => Nat.lt_succ_self _
    next text span rest => exact .read _ rest (List.suffix_cons _ rest) fun _ => Nat.lt_succ_self _
    next text span rest => exact .read _ rest (List.suffix_cons _ rest) fun _ => Nat.lt_succ_self _
    next text span rest =>
      exact below.wrapped (fun tree => Rule.atom.node [tree]) (weight_lt_of_rung (by decide))
        List.suffix_rfl (by decide)
    next text span rest =>
      exact below.wrapped (fun operand => Rule.atom.node [Rule.negAtom.node [operand]])
        (weight_lt_of_length (Nat.lt_succ_self _)) (List.suffix_cons _ rest) (by decide)
    next text span rest =>
      refine (below.on (weight_lt_of_length (Nat.lt_succ_self _)) (List.suffix_cons _ rest)
        (by decide)).bind fun inner left suffix fewer => ?_
      refine .expect suffix fun more suffix less => ?_
      exact .read _ more suffix fun _ => Nat.lt_trans less (fewer True.intro)
    next => exact .refused _ List.suffix_rfl
  | «variable» =>
    refine .take fun name rest suffix less => ?_
    have turns := Nat.lt_of_lt_of_le less (length_le_weight .variable toks)
    have indices : EndAlike (fun _ => False) rest (loop (indexTurn call g) id n [] rest)
        (loop (indexTurn call' g) id m [] rest) :=
      loop_end id (fun before _ short => indexTurn_ends below before short) [] suffix.length_le
        (Nat.lt_of_lt_of_le turns enough) (Nat.lt_of_lt_of_le turns enough')
    have fewer := indices.of_suffix suffix fun _ (_ : True) => .inr less
    exact fewer.bind fun indices left suffix fewer => .read _ left suffix fun _ => fewer True.intro

/-- All rules end, and all numbers of calls that are enough come to the same. -/
theorem read_endAlike (n m : Nat) : EndAlikeBelow (read guard (n + k)) (read guard (m + k)) k := by
  induction k with
  | zero => exact fun _ _ _ less => absurd less (Nat.not_lt_zero _)
  | succ k ih =>
    intro reader g toks less
    have enough := Nat.le_of_lt_succ less
    refine step_ends reader g (fun r g rest lighter => ?_) (Nat.le_add_left_of_le enough)
      (Nat.le_add_left_of_le enough)
    exact ih r g rest (Nat.lt_of_lt_of_le lighter enough)

theorem endAlikeBelow (enough : k ≤ n) (enough' : k ≤ m) :
    EndAlikeBelow (read guard n) (read guard m) k := by
  obtain ⟨n, rfl⟩ := Nat.exists_eq_add_of_le' enough
  obtain ⟨m, rfl⟩ := Nat.exists_eq_add_of_le' enough'
  exact read_endAlike n m

theorem read_settles (guard : Guard) (reader : Reader) (g : guard.State) (toks : List Token) :
    Settles (fun _ => reader ≠ .block) toks (weight reader toks)
      fun n => read guard n reader g toks :=
  EndAlike.settles fun _ _ enough enough' =>
    endAlikeBelow enough enough' reader g toks (Nat.lt_succ_self _)

theorem chainTurn_settles (guard : Guard) (rank : Rank) (before : guard.State × Tree)
    (toks : List Token) : Settles (fun next => next.isSome) toks (weight (.chain rank) toks)
      fun n => chainTurn (read guard n) rank before toks :=
  EndAlike.settles fun _ _ enough enough' =>
    chainTurn_ends (endAlikeBelow (Nat.le_of_lt enough) (Nat.le_of_lt enough')) before
      (Nat.le_refl _)

theorem indexTurn_settles (guard : Guard) (g : guard.State) (before : List Tree)
    (toks : List Token) : Settles (fun next => next.isSome) toks (weight .variable toks)
      fun n => indexTurn (read guard n) g before toks :=
  EndAlike.settles fun _ _ enough enough' =>
    indexTurn_ends (endAlikeBelow (Nat.le_of_lt enough) (Nat.le_of_lt enough')) before
      (Nat.le_refl _)

theorem lineTurn_settles (guard : Guard) (g : guard.State) (before : List Tree)
    (toks : List Token) : Settles (fun next => next.isSome) toks (weight .block toks)
      fun n => lineTurn (read guard n) g before toks :=
  EndAlike.settles fun _ _ enough enough' =>
    lineTurn_ends (endAlikeBelow (Nat.le_of_lt enough) (Nat.le_of_lt enough')) before
      (Nat.le_refl _)

theorem readTokens_settles (guard : Guard) (start : Start) (g : guard.State) (toks : List Token) :
    ∃ answer, ∀ n, weight start.reader toks < n →
      (readTokens guard n start g toks).run = some answer := by
  obtain ⟨answer, ran, -⟩ := read_settles guard start.reader g toks
  refine ⟨answer >>= atEnd, fun n enough => ?_⟩
  have came : read guard n start.reader g toks = liftExcept answer :=
    (ran n enough).trans (run_liftExcept answer).symm
  rw [readTokens, came, ← liftExcept_bind, run_liftExcept]

end
end Descent
end Grammar
end Reckon
