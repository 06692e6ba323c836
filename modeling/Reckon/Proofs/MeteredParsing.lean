import Reckon.Proofs.Metering
import Reckon.Proofs.ParserCompleteness

/-!
Reading on a gauge. The rules of the grammar, written as walks that open and close their levels
themselves: a logic expression, an atom and the operand of `not` are each read one level deeper, and
a chain counts the levels of its operators and closes that many when it ends, however it ends. They
read what the rules read that are told how many levels are left.
-/

namespace Reckon
namespace Grammar
namespace Metered

/-- Reads a tree off the tokens ahead and leaves the rest. -/
abbrev Parser := List Token → ExceptT Refusal Walk (Tree × List Token)

/-- Reads with `p` one level deeper. -/
def nested (p : Parser) : Parser := fun toks =>
  ExceptT.mk (Meter.nested (fun _ => .error (.tooDeep toks)) (p toks).run)

def wrapped (rule : Rule) (p : Parser) : Parser := fun toks => do
  let (tree, rest) ← p toks
  return (rule.node [tree], rest)

/-- The rest of a chain whose part read so far is `tree`, with `levels` levels open for it, and how
many are open at its end. Every operator opens a level, so a `bound` of at least the levels left at
the first one is no bound at all. -/
def chainFrom (rule : Rule) (operator : TokenKind → Option Rule) (operand : Parser) :
    (bound levels : Nat) → Tree → List Token → Walk (Except Refusal (Tree × List Token) × Nat)
  | _, levels, tree, [] => return (.ok (tree, []), levels)
  | bound, levels, tree, t :: toks =>
    match operator t.kind with
    | none => return (.ok (tree, t :: toks), levels)
    | some op => do
      match ← Meter.enter with
      | .error _ => return (.error (.tooDeep (t :: toks)), levels)
      | .ok () =>
        match bound with
        | 0 => return (.error (.tooDeep (t :: toks)), levels + 1)
        | bound + 1 =>
          match ← (operand toks).run with
          | .error refusal => return (.error refusal, levels + 1)
          | .ok (right, rest) =>
            chainFrom rule operator operand bound (levels + 1)
              (rule.node [op.node [tree, right]]) rest

/-- Reads a chain and closes its levels, also when an operand or an operator in it is refused. -/
def chain (rule : Rule) (operator : TokenKind → Option Rule) (operand : Parser) : Parser :=
  fun toks => ExceptT.mk <| Meter.settled do
    match ← (operand toks).run with
    | .error refusal => return (.error refusal, 0)
    | .ok (first, rest) =>
      chainFrom rule operator operand (← get).gauge.room 0 (rule.node [first]) rest

def product (atom : Parser) : Parser := chain .product productOperator atom

def sum (atom : Parser) : Parser := chain .sum sumOperator (product atom)

def arithExpr (atom : Parser) : Parser := wrapped .arithExpr (sum atom)

def comparison (atom : Parser) : Parser := fun toks => do
  let (left, rest) ← arithExpr atom toks
  match rest with
  | ⟨.relation op, _, _⟩ :: rest =>
    let (right, rest) ← arithExpr atom rest
    return (Rule.comparison.node [(Rule.relation op).node [left, right]], rest)
  | rest => return (Rule.comparison.node [left], rest)

def negation (atom : Parser) : Parser
  | ⟨.not, _, _⟩ :: toks => do
    let (operand, rest) ← nested (fun _ => negation atom toks) toks
    return (Rule.negation.node [Rule.notOp.node [operand]], rest)
  | toks => wrapped .negation (comparison atom) toks

def conjunction (atom : Parser) : Parser := chain .conjunction conjunctionOperator (negation atom)

def disjunction (atom : Parser) : Parser :=
  chain .disjunction disjunctionOperator (conjunction atom)

def logicExpr (atom : Parser) : Parser := nested (wrapped .logicExpr (disjunction atom))

/-- The indices ahead. There are no more of them than tokens in `bound`. -/
def indices (atom : Parser) :
    (bound : List Token) → List Token → ExceptT Refusal Walk (List Tree × List Token)
  | _ :: bound, ⟨.leftBracket, _, _⟩ :: toks => do
    let (index, rest) ← arithExpr atom toks
    let rest ← liftExcept (expect .rightBracket "`]`" rest)
    let (others, rest) ← indices atom bound rest
    return (index :: others, rest)
  | _, toks => return ([], toks)

/-- An atom in which atoms inside are read by `atom`. -/
def atomAround (atom : Parser) : Parser := nested fun toks =>
  match toks with
  | ⟨.int, text, span⟩ :: rest => return (Rule.atom.node [Terminal.int.leaf text span], rest)
  | ⟨.float, text, span⟩ :: rest =>
    return (Rule.atom.node [Terminal.signedFloat.leaf text span], rest)
  | ⟨.true, text, span⟩ :: rest => return (Rule.atom.node [Terminal.true.leaf text span], rest)
  | ⟨.false, text, span⟩ :: rest => return (Rule.atom.node [Terminal.false.leaf text span], rest)
  | ⟨.name, text, span⟩ :: rest => do
    let (indices, rest) ← indices atom rest rest
    return (Rule.atom.node [Rule.variable.node (Terminal.varName.leaf text span :: indices)], rest)
  | ⟨.minus, _, _⟩ :: rest => do
    let (operand, rest) ← atom rest
    return (Rule.atom.node [Rule.negAtom.node [operand]], rest)
  | ⟨.leftParen, _, _⟩ :: rest => do
    let (inner, rest) ← logicExpr atom rest
    let rest ← liftExcept (expect .rightParen "`)`" rest)
    return (Rule.atom.node [Rule.bracketed.node [inner]], rest)
  | toks => throw (.unexpected "an expression" toks)

/-- Atoms nested at most `bound` deep, which is no bound where no more levels are left. -/
def atomUpTo : (bound : Nat) → Parser
  | 0 => nested fun toks => throw (.tooDeep toks)
  | bound + 1 => atomAround (atomUpTo bound)

def line (atom : Parser) : Parser := fun toks =>
  match toks with
  | ⟨.name, text, span⟩ :: ⟨.assign, _, _⟩ :: rest => do
    let (value, rest) ← logicExpr atom rest
    let target := Terminal.varName.leaf text span
    return (Rule.line.node [Rule.assignVar.node [target, value]], rest)
  | toks => wrapped .line (logicExpr atom) toks

/-- The lines ahead. There are no more of them than tokens in `bound`. -/
def lines (atom : Parser) :
    (bound : List Token) → List Token → ExceptT Refusal Walk (List Tree × List Token)
  | _ :: bound, t :: toks =>
    if t.kind = .newline then lines atom bound toks
    else do
      let (first, rest) ← line atom (t :: toks)
      liftExcept (endOfLine rest)
      let (others, rest) ← lines atom bound rest
      return (first :: others, rest)
  | _, toks => return ([], toks)

def block (atom : Parser) : Parser := fun toks => do
  let (lines, rest) ← lines atom toks toks
  return (Rule.block.node lines, rest)

def parser (atom : Parser) : Start → Parser
  | .program => block atom
  | .line => line atom
  | .expression => logicExpr atom
  | .arith => arithExpr atom

/-- Reads all tokens from `start` on a gauge with this limit. -/
def parseTokens (start : Start) (limit : Nat) (toks : List Token) : ExceptT Refusal Walk Tree := do
  let (tree, rest) ← parser (atomUpTo limit) start toks
  match rest with
  | [] => return tree
  | rest => throw (.unexpected "end of input" rest)

/-- On every sound meter `p` reads what `q` reads with the levels left, and gives the gauge back. -/
def Reads (gauge : DepthGauge) (p : Parser) (q : Grammar.Parser) : Prop :=
  ∀ toks, Meter.Counts gauge (p toks).run fun room => q room toks

section
variable {gauge : DepthGauge} {p : Parser} {q : Grammar.Parser} {rule : Rule}
  {operator : TokenKind → Option Rule} {room levels : Nat} {toks bound : List Token} {m : Meter}

theorem Reads.nested (reads : Reads gauge p q) : Reads gauge (nested p) (Grammar.nested q) :=
  fun toks => .nested rfl (reads toks)

theorem Reads.wrapped (reads : Reads gauge p q) :
    Reads gauge (wrapped rule p) (Grammar.wrapped rule q) :=
  fun toks => (reads toks).bindOk fun _ => .pure _

/-- Every operator opens a level. The number counted with them is that of the levels that are open,
also when an operand or a level is refused. -/
theorem chainFrom_leavesOpen (reads : Reads gauge p q) (sound : m.Sound gauge)
    (left : m.gauge.room = room) (tree : Tree) :
    Meter.LeavesOpen gauge levels m (chainFrom rule operator p room levels tree toks)
      (Grammar.chainFrom rule operator q room tree toks) := by
  fun_induction Grammar.chainFrom rule operator q room tree toks generalizing levels m with
  | case1 room tree =>
    rw [chainFrom]
    exact .done sound
  | case2 room tree t toks none =>
    rw [chainFrom, none]
    exact .done sound
  | case3 tree t toks op sign =>
    rw [chainFrom, sign]
    exact .refused sound left fun _ sound => .done sound
  | case4 tree t toks op sign room ih =>
    rw [chainFrom, sign]
    refine .opened sound left fun inner sound left => ?_
    obtain ⟨after, ran, same, sound⟩ := reads toks inner sound
    rw [left] at ran
    refine .bind ran same ?_
    dsimp only
    cases q room toks with
    | error refusal => exact .done sound
    | ok read => exact ih read.1 read.2 sound (same ▸ left)

theorem chain_reads (reads : Reads gauge p q) :
    Reads gauge (chain rule operator p) (Grammar.chain rule operator q) := by
  refine fun toks => .settled fun m sound => ?_
  obtain ⟨after, ran, same, sound⟩ := reads toks m sound
  refine .bind ran same ?_
  rw [Grammar.chain, ← same]
  dsimp only
  cases q after.gauge.room toks with
  | error refusal => exact .done sound
  | ok read => exact chainFrom_leavesOpen reads sound rfl (rule.node [read.1])

theorem arithExpr_reads (reads : Reads gauge p q) :
    Reads gauge (arithExpr p) (Grammar.arithExpr q) :=
  (chain_reads (chain_reads reads)).wrapped

theorem comparison_reads (reads : Reads gauge p q) :
    Reads gauge (comparison p) (Grammar.comparison q) := by
  refine fun toks => (arithExpr_reads reads toks).bindOk fun left => ?_
  obtain ⟨left, _ | ⟨⟨kind, text, span⟩, rest⟩⟩ := left
  · exact .pure _
  cases kind with
  | relation op => exact (arithExpr_reads reads rest).bindOk fun _ => .pure _
  | _ => exact .pure _

/-- Past a `not`, its operand is read one level deeper. -/
theorem negation_not {text : String} {span : Span} :
    Grammar.negation q room (⟨.not, text, span⟩ :: toks) = do
      let (operand, rest) ← Grammar.nested (fun room _ => Grammar.negation q room toks) room toks
      return (Rule.negation.node [Rule.notOp.node [operand]], rest) := by
  cases room <;> rfl

theorem negation_reads (reads : Reads gauge p q) :
    Reads gauge (negation p) (Grammar.negation q) := by
  intro toks
  fun_induction negation p toks with
  | case1 text span toks ih =>
    simp only [negation_not]
    refine Meter.Counts.bindOk ?_ fun _ => .pure _
    exact .nested rfl ih
  | case2 toks none =>
    simp only [Grammar.negation]
    exact (comparison_reads reads).wrapped toks

theorem logicExpr_reads (reads : Reads gauge p q) :
    Reads gauge (logicExpr p) (Grammar.logicExpr q) :=
  (chain_reads (chain_reads (negation_reads reads))).wrapped.nested

theorem indices_counts (reads : Reads gauge p q) :
    Meter.Counts gauge (indices p bound toks).run fun room =>
      Grammar.indices q room bound toks := by
  fun_induction indices p bound toks with
  | case1 _ bound text span toks ih =>
    simp only [Grammar.indices]
    refine (arithExpr_reads reads toks).bindOk fun index => ?_
    refine (Meter.Counts.liftExcept (expect ..)).bindOk fun rest => ?_
    exact (ih rest).bindOk fun _ => .pure _
  | case2 bound toks none =>
    simp only [Grammar.indices]
    exact .pure _

theorem atomAround_reads (reads : Reads gauge p q) :
    Reads gauge (atomAround p) (Grammar.atomAround q) := by
  refine Reads.nested fun toks => ?_
  rcases toks with _ | ⟨⟨kind, text, span⟩, rest⟩
  · exact .pure _
  cases kind with
  | name => exact (indices_counts reads).bindOk fun _ => .pure _
  | minus => exact (reads rest).bindOk fun _ => .pure _
  | leftParen =>
    refine (logicExpr_reads reads rest).bindOk fun inner => ?_
    exact (Meter.Counts.liftExcept (expect ..)).bindOk fun _ => .pure _
  | _ => exact .pure _

theorem atomUpTo_reads (bound : Nat) : Reads gauge (atomUpTo bound) (Grammar.atomUpTo bound) := by
  induction bound with
  | zero => exact fun toks => .nested rfl (.pure _)
  | succ bound ih => exact atomAround_reads ih

theorem line_reads (reads : Reads gauge p q) : Reads gauge (line p) (Grammar.line q) := by
  intro toks
  fun_cases line p toks with
  | case1 text span sign place rest =>
    exact (logicExpr_reads reads rest).bindOk fun _ => .pure _
  | case2 _ none =>
    simp only [Grammar.line]
    exact (logicExpr_reads reads).wrapped toks

theorem lines_counts (reads : Reads gauge p q) :
    Meter.Counts gauge (lines p bound toks).run fun room => Grammar.lines q room bound toks := by
  fun_induction lines p bound toks with
  | case1 _ bound t toks newline ih =>
    simp only [Grammar.lines, if_pos newline]
    exact ih
  | case2 _ bound t toks other ih =>
    simp only [Grammar.lines, if_neg other]
    refine (line_reads reads (t :: toks)).bindOk fun first => ?_
    refine (Meter.Counts.liftExcept (endOfLine first.2)).bindOk fun _ => ?_
    exact (ih first.2).bindOk fun _ => .pure _
  | case3 bound toks none =>
    simp only [Grammar.lines]
    exact .pure _

theorem parser_reads (reads : Reads gauge p q) (start : Start) :
    Reads gauge (parser p start) (start.parser q) := by
  intro toks
  cases start with
  | program => exact (lines_counts reads).bindOk fun _ => .pure _
  | line => exact line_reads reads toks
  | expression => exact logicExpr_reads reads toks
  | arith => exact arithExpr_reads reads toks

theorem parseTokens_counts (start : Start) (limit : Nat) (toks : List Token) :
    Meter.Counts gauge (parseTokens start limit toks).run fun room => (do
      let (tree, rest) ← start.parser (Grammar.atomUpTo limit) room toks
      match rest with
      | [] => return tree
      | rest => throw (.unexpected "end of input" rest)) := by
  refine (parser_reads (atomUpTo_reads limit) start toks).bindOk fun read => ?_
  obtain ⟨tree, rest⟩ := read
  cases rest <;> exact .pure _

end

/-- The tree of a source text, read on a new gauge, and what was done to the gauge. -/
def parse (source : String) (start : Start) (limit : Nat) : Except SyntaxError Tree × Meter :=
  match Token.scan source with
  | .error e => (.error e, .new (.new limit))
  | .ok toks =>
    let (answer, left) := (parseTokens start limit toks).run.run (.new (.new limit))
    (answer.mapError (·.toError limit source.utf8ByteSize), left)

theorem parse_balanced (source : String) (start : Start) (limit : Nat) :
    ∃ left, parse source start limit = (Reckon.parse source start limit, left) ∧
      left.Balanced (.new limit) := by
  rw [parse, Reckon.parse]
  cases Token.scan source with
  | error e => exact ⟨_, rfl, .new (.new limit)⟩
  | ok toks =>
    have inside : (DepthGauge.new limit).depth ≤ limit := Nat.zero_le limit
    obtain ⟨left, ran, balanced⟩ := (parseTokens_counts start limit toks).balanced inside
    refine ⟨left, ?_, balanced⟩
    dsimp only
    rw [ran]
    rfl

/-- The operator has opened a level when its right operand is refused one; the sum closes it. -/
example :
    ((parseTokens .arith 1 [⟨.int, "1", ⟨0, 1⟩⟩, ⟨.plus, "+", ⟨1, 2⟩⟩, ⟨.int, "1", ⟨2, 3⟩⟩]).run.run
        (.new (.new 1))).2.log =
      [⟨.returned ⟨0, 1⟩, ⟨0, 1⟩, ⟨0, 1⟩⟩, ⟨.closed, ⟨1, 1⟩, ⟨0, 1⟩⟩,
        ⟨.returned ⟨1, 1⟩, ⟨1, 1⟩, ⟨1, 1⟩⟩, ⟨.returned ⟨1, 1⟩, ⟨1, 1⟩, ⟨1, 1⟩⟩,
        ⟨.refused, ⟨1, 1⟩, ⟨1, 1⟩⟩, ⟨.opened, ⟨0, 1⟩, ⟨1, 1⟩⟩,
        ⟨.returned ⟨0, 1⟩, ⟨0, 1⟩, ⟨0, 1⟩⟩, ⟨.returned ⟨0, 1⟩, ⟨0, 1⟩, ⟨0, 1⟩⟩,
        ⟨.closed, ⟨1, 1⟩, ⟨0, 1⟩⟩, ⟨.opened, ⟨0, 1⟩, ⟨1, 1⟩⟩] := by
  decide +kernel

end Metered
end Grammar
end Reckon
