import Reckon.Proofs.Descent

/-!
The parser is told how many levels are left and, in its loops, how many turns there may be. The
rules on a guard are told neither and read the same, on a gauge with that many levels left, or on
any other guard that opens as many levels, one inside the other, as the tokens ahead can ask for.
Two levels for every token and two more are as many as none.
-/

namespace Reckon
namespace Grammar

/-- Of so many levels, one inside the other, the guard opens those there is room for. -/
def Guard.Grants (guard : Guard) : (need : Nat) → guard.State → (room : Nat) → Prop
  | 0, _, _ => True
  | _ + 1, g, 0 => guard.enter g = none
  | need + 1, g, room + 1 => ∃ inside, guard.enter g = some inside ∧ guard.Grants need inside room

/-- What is granted of many levels is granted of fewer. -/
theorem Guard.Grants.of_le {guard : Guard} {need need' room : Nat} {g : guard.State}
    (grants : guard.Grants need g room) (le : need' ≤ need) : guard.Grants need' g room := by
  induction need' generalizing need g room with
  | zero => exact True.intro
  | succ need' ih =>
    obtain ⟨need, rfl⟩ := Nat.exists_eq_add_of_lt le
    cases room with
    | zero => exact grants
    | succ room =>
      obtain ⟨inside, entered, grants⟩ := grants
      exact ⟨inside, entered, ih grants (by omega)⟩

theorem Guard.gauge_grants (need : Nat) (g : DepthGauge) : Guard.gauge.Grants need g g.room := by
  induction need generalizing g with
  | zero => exact True.intro
  | succ need ih =>
    cases left : g.enter with
    | error exceeded =>
      cases DepthGauge.limit_of_refused left
      rw [DepthGauge.enter_eq_error_iff.1 left]
      exact congrArg Except.toOption left
    | ok inside =>
      rw [DepthGauge.room_of_enter left]
      exact ⟨inside, congrArg Except.toOption left, ih inside⟩

theorem Guard.unlimited_grants {need room : Nat} (le : need ≤ room) :
    Guard.unlimited.Grants need () room := by
  induction need generalizing room with
  | zero => exact True.intro
  | succ need ih =>
    obtain ⟨room, rfl⟩ := Nat.exists_eq_add_of_lt le
    exact ⟨(), rfl, ih (by omega)⟩

/-- What a line is if a name and `=` are ahead. -/
def assignVar (atom : Parser) : Parser := fun room toks => do
  let (name, rest) ← Descent.take "variable name" toks
  let rest ← expect .assign "`=`" rest
  let (value, rest) ← logicExpr atom room rest
  return (Rule.assignVar.node [Terminal.varName.leaf name.text name.span, value], rest)

/-- What an atom is if a name is ahead. -/
def «variable» (atom : Parser) : Parser := fun room toks => do
  let (name, rest) ← Descent.take "variable name" toks
  let (indices, rest) ← indices atom room rest rest
  return (Rule.variable.node (Terminal.varName.leaf name.text name.span :: indices), rest)

/-- What the parser reads the rule with. -/
def Reader.parser (atom : Parser) : Reader → Parser
  | .block => Grammar.block atom
  | .line => Grammar.line atom
  | .assignVar => Grammar.assignVar atom
  | .logicExpr => Grammar.logicExpr atom
  | .chain .product => product atom
  | .chain .sum => sum atom
  | .chain .conjunction => conjunction atom
  | .chain .disjunction => disjunction atom
  | .negation => Grammar.negation atom
  | .comparison => Grammar.comparison atom
  | .arithExpr => Grammar.arithExpr atom
  | .atom => atom
  | .variable => Grammar.variable atom

section
variable {atom : Parser} {room : Nat} {toks : List Token}

theorem Reader.parser_chain (rank : Rank) : (Reader.chain rank).parser atom =
    Grammar.chain rank.rule rank.operator (rank.operand.parser atom) := by
  cases rank <;> rfl

theorem Start.reader_parser (start : Start) : start.reader.parser atom = start.parser atom := by
  cases start <;> rfl

theorem line_eq : line atom room toks =
    wrapped .line (if Descent.startsAssignment toks then assignVar atom else logicExpr atom)
      room toks := by
  fun_cases line atom room toks with
  | case1 text span sign place rest =>
    have read : assignVar atom room (⟨.name, text, span⟩ :: ⟨.assign, sign, place⟩ :: rest) = do
      let (value, rest) ← logicExpr atom room rest
      return (Rule.assignVar.node [Terminal.varName.leaf text span, value], rest) := rfl
    rw [if_pos (by rfl), wrapped, read, bind_assoc]
    rfl
  | case2 _ none =>
    rw [if_neg]
    intro starts
    rcases toks with _ | ⟨⟨first, _, _⟩, _ | ⟨⟨second, _, _⟩, rest⟩⟩
    · cases starts
    · cases starts
    · obtain ⟨rfl, rfl⟩ : first = .name ∧ second = .assign := of_decide_eq_true starts
      exact none _ _ _ _ _ rfl

theorem atomAround_name {text : String} {span : Span} {rest : List Token} :
    atomAround atom (room + 1) (⟨.name, text, span⟩ :: rest) =
      wrapped .atom («variable» atom) room (⟨.name, text, span⟩ :: rest) := by
  have read : «variable» atom room (⟨.name, text, span⟩ :: rest) = do
    let (indices, rest) ← indices atom room rest rest
    return (Rule.variable.node (Terminal.varName.leaf text span :: indices), rest) := rfl
  rw [wrapped, read, bind_assoc]
  rfl

end

/-- The levels that may be opened where the rule is read besides two for every token. -/
def Reader.levels : Reader → Nat
  | .variable => 0
  | .atom | .chain _ | .arithExpr | .comparison | .negation => 1
  | .logicExpr | .assignVar | .line | .block => 2

theorem Reader.levels_le (reader : Reader) : reader.levels ≤ 2 := by
  fun_cases Reader.levels reader <;> decide

namespace Descent

/-- The levels, one inside the other, that are at most opened where the rule is read. -/
def needs (reader : Reader) (toks : List Token) : Nat := 2 * toks.length + reader.levels

/-- There are enough calls for all calls of less weight, and these read what the parser reads with
the levels the guard grants, where atoms may be nested as deep as there is room for levels. -/
structure AgreesBelow (guard : Guard) (n k : Nat) : Prop where
  enough : k ≤ n
  agrees : ∀ reader g toks room bound, weight reader toks < k →
    guard.Grants (needs reader toks) g room → room ≤ bound →
      read guard n reader g toks = liftExcept (reader.parser (atomUpTo bound) room toks)

section
variable {guard : Guard} {g : guard.State} {reader : Reader} {rank : Rank} {n k room bound : Nat}
  {toks rest : List Token} {α β : Type}

theorem bind_agrees {x : Except Refusal α} {f : α → Reading β} {h : α → Except Refusal β}
    (next : ∀ a, x = .ok a → f a = liftExcept (h a)) :
    (liftExcept x >>= f : Reading β) = liftExcept (x >>= h) := by
  cases x with
  | ok a => exact next a rfl
  | error refusal => rfl

/-- A call of less weight reads the same, and it leaves fewer tokens to what comes after. -/
theorem AgreesBelow.bind (below : AgreesBelow guard n k)
    {f : Tree × List Token → Reading β} {h : Tree × List Token → Except Refusal β}
    (less : weight reader rest < k) (grants : guard.Grants (needs reader rest) g room)
    (fits : room ≤ bound)
    (next : ∀ tree left, left <:+ rest → (reader ≠ .block → left.length < rest.length) →
      f (tree, left) = liftExcept (h (tree, left))) :
    (read guard n reader g rest >>= f) =
      liftExcept (reader.parser (atomUpTo bound) room rest >>= h) := by
  obtain ⟨answer, ran, left, -⟩ := read_settles guard reader g rest
  have agrees := below.agrees reader g rest room bound less grants fits
  have came : (read guard n reader g rest).run = some answer :=
    ran n (Nat.lt_of_lt_of_le less below.enough)
  rw [agrees, run_liftExcept] at came
  rw [agrees]
  refine bind_agrees fun read ok => ?_
  obtain ⟨tree, more⟩ := read
  have ends := left tree more ((Option.some.inj came).symm.trans ok)
  exact next tree more ends.1 ends.2

/-- A level is opened if there is room for it, and then there is room for one less. -/
theorem level_agrees {need : Nat} {f : guard.State → Reading β} {y : Except Refusal β}
    (grants : guard.Grants (need + 1) g room) (full : room = 0 → y = .error (.tooDeep toks))
    (opened : ∀ inside left, guard.Grants need inside left → room = left + 1 →
      f inside = liftExcept y) : (liftExcept (level guard g toks) >>= f) = liftExcept y := by
  rw [level]
  cases room with
  | zero =>
    have refused : guard.enter g = none := grants
    rw [refused, full rfl]
    rfl
  | succ left =>
    obtain ⟨inside, entered, grants⟩ := grants
    rw [entered]
    exact opened inside left grants rfl

theorem needs_le_of_length {r : Reader} (lt : rest.length < toks.length) :
    needs r rest ≤ 2 * toks.length := by
  have levels := r.levels_le
  rw [needs]
  omega

theorem needs_le {r s : Reader} (lt : rest.length < toks.length) : needs r rest ≤ needs s toks :=
  Nat.le_add_right_of_le (needs_le_of_length lt)

theorem needs_operand (rank : Rank) (toks : List Token) :
    needs rank.operand toks ≤ 2 * toks.length + 1 := by
  cases rank <;> exact Nat.le_refl _

/-- The loop of a chain comes to the same. Its levels stay open, so with every operator the guard
is one level deeper and there is room for one less. -/
theorem chainFrom_agrees (below : AgreesBelow guard n (weight (.chain rank) toks)) {turns : Nat}
    {tree : Tree} (short : rest.length ≤ toks.length) (more : rest.length < turns)
    (grants : guard.Grants (2 * rest.length) g room) (fits : room ≤ bound) :
    loop (chainTurn (read guard n) rank) Prod.snd turns (g, tree) rest =
      liftExcept (chainFrom rank.rule rank.operator (rank.operand.parser (atomUpTo bound)) room
        tree rest) := by
  obtain ⟨turns, rfl⟩ := Nat.exists_eq_succ_of_ne_zero (Nat.ne_zero_of_lt more)
  fun_induction chainFrom rank.rule rank.operator (rank.operand.parser (atomUpTo bound)) room tree
    rest generalizing g turns with
  | case1 room tree => rfl
  | case2 room tree t rest none =>
    rw [loop, chainTurn, none]
    rfl
  | case3 tree t rest op sign =>
    have refused : guard.enter g = none := grants
    rw [loop, chainTurn, sign]
    simp only [level, refused]
    rfl
  | case4 tree t rest op sign room ih =>
    obtain ⟨inside, entered, grants⟩ : ∃ inside, guard.enter g = some inside ∧
      guard.Grants (2 * rest.length + 1) inside room := grants
    rw [loop, chainTurn, sign]
    simp only [level, entered, bind_assoc, pure_bind]
    have fits := Nat.le_of_succ_le fits
    refine below.bind (weight_lt_of_length short) (grants.of_le (needs_operand rank rest)) fits
      fun right left suffix fewer => ?_
    have le := suffix.length_le
    rw [List.length_cons] at short more
    obtain ⟨turns, rfl⟩ := Nat.exists_eq_succ_of_ne_zero (by omega : turns ≠ 0)
    exact ih right left (by omega) (grants.of_le (by omega)) fits turns (by omega)

/-- The loop of the indices comes to the same where `limit` is as long as the tokens ahead. -/
theorem indices_agree (below : AgreesBelow guard n (weight .variable toks)) {turns : Nat}
    (before : List Tree) {limit : List Token} (short : rest.length ≤ toks.length)
    (more : rest.length < turns) (most : rest.length ≤ limit.length)
    (grants : guard.Grants (needs .variable rest) g room) (fits : room ≤ bound) :
    loop (indexTurn (read guard n) g) id turns before rest = liftExcept (do
      let (others, left) ← indices (atomUpTo bound) room limit rest
      return (before ++ others, left)) := by
  obtain ⟨turns, rfl⟩ := Nat.exists_eq_succ_of_ne_zero (Nat.ne_zero_of_lt more)
  fun_induction indices (atomUpTo bound) room limit rest generalizing before turns with
  | case1 _ limit text span rest ih =>
    rw [loop, indexTurn]
    simp only [bind_assoc, pure_bind]
    rw [List.length_cons] at short more
    have most := Nat.le_of_succ_le_succ most
    refine below.bind (weight_lt_of_length short) (grants.of_le (needs_le (Nat.lt_succ_self _)))
      fits fun index left suffix fewer => ?_
    refine bind_agrees fun after passed => ?_
    obtain ⟨t, -, rfl⟩ := expect_eq_ok passed
    have less : after.length < rest.length := suffix.length_le
    obtain ⟨turns, rfl⟩ := Nat.exists_eq_succ_of_ne_zero (by omega : turns ≠ 0)
    refine (ih after (before ++ [index]) (by omega) (by omega)
      (grants.of_le (needs_le (Nat.lt_succ_of_lt less))) turns (by omega)).trans ?_
    simp
  | case2 limit rest none =>
    rw [loop, indexTurn.eq_def]
    split
    next text span rest =>
      -- The limit is not what ends the loop.
      cases limit with
      | nil => cases most
      | cons => exact absurd rfl (none _ _ _ _ _ rfl)
    next =>
      exact congrArg (fun all => (return (all, rest) : Reading _)) (List.append_nil before).symm

/-- The loop of the lines comes to the same where `limit` is as long as the tokens ahead. -/
theorem lines_agree (below : AgreesBelow guard n (weight .block toks)) {turns : Nat}
    (before : List Tree) {limit : List Token} (short : rest.length ≤ toks.length)
    (more : rest.length < turns) (most : rest.length ≤ limit.length)
    (grants : guard.Grants (needs .block rest) g room) (fits : room ≤ bound) :
    loop (lineTurn (read guard n) g) id turns before rest = liftExcept (do
      let (others, left) ← lines (atomUpTo bound) room limit rest
      return (before ++ others, left)) := by
  obtain ⟨turns, rfl⟩ := Nat.exists_eq_succ_of_ne_zero (Nat.ne_zero_of_lt more)
  fun_induction lines (atomUpTo bound) room limit rest generalizing before turns with
  | case1 _ limit t rest newline ih =>
    rw [loop, lineTurn, if_pos newline]
    rw [List.length_cons] at short more
    obtain ⟨turns, rfl⟩ := Nat.exists_eq_succ_of_ne_zero (by omega : turns ≠ 0)
    exact ih before (Nat.le_of_succ_le short) (Nat.le_of_succ_le_succ most)
      (grants.of_le (needs_le (Nat.lt_succ_self _))) turns (by omega)
  | case2 _ limit t rest other ih =>
    rw [loop, lineTurn, if_neg other]
    simp only [bind_assoc, pure_bind]
    refine below.bind (weight_lt_of_le short (by decide)) grants fits
      fun line left suffix fewer => ?_
    refine bind_agrees fun _ _ => ?_
    have less := fewer (by decide)
    have most := Nat.le_of_succ_le_succ most
    obtain ⟨turns, rfl⟩ := Nat.exists_eq_succ_of_ne_zero (by omega : turns ≠ 0)
    refine (ih left (before ++ [line]) (by omega) (Nat.le_trans (Nat.le_of_lt_succ less) most)
      (grants.of_le (needs_le less)) turns (by omega)).trans ?_
    simp
  | case3 limit rest none =>
    rw [loop, lineTurn.eq_def]
    split
    next => exact congrArg (fun all => (return (all, []) : Reading _)) (List.append_nil before).symm
    next t rest =>
      cases limit with
      | nil => cases most
      | cons => exact absurd rfl (none _ _ _ _ rfl)

theorem take_eq_ok {expected : String} {t : Token} (h : take expected toks = .ok (t, rest)) :
    toks = t :: rest := by
  cases toks with
  | nil => cases h
  | cons => cases h; rfl

/-- The rule reads what the parser reads if all calls of less weight do. -/
theorem step_agrees (below : AgreesBelow guard n (weight reader toks))
    (grants : guard.Grants (needs reader toks) g room) (fits : room ≤ bound) :
    step (read guard n) n reader g toks =
      liftExcept (reader.parser (atomUpTo bound) room toks) := by
  have enough := below.enough
  cases reader with
  | block =>
    have turns : toks.length < n := Nat.lt_of_lt_of_le (by rw [weight, Reader.rung]; omega) enough
    rw [step, lines_agree below [] (Nat.le_refl _) turns (Nat.le_refl _) grants fits]
    rw [Reader.parser, block]
    cases lines (atomUpTo bound) room toks toks <;> rfl
  | line =>
    rw [step, Reader.parser, line_eq]
    cases startsAssignment toks with
    | true => exact below.bind (weight_lt_of_rung (by decide)) grants fits fun _ _ _ _ => rfl
    | false => exact below.bind (weight_lt_of_rung (by decide)) grants fits fun _ _ _ _ => rfl
  | assignVar =>
    refine bind_agrees fun taken ok => bind_agrees fun left passed => ?_
    obtain ⟨name, rest⟩ := taken
    obtain rfl := take_eq_ok ok
    obtain ⟨sign, -, rfl⟩ := expect_eq_ok passed
    have less : left.length < (name :: sign :: left).length := Nat.lt_add_of_pos_right Nat.two_pos
    exact below.bind (weight_lt_of_length less) (grants.of_le (needs_le less)) fits
      fun _ _ _ _ => rfl
  | logicExpr =>
    refine level_agrees grants (fun none => ?_) fun inside left granted some => ?_
    · subst none
      rfl
    · subst some
      exact below.bind (weight_lt_of_rung (by decide)) granted (Nat.le_of_succ_le fits)
        fun _ _ _ _ => rfl
  | chain rank =>
    rw [Reader.parser_chain]
    refine below.bind (weight_lt_of_rung (rung_operand rank))
      (grants.of_le (needs_operand rank toks)) fits fun first rest suffix fewer => ?_
    have less := fewer (operand_ne_block rank)
    have turns := Nat.lt_of_lt_of_le less (length_le_weight (.chain rank) toks)
    exact chainFrom_agrees below (Nat.le_of_lt less) (Nat.lt_of_lt_of_le turns enough)
      (grants.of_le (by rw [needs]; omega)) fits
  | negation =>
    rw [step.eq_def]
    dsimp only
    split
    next text span rest =>
      refine level_agrees grants (fun none => ?_) fun inside left granted some => ?_
      · subst none
        rfl
      · subst some
        have less := Nat.lt_succ_self rest.length
        exact below.bind (weight_lt_of_length less) (granted.of_le (needs_le_of_length less))
          (Nat.le_of_succ_le fits) fun _ _ _ _ => rfl
    next none =>
      rw [Reader.parser, Grammar.negation]
      · exact below.bind (weight_lt_of_rung (by decide)) grants fits fun _ _ _ _ => rfl
      · exact none
  | comparison =>
    refine below.bind (weight_lt_of_rung (by decide)) grants fits fun left rest suffix fewer => ?_
    have less := fewer (by decide)
    rcases rest with _ | ⟨⟨kind, text, span⟩, rest⟩
    · rfl
    cases kind with
    | relation op =>
      have less := Nat.lt_of_succ_lt less
      exact below.bind (weight_lt_of_length less) (grants.of_le (needs_le less)) fits
        fun _ _ _ _ => rfl
    | _ => rfl
  | arithExpr => exact below.bind (weight_lt_of_rung (by decide)) grants fits fun _ _ _ _ => rfl
  | atom =>
    refine level_agrees grants (fun none => ?_) fun inside left granted some => ?_
    · subst none
      cases bound <;> rfl
    · subst some
      -- An atom uses up one of the room and one of the bound, so the bound is never met.
      obtain ⟨bound, rfl⟩ := Nat.exists_eq_succ_of_ne_zero (Nat.ne_zero_of_lt fits)
      have fits := Nat.le_of_succ_le_succ fits
      rcases toks with _ | ⟨⟨kind, text, span⟩, rest⟩
      · rfl
      cases kind with
      | name =>
        rw [Reader.parser, atomUpTo, atomAround_name]
        exact below.bind (weight_lt_of_rung (by decide)) granted fits fun _ _ _ _ => rfl
      | minus =>
        have less := Nat.lt_succ_self rest.length
        exact below.bind (weight_lt_of_length less) (granted.of_le (needs_le_of_length less)) fits
          fun _ _ _ _ => rfl
      | leftParen =>
        have less := Nat.lt_succ_self rest.length
        refine below.bind (weight_lt_of_length less) (granted.of_le (needs_le_of_length less)) fits
          fun inner left _ _ => ?_
        exact bind_agrees fun _ _ => rfl
      | _ => rfl
  | «variable» =>
    refine bind_agrees fun taken ok => ?_
    obtain ⟨name, rest⟩ := taken
    obtain rfl := take_eq_ok ok
    dsimp only
    have less := Nat.lt_succ_self rest.length
    have turns := Nat.lt_of_lt_of_le less (length_le_weight .variable (name :: rest))
    rw [indices_agree below [] (Nat.le_of_lt less) (Nat.lt_of_lt_of_le turns enough)
      (Nat.le_refl _) (grants.of_le (needs_le less)) fits]
    cases indices (atomUpTo bound) room rest rest <;> rfl

/-- The rules read what the parser reads with as many levels left as the guard grants. -/
theorem agreesBelow (guard : Guard) (enough : k ≤ n) : AgreesBelow guard n k := by
  induction k generalizing n with
  | zero => exact ⟨enough, fun _ _ _ _ _ less => absurd less (Nat.not_lt_zero _)⟩
  | succ k ih =>
    obtain ⟨n, rfl⟩ := Nat.exists_eq_succ_of_ne_zero (Nat.ne_zero_of_lt enough)
    have below := ih (Nat.le_of_succ_le_succ enough)
    refine ⟨enough, fun reader g toks room bound less grants fits => ?_⟩
    have least := Nat.le_of_lt_succ less
    refine step_agrees ⟨Nat.le_trans least below.enough, fun r g rest room bound less => ?_⟩ grants
      fits
    exact below.agrees r g rest room bound (Nat.lt_of_lt_of_le less least)

theorem read_agrees (enough : weight reader toks < n)
    (grants : guard.Grants (needs reader toks) g room) (fits : room ≤ bound) :
    read guard n reader g toks = liftExcept (reader.parser (atomUpTo bound) room toks) :=
  (agreesBelow guard enough).agrees reader g toks room bound (Nat.lt_succ_self _) grants fits

end

/-- The tree of a source text. Where the guard refuses a level, `limit` is named. -/
def parse (guard : Guard) (n : Nat) (g : guard.State) (source : String) (start : Start)
    (limit : Nat) : ExceptT SyntaxError Option Tree := do
  let toks ← liftExcept (Token.scan source)
  ExceptT.adapt (·.toError limit source.utf8ByteSize) (readTokens guard n start g toks)

/-- All numbers that are large enough come to this answer. -/
def ComesTo {ε α : Type} (reading : Nat → ExceptT ε Option α) (answer : Except ε α) : Prop :=
  ∃ enough, ∀ n, enough < n → (reading n).run = some answer

theorem read_comesTo {guard : Guard} {g : guard.State} {reader : Reader} {toks : List Token}
    {room bound : Nat} (grants : guard.Grants (needs reader toks) g room) (fits : room ≤ bound) :
    ComesTo (fun n => read guard n reader g toks)
      (reader.parser (atomUpTo bound) room toks) := by
  refine ⟨weight reader toks, fun n enough => ?_⟩
  dsimp only
  rw [read_agrees enough grants fits, run_liftExcept]

/-- A limit is enough for the tokens ahead if the guard grants what they may need. -/
theorem readTokens_comesTo {guard : Guard} {g : guard.State} {start : Start} {toks : List Token}
    {limit : Nat} (grants : guard.Grants (needs start.reader toks) g limit) :
    ComesTo (fun n => readTokens guard n start g toks) (parseTokens start limit toks) := by
  refine ⟨weight start.reader toks, fun n enough => ?_⟩
  have reads := read_agrees enough grants (Nat.le_refl limit)
  dsimp only
  rw [readTokens, reads, start.reader_parser, ← liftExcept_bind, run_liftExcept, parseTokens]
  refine congrArg some (bind_congr fun read => ?_)
  obtain ⟨tree, rest⟩ := read
  cases rest <;> rfl

/-- A source text is cut into tokens, and then it is for reading them to come to an answer. -/
theorem parse_comesTo {guard : Guard} {g : guard.State} {source : String} {start : Start}
    {limit : Nat} {answer : List Token → Except Refusal Tree}
    (h : ∀ toks, ComesTo (fun n => readTokens guard n start g toks) (answer toks)) :
    ComesTo (fun n => parse guard n g source start limit) (do
      let toks ← Token.scan source
      (answer toks).mapError (·.toError limit source.utf8ByteSize)) := by
  cases scanned : Token.scan source with
  | error e =>
    refine ⟨0, fun n _ => ?_⟩
    simp only [parse, scanned]
    rfl
  | ok toks =>
    obtain ⟨enough, ran⟩ := h toks
    refine ⟨enough, fun n more => ?_⟩
    simp only [parse, scanned]
    exact congrArg (Except.mapError _ <$> ·) (ran n more)

/-- Reading makes progress and ends, whatever decides about further levels and also where nothing
refuses any; no more calls inside each other are needed than the weight. Every rule but that of a
block uses up a token, and none leaves tokens but those at the end of what was ahead; so does every
turn of a loop after which there is another. On a gauge this reading is that of the parser, rule by
rule. Without a limit it is that of the parser with two levels left for every token and two more. -/
theorem reading_ends :
    (∀ guard reader (g : guard.State) toks,
      Settles (fun _ => reader ≠ .block) toks (weight reader toks)
        fun n => read guard n reader g toks) ∧
    (∀ guard rank (before : guard.State × Tree) toks,
      Settles (fun next => next.isSome) toks (weight (.chain rank) toks)
        fun n => chainTurn (read guard n) rank before toks) ∧
    (∀ guard (g : guard.State) before toks,
      Settles (fun next => next.isSome) toks (weight .variable toks)
        (fun n => indexTurn (read guard n) g before toks) ∧
      Settles (fun next => next.isSome) toks (weight .block toks)
        fun n => lineTurn (read guard n) g before toks) ∧
    (∀ guard (g : guard.State) source start limit,
      ∃ answer, ComesTo (fun n => parse guard n g source start limit) answer) ∧
    (∀ reader (g : DepthGauge) toks bound, g.room ≤ bound →
      ComesTo (fun n => read .gauge n reader g toks)
        (reader.parser (atomUpTo bound) g.room toks)) ∧
    (∀ source start limit,
      ComesTo (fun n => parse .gauge n (DepthGauge.new limit) source start limit)
        (Reckon.parse source start limit)) ∧
    ∀ start toks limit, 2 * toks.length + 2 ≤ limit →
      ComesTo (fun n => readTokens .unlimited n start () toks)
        (parseTokens start limit toks) := by
  refine ⟨read_settles, chainTurn_settles,
    fun guard g before toks =>
      ⟨indexTurn_settles guard g before toks, lineTurn_settles guard g before toks⟩,
    fun guard g source start limit => ?_, fun reader g toks bound fits => ?_,
    fun source start limit => ?_, fun start toks limit enough => ?_⟩
  · choose answer ran using readTokens_settles guard start g
    exact ⟨_, parse_comesTo fun toks => ⟨weight start.reader toks, ran toks⟩⟩
  · exact read_comesTo (Guard.gauge_grants _ g) fits
  · exact parse_comesTo fun toks => readTokens_comesTo (Guard.gauge_grants _ (DepthGauge.new limit))
  · refine readTokens_comesTo (Guard.unlimited_grants ?_)
    have most := start.reader.levels_le
    rw [needs]
    omega

/-- On the tokens of `x[1]` and a newline. -/
theorem reading_ends_index :
    let toks := numbered [(.name, "x"), (.leftBracket, "["), (.int, "1"), (.rightBracket, "]"),
      (.newline, "\n")]
    (∃ tree, ComesTo (fun n => read .gauge n .variable (DepthGauge.new 1) toks)
      (.ok (tree, toks.drop 4))) ∧
    ∃ tree, ComesTo (fun n => readTokens .unlimited n .program () toks) (.ok tree) := by
  intro toks
  obtain ⟨-, -, -, -, onGauge, -, withoutLimit⟩ := reading_ends
  have index := onGauge .variable (DepthGauge.new 1) toks 1 (Nat.le_refl 1)
  have line := withoutLimit .program toks 12 (Nat.le_refl 12)
  exact ⟨⟨_, index⟩, _, line⟩

end Descent
end Grammar
end Reckon
