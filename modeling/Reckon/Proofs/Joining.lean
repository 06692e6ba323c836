import Reckon.Proofs.Compilation
import Reckon.Proofs.LineScanning
import Reckon.Proofs.Recognition
import Reckon.Proofs.Runs

/-!
Sources joined by a newline. The lines of the whole are the lines of the first source and then those
of the second, with the same levels for both, and the program runs as the two programs do one after
the other on one environment.
-/

namespace Reckon

namespace Grammar

section
variable {n : Token} {ts us : List Token} {xs ys zs : List Tree}

theorem EndsLine.append_newline (newline : n.kind = .newline) (h : EndsLine ts) :
    EndsLine (ts ++ n :: us) := by
  intro t mem
  cases ts with
  | nil =>
    cases mem
    exact newline
  | cons t' ts => exact h t mem

theorem EndsLine.of_append (h : EndsLine (ts ++ us)) : EndsLine ts := by
  intro t mem
  cases ts with
  | nil => cases mem
  | cons t' ts => exact h t mem

theorem Lines.join (newline : n.kind = .newline) (before : Lines ts xs) (behind : Lines us ys) :
    Lines (ts ++ n :: us) (xs ++ ys) := by
  induction before with
  | nil => exact .newline newline behind
  | newline kind _ ih => exact .newline kind ih
  | line h ends _ ih =>
    rw [List.append_assoc]
    exact .line h (ends.append_newline newline) ih

/-- No line goes over a newline, so lines can be parted at it. -/
theorem Lines.part (newline : n.kind = .newline) (h : Lines (ts ++ n :: us) zs) :
    ∃ xs ys, Lines ts xs ∧ Lines us ys ∧ zs = xs ++ ys := by
  generalize eq : ts ++ n :: us = all at h
  induction h generalizing ts with
  | nil => simp at eq
  | newline kind rest ih =>
    cases ts with
    | nil =>
      cases eq
      exact ⟨[], _, .nil, rest, rfl⟩
    | cons t ts =>
      cases eq
      obtain ⟨xs, ys, before, behind, rfl⟩ := ih rfl
      exact ⟨xs, ys, .newline kind before, behind, rfl⟩
  | @line ls rest u zs h ends lines ih =>
    -- The first line ends where `ts` does or earlier, as it holds no newline.
    obtain ⟨ms, rfl, split⟩ : ∃ ms, ts = ls ++ ms ∧ ms ++ n :: us = rest := by
      rcases List.append_eq_append_iff.1 eq with ⟨ms, long, split⟩ | ⟨ms, short, split⟩
      · cases ms with
        | nil => exact ⟨[], by simpa using long.symm, split⟩
        | cons m ms =>
          cases split
          exact absurd newline (h.ne_newline (by decide) n (by simp [long]))
      · exact ⟨ms, short, split.symm⟩
    obtain ⟨xs, ys, before, behind, rfl⟩ := ih split
    subst split
    exact ⟨u :: xs, ys, .line h ends.of_append before, behind, rfl⟩

theorem costAll_append : Tree.costAll (xs ++ ys) = max (Tree.costAll xs) (Tree.costAll ys) := by
  induction xs with
  | nil => simp [Tree.costAll]
  | cons x xs ih => simp [Tree.costAll, ih, Nat.max_assoc]

end

end Grammar

open Grammar

section
variable {source first second : String} {limit room : Nat} {t : Tree}

theorem parse_program_eq_ok_iff :
    parse source .program limit = .ok t ↔
      ∃ toks lines, Token.scan source = .ok toks ∧ Lines toks lines ∧
        Tree.costAll lines ≤ limit ∧ t = Rule.block.node lines := by
  rw [parse_eq_ok_iff]
  simp only [Start.rule, derives_block]
  constructor
  · rintro ⟨toks, scanned, ⟨lines, read, rfl⟩, fits⟩
    rw [cost_uncharged (by decide)] at fits
    exact ⟨toks, lines, scanned, read, fits, rfl⟩
  · rintro ⟨toks, lines, scanned, read, fits, rfl⟩
    refine ⟨toks, scanned, ⟨lines, read, rfl⟩, ?_⟩
    rw [cost_uncharged (by decide)]
    exact fits

theorem Grammar.Lines.move {g : Span → Span} {toks : List Token} {lines : List Tree}
    (h : Lines toks lines) : Lines (toks.map (Token.move g)) (lines.map (Tree.move g)) :=
  .of_matches h.matches_body.move

theorem Grammar.Lines.unique {toks : List Token} {xs ys : List Tree} (hx : Lines toks xs)
    (hy : Lines toks ys) : xs = ys := by
  have derivedX : Derives Start.program.rule toks (Rule.block.node xs) :=
    derives_block.2 ⟨xs, hx, rfl⟩
  have derivedY : Derives Start.program.rule toks (Rule.block.node ys) :=
    derives_block.2 ⟨ys, hy, rfl⟩
  exact (Tree.rule.inj (derivedX.unique derivedY)).2

theorem parse_join (total : (first ++ "\n" ++ second).utf8ByteSize ≤ Span.maxOffset) :
    parse (first ++ "\n" ++ second) .program limit = .ok t ↔
      ∃ xs ys, parse first .program limit = .ok (Rule.block.node xs) ∧
        parse second .program limit = .ok (Rule.block.node ys) ∧
        t = Rule.block.node (xs ++ ys.map (Tree.move (Span.shift (first.utf8ByteSize + 1)))) := by
  have sameCost (g : Span → Span) (ys : List Tree) :
      Tree.costAll (ys.map (Tree.move g)) = Tree.costAll ys :=
    Tree.costAll_move fun t _ => t.cost_move
  simp only [parse_program_eq_ok_iff, Token.scan_join total]
  constructor
  · rintro ⟨_, lines, ⟨before, behind, scanned, scanned', rfl⟩, read, fits, rfl⟩
    obtain ⟨xs, ys, head, tail, rfl⟩ := read.part rfl
    rw [costAll_append, Nat.max_le] at fits
    -- The lines behind the newline are those of `second` once they are moved back.
    have unmoved := tail.move (g := Span.unshift (first.utf8ByteSize + 1))
    rw [Token.map_move_cancel (Span.unshift_shift _)] at unmoved
    refine ⟨xs, _, ⟨before, xs, scanned, head, fits.1, rfl⟩,
      ⟨behind, _, scanned', unmoved, ?_, rfl⟩, ?_⟩
    · rw [sameCost]
      exact fits.2
    · exact congrArg (Rule.block.node <| xs ++ ·) (tail.unique unmoved.move)
  · rintro ⟨xs, ys, ⟨before, _, scanned, head, fits, eq⟩,
      ⟨behind, _, scanned', tail, fits', eq'⟩, rfl⟩
    obtain rfl := (Tree.rule.inj eq).2
    obtain rfl := (Tree.rule.inj eq').2
    refine ⟨_, _, ⟨before, behind, scanned, scanned', rfl⟩, head.join rfl tail.move, ?_, rfl⟩
    rw [costAll_append, sameCost]
    exact Nat.max_le.2 ⟨fits, fits'⟩

end

section
variable {vocabulary : Vocabulary} {limit room : Nat} {xs ys : List Tree} {es fs : List Expr}

theorem compileAll_append :
    Tree.compileAll vocabulary limit room (xs ++ ys) = do
      return (← Tree.compileAll vocabulary limit room xs) ++
        (← Tree.compileAll vocabulary limit room ys) := by
  induction xs with
  | nil => simp [Tree.compileAll, ok_bind]
  | cons x xs ih =>
    rw [List.cons_append, Tree.compileAll, ih, Tree.compileAll]
    simp only [bind_assoc, pure_bind, List.cons_append]

theorem compileAll_join {g : Span → Span}
    (compiledXs : Tree.compileAll vocabulary limit room xs = .ok es)
    (compiledYs : Tree.compileAll vocabulary limit room ys = .ok fs) :
    Tree.compileAll vocabulary limit room (xs ++ ys.map (Tree.move g)) = .ok (es ++ fs) := by
  have moved := Tree.compileAll_follows (Tree.forall₂_move (g := g) fun t _ => t.follows_move)
    compiledYs
  rw [compileAll_append, compiledXs, ok_bind, moved, ok_bind]
  rfl

theorem isEmpty_of_compileAll (h : Tree.compileAll vocabulary limit room xs = .ok es) :
    es.isEmpty = xs.isEmpty := by
  cases xs with
  | nil =>
    cases h
    rfl
  | cons x xs =>
    rw [Tree.compileAll] at h
    obtain ⟨e, _, h⟩ := bind_eq_ok.1 h
    obtain ⟨rest, _, h⟩ := bind_eq_ok.1 h
    cases h
    rfl

theorem compile_block {p : Expr} :
    (Rule.block.node xs).compile .standard limit = .ok p ↔
      ∃ room es, limit = room + 1 ∧ Tree.compileAll .standard limit room xs = .ok es ∧
        p = .program es := by
  cases limit with
  | zero => simp [Tree.compile, Tree.descend]
  | succ room =>
    have block : (Rule.block.node xs).compile .standard (room + 1) = do
        return .program (← Tree.compileAll .standard (room + 1) room xs) :=
      compileAt_block (Nat.zero_le _)
    rw [block, bind_eq_ok]
    constructor
    · rintro ⟨es, compiled, ⟨⟩⟩
      exact ⟨room, es, rfl, compiled, rfl⟩
    · rintro ⟨_, es, ⟨⟩, compiled, rfl⟩
      exact ⟨es, compiled, rfl⟩

namespace Expr

variable {last : Value}

theorem runAll_append :
    runAll limit room last (es ++ fs) =
      runAll limit room last es >>= fun v => runAll limit room v fs := by
  induction es generalizing last with
  | nil => simp [runAll]
  | cons e es ih =>
    rw [List.cons_append, runAll, runAll, bind_assoc]
    simp only [ih]

/-- The value before the first statement counts only if there is none. -/
theorem runAll_eq (last : Value) (fs : List Expr) :
    runAll limit room last fs = if fs.isEmpty then pure last else runAll limit room .void fs := by
  cases fs with
  | nil => simp [runAll]
  | cons f fs => simp [runAll]

theorem eval_program_append (es fs : List Expr) (env : Environment) :
    (program (es ++ fs)).eval (room + 1) env =
      Yield.andThen ((program es).eval (room + 1) env) fun v left =>
        if fs.isEmpty then (.ok v, left) else (program fs).eval (room + 1) left := by
  have onRun (es : List Expr) (env : Environment) : (program es).eval (room + 1) env =
      (runAll (room + 1) room .void es).on env := by
    rw [eval, evalWithin, Run.on]
  rw [onRun, onRun, runAll_append, Run.on_bind]
  congr 1
  funext v left
  rw [runAll_eq, onRun]
  split
  next => exact Run.on_pure v
  next => rfl

end Expr

end

/-- Programs compose line by line. Two sources joined by a newline, of less than `2 ^ 32` bytes in
all, are read exactly if each of them is, with the lines of both, and the whole runs as the first
and, if that succeeds, as the second on what the first has left. A second source without lines
leaves the value of the first. -/
theorem lines_compose (first second : String) (limit : Nat)
    (total : (first ++ "\n" ++ second).utf8ByteSize < 4294967296) :
    ((∃ t, parse (first ++ "\n" ++ second) .program limit = .ok t) ↔
      (∃ t, parse first .program limit = .ok t) ∧ ∃ t, parse second .program limit = .ok t) ∧
    ∀ t₁ t₂ t, parse first .program limit = .ok t₁ → parse second .program limit = .ok t₂ →
      parse (first ++ "\n" ++ second) .program limit = .ok t →
      t = Rule.block.node (t₁.children ++
        t₂.children.map (Tree.move (Span.shift (first.utf8ByteSize + 1)))) ∧
      ∀ p₁ p₂, t₁.compile .standard limit = .ok p₁ → t₂.compile .standard limit = .ok p₂ →
        ∃ p, t.compile .standard limit = .ok p ∧ ∀ env, p.eval limit env =
          Yield.andThen (p₁.eval limit env) fun v left =>
            if t₂.children.isEmpty then (.ok v, left) else p₂.eval limit left := by
  have joined {t : Tree} : parse (first ++ "\n" ++ second) .program limit = .ok t ↔ _ :=
    parse_join (Nat.le_of_lt_succ total)
  refine ⟨?_, ?_⟩
  · constructor
    · rintro ⟨t, read⟩
      obtain ⟨xs, ys, head, tail, _⟩ := joined.1 read
      exact ⟨⟨_, head⟩, ⟨_, tail⟩⟩
    · rintro ⟨⟨t₁, head⟩, ⟨t₂, tail⟩⟩
      obtain ⟨_, xs, _, _, _, rfl⟩ := parse_program_eq_ok_iff.1 head
      obtain ⟨_, ys, _, _, _, rfl⟩ := parse_program_eq_ok_iff.1 tail
      exact ⟨_, joined.2 ⟨xs, ys, head, tail, rfl⟩⟩
  · intro t₁ t₂ t head tail read
    obtain ⟨xs, ys, head', tail', rfl⟩ := joined.1 read
    obtain rfl := Except.ok.inj (head.symm.trans head')
    obtain rfl := Except.ok.inj (tail.symm.trans tail')
    refine ⟨rfl, ?_⟩
    intro p₁ p₂ compiled₁ compiled₂
    obtain ⟨room, es, rfl, compiledXs, rfl⟩ := compile_block.1 compiled₁
    obtain ⟨_, fs, ⟨⟩, compiledYs, rfl⟩ := compile_block.1 compiled₂
    refine ⟨.program (es ++ fs), ?_, ?_⟩
    · exact compile_block.2 ⟨room, _, rfl, compileAll_join compiledXs compiledYs, rfl⟩
    · intro env
      have none : (Rule.block.node ys).children.isEmpty = fs.isEmpty :=
        (isEmpty_of_compileAll compiledYs).symm
      rw [none]
      exact Expr.eval_program_append es fs env

theorem lines_compose_undefined :
    ("x = 1" ++ "\n" ++ "y = -x\nz").utf8ByteSize < 4294967296 ∧
    ∃ t₁ t₂ t p₁ p₂ p, parse "x = 1" .program 4 = .ok t₁ ∧
      parse "y = -x\nz" .program 4 = .ok t₂ ∧
      parse ("x = 1" ++ "\n" ++ "y = -x\nz") .program 4 = .ok t ∧
      t = Rule.block.node (t₁.children ++ t₂.children.map (Tree.move (Span.shift 6))) ∧
      t₁.compile .standard 4 = .ok p₁ ∧ t₂.compile .standard 4 = .ok p₂ ∧
      t.compile .standard 4 = .ok p ∧ ∀ env, p.eval 4 env =
        Yield.andThen (p₁.eval 4 env) fun v left =>
          if t₂.children.isEmpty then (.ok v, left) else p₂.eval 4 left := by
  obtain ⟨lines, runs⟩ :=
    (lines_compose "x = 1" "y = -x\nz" 4 (by decide)).2 _ _ _ rfl rfl rfl
  obtain ⟨p, compiled, run⟩ := runs _ _ rfl rfl
  exact ⟨by decide, _, _, _, _, _, p, rfl, rfl, rfl, lines, rfl, rfl, compiled, run⟩

end Reckon
