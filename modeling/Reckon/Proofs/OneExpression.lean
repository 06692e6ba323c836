import Reckon.Proofs.AtomicLines
import Reckon.Proofs.Coverage
import Reckon.Proofs.NodeCount
import Reckon.Proofs.PassThrough

/-!
Source texts that are one expression. Run as a program, such a text is a program of one line, and
that line is the expression: the program has one node more and needs one level more, and what it
comes to is what the expression comes to.
-/

namespace Reckon

theorem Covered.not_isPassThrough {limit : Nat} {leaves : List Leaf} {e : CompileError}
    (h : Covered limit leaves (.error e : Except CompileError Expr)) : e.isPassThrough = false := by
  cases h with
  | tooDeep => rfl
  | refused first =>
    obtain ⟨l, _, refused⟩ := List.exists_of_findSome?_eq_some first
    obtain ⟨kind, _, rfl⟩ := Leaf.exists_of_refusal? refused
    rfl

namespace Grammar

/-- No newline is among the tokens, and they do not begin with a name and `=`. -/
structure OnOneLine (toks : List Token) : Prop where
  flat : ∀ t ∈ toks, t.kind ≠ .newline
  unassigned : ∀ name sign rest, toks = name :: sign :: rest → name.kind = .name →
    sign.kind ≠ .assign

/-- The program whose only line is the expression. -/
def asProgram (t : Tree) : Tree := Rule.block.node [Rule.line.node [t]]

section
variable {r : Rule} {toks : List Token} {lines : List Tree} {t : Tree}

theorem Lines.single_of_flat (h : Lines toks lines) (flat : ∀ t ∈ toks, t.kind ≠ .newline) :
    toks = [] ∧ lines = [] ∨ ∃ u, Derives .line toks u ∧ lines = [u] := by
  cases h with
  | nil => exact .inl ⟨rfl, rfl⟩
  | newline kind _ => exact absurd kind (flat _ List.mem_cons_self)
  | @line us ts u xs first ends rest =>
    refine .inr ⟨u, ?_⟩
    cases ts with
    | nil =>
      obtain rfl := rest.unique .nil
      rw [List.append_nil]
      exact ⟨first, rfl⟩
    | cons t ts => exact absurd (ends t rfl) (flat t (by simp))

theorem OnOneLine.expression {line : Tree} (one : OnOneLine toks) (h : Derives .line toks line) :
    ∃ t, Derives .logicExpr toks t ∧ line = Rule.line.node [t] := by
  obtain ⟨u, assign | expression, rfl⟩ := derives_line.1 h
  · obtain ⟨name, sign, us, v, named, signed, _, rfl, _⟩ := derives_assignVar.1 assign
    exact absurd signed (one.unassigned name sign us rfl named)
  · exact ⟨u, expression, rfl⟩

theorem OnOneLine.lines_iff (one : OnOneLine toks) :
    Lines toks lines ↔ toks = [] ∧ lines = [] ∨
      ∃ t, Derives .logicExpr toks t ∧ lines = [Rule.line.node [t]] := by
  constructor
  · intro h
    rcases h.single_of_flat one.flat with none | ⟨line, derived, rfl⟩
    · exact .inl none
    · obtain ⟨t, expression, rfl⟩ := one.expression derived
      exact .inr ⟨t, expression, rfl⟩
  · rintro (⟨rfl, rfl⟩ | ⟨t, expression, rfl⟩)
    · exact .nil
    · have line : Derives .line toks (Rule.line.node [t]) :=
        derives_line.2 ⟨t, .inr expression, rfl⟩
      have only : Lines (toks ++ []) [Rule.line.node [t]] := .line line nofun .nil
      rwa [List.append_nil] at only

theorem cost_asProgram : (asProgram t).cost = t.cost := by
  rw [asProgram, cost_plain (by decide), cost_plain (by decide)]

/-- The tokens are read as the program of the expression they are read as, or there are none. -/
theorem parse_program_iff_expression {source : String} {limit : Nat} {p : Tree}
    (scanned : Token.scan source = .ok toks) (one : OnOneLine toks) :
    parse source .program limit = .ok p ↔ toks = [] ∧ p = Rule.block.node [] ∨
      ∃ t, parse source .expression limit = .ok t ∧ p = asProgram t := by
  rw [parse_program_eq_ok_iff]
  simp only [parse_eq_ok_iff, scanned, Except.ok.injEq, exists_eq_left', Start.rule]
  constructor
  · rintro ⟨_, lines, rfl, read, fits, rfl⟩
    rcases one.lines_iff.1 read with ⟨none, rfl⟩ | ⟨t, expression, rfl⟩
    · exact .inl ⟨none, rfl⟩
    · refine .inr ⟨t, ⟨expression, ?_⟩, rfl⟩
      rwa [← cost_uncharged (w := .block) (by decide), ← asProgram, cost_asProgram] at fits
  · rintro (⟨none, rfl⟩ | ⟨t, ⟨expression, fits⟩, rfl⟩)
    · exact ⟨toks, [], rfl, one.lines_iff.2 (.inl ⟨none, rfl⟩), Nat.zero_le _, rfl⟩
    · refine ⟨toks, _, rfl, one.lines_iff.2 (.inr ⟨t, expression, rfl⟩), ?_, rfl⟩
      rwa [← cost_uncharged (w := .block) (by decide), ← asProgram, cost_asProgram]

/-- One transparent rule more above a derivation that still stands on a low rung is not seen. -/
theorem Derives.compileAt_succ_hops {limit room hops : Nat} (h : Derives r toks t)
    (few : hops < r.rung) :
    compileAt limit room (hops + 1) t = compileAt limit room hops t := by
  have same : SameUnless CompileError.isPassThrough (compileAt limit room (hops + 1) t)
      (compileAt limit room hops t) := t.compileFrom_succ_hops
  refine (same.eq fun e failed => ?_).symm
  have covered : Covered limit t.leaves (compileAt limit room (hops + 1) t) := h.covered few
  rw [failed] at covered
  exact covered.not_isPassThrough

end

section
variable {toks : List Token} {t : Tree} {limit : Nat} {e p : Expr}

theorem compile_asProgram :
    (asProgram t).compile .standard limit = .ok p ↔
      ∃ room e, limit = room + 1 ∧ compilePart limit room (Rule.line.node [t]) = .ok e ∧
        p = .program [e] := by
  rw [asProgram, compile_block]
  simp only [Tree.compileAll]
  constructor
  · rintro ⟨room, es, rfl, compiled, rfl⟩
    obtain ⟨e, line, compiled⟩ := bind_eq_ok.1 compiled
    cases compiled
    exact ⟨room, e, rfl, line, rfl⟩
  · rintro ⟨room, e, rfl, line, rfl⟩
    exact ⟨room, [e], rfl, bind_eq_ok.2 ⟨e, line, rfl⟩, rfl⟩

/-- The rule for a line is transparent and stands alone. -/
theorem compilePart_line {room : Nat} (h : Derives .logicExpr toks t) :
    compilePart limit room (Rule.line.node [t]) = compilePart limit room t := by
  refine congrArg (Tree.descend limit room) (funext fun room => ?_)
  rw [compileAt_transparent rfl (Nat.zero_le _)]
  exact h.compileAt_succ_hops (by decide)

theorem compile_expression_of_program (h : Derives .logicExpr toks t)
    (compiled : (asProgram t).compile .standard limit = .ok p) :
    ∃ e, t.compile .standard limit = .ok e ∧ p = .program [e] := by
  obtain ⟨room, e, rfl, line, rfl⟩ := compile_asProgram.1 compiled
  rw [compilePart_line h] at line
  exact ⟨e, compile_of_compilePart (Nat.le_succ room) line, rfl⟩

theorem compile_program_of_expression (h : Derives .logicExpr toks t)
    (compiled : t.compile .standard limit = .ok e) :
    (asProgram t).compile .standard (limit + 1) = .ok (.program [e]) := by
  refine compile_asProgram.2 ⟨limit, e, rfl, ?_, rfl⟩
  rw [compilePart_line h]
  have same : SameUnless CompileError.isDepth (t.compile .standard limit)
      (compilePart (limit + 1) limit t) :=
    Tree.descend_extends (Nat.le_refl limit) (t.compilesOn .standard limit (limit + 1) 0)
  rw [compiled] at same
  exact same.eq nofun

end

end Grammar

/-- A program of one statement runs as the statement. -/
theorem Expr.plain_program_single (e : Expr) : (program [e]).plain = e.plain := by
  rw [plain, plainAll]
  exact bind_pure e.plain

theorem Expr.size_program_single (e : Expr) : (program [e]).size = e.size + 1 := by
  rw [size, sizeAll, sizeAll, Nat.add_zero, Nat.add_comm]

open Grammar

section
variable {source : String} {limit : Nat} {toks : List Token}

/-- What is compiled as a program is the empty one, or it can be compiled as an expression that
evaluates to the same. -/
theorem exists_expression_of_program {p : Tree} {q : Expr} (scanned : Token.scan source = .ok toks)
    (one : OnOneLine toks) (read : parse source .program limit = .ok p)
    (compiled : p.compile .standard limit = .ok q) :
    toks = [] ∧ q = .program [] ∨
      ∃ t e, parse source .expression limit = .ok t ∧ t.compile .standard limit = .ok e ∧
        ∀ env, e.eval limit env = q.eval limit env := by
  rcases (parse_program_iff_expression scanned one).1 read with ⟨none, rfl⟩ | ⟨t, inner, rfl⟩
  · obtain ⟨room, es, rfl, nothing, rfl⟩ := compile_block.1 compiled
    cases nothing
    exact .inl ⟨none, rfl⟩
  · obtain ⟨e, expression, rfl⟩ := compile_expression_of_program (derives_of_parse scanned inner)
      compiled
    refine .inr ⟨t, e, inner, expression, fun env => ?_⟩
    rw [Tree.eval_eq_plain compiled, Tree.eval_eq_plain expression, Expr.plain_program_single]

theorem runSource_of_evalSource {o : Outcome} (scanned : Token.scan source = .ok toks)
    (one : OnOneLine toks) (evaluated : evalSource limit source = .ok o) :
    runSource (limit + 1) source = .ok ⟨o.value, .empty, o.nodes + 1⟩ := by
  obtain ⟨t, e, read, compiled, ran, nodes⟩ := execute_eq_ok_iff.1 evaluated
  have derived := derives_of_parse scanned read
  have raised : parse source .expression (limit + 1) = .ok t := by
    have same : SameUnless SyntaxError.isDepth (parse source .expression limit)
        (parse source .expression (limit + 1)) := parse_extends (Nat.le_succ limit)
    rw [read] at same
    exact same.eq nofun
  have program := (parse_program_iff_expression scanned one).2 (.inr ⟨t, raised, rfl⟩)
  have compiled' := compile_program_of_expression derived compiled
  refine execute_eq_ok_iff.2 ⟨asProgram t, .program [e], program, compiled', ?_, ?_⟩
  · rw [Tree.eval_eq_plain compiled] at ran
    have kept : (e.plain.on .empty).2 = .empty :=
      Expr.plain_snd_of_targets_eq_nil ((derived.assignless (by decide)).part compiled)
    rw [Tree.eval_eq_plain compiled', Expr.plain_program_single]
    exact Prod.ext (Prod.ext_iff.1 ran).1 kept
  · rw [nodes, Expr.count_eq_size, Expr.count_eq_size, Expr.size_program_single]

end

/-- Evaluating and running agree on a source text of one expression. What can be evaluated can be
run within one level more, to the same value, with no variables and one node more. What runs, unless
there is nothing to run, can be evaluated within the same limit, to the same value; and an error
that running it meets is the one that evaluating it meets. -/
theorem run_agrees_with_eval (source : String) (limit : Nat) (toks : List Token)
    (scanned : Token.scan source = .ok toks) (one : OnOneLine toks) :
    (∀ o, evalSource limit source = .ok o →
      runSource (limit + 1) source = .ok ⟨o.value, .empty, o.nodes + 1⟩) ∧
    (∀ o, runSource limit source = .ok o → toks ≠ [] →
      ∃ o', evalSource limit source = .ok o' ∧ o'.value = o.value) ∧
    ∀ err, runSource limit source = .error (.eval err) →
      evalSource limit source = .error (.eval err) := by
  refine ⟨fun o evaluated => runSource_of_evalSource scanned one evaluated, ?_, ?_⟩
  · intro o ran some
    obtain ⟨p, q, read, compiled, ran, _⟩ := execute_eq_ok_iff.1 ran
    rcases exists_expression_of_program scanned one read compiled with
      ⟨none, _⟩ | ⟨t, e, inner, expression, same⟩
    · exact absurd none some
    · exact ⟨⟨o.value, o.env, e.count⟩,
        execute_eq_ok_iff.2 ⟨t, e, inner, expression, (same _).trans ran, rfl⟩, rfl⟩
  · intro err failed
    obtain ⟨p, q, left, read, compiled, failed⟩ := execute_eq_eval_error_iff.1 failed
    rcases exists_expression_of_program scanned one read compiled with
      ⟨_, rfl⟩ | ⟨t, e, inner, expression, same⟩
    · -- A program of no lines does not fail.
      rw [Tree.eval_eq_plain compiled] at failed
      cases failed
    · exact execute_eq_eval_error_iff.2 ⟨t, e, left, inner, expression, (same _).trans failed⟩

theorem run_agrees_with_eval_undefined :
    (∃ toks o, Token.scan "1 + 2 * 3" = .ok toks ∧ OnOneLine toks ∧ toks ≠ [] ∧
      evalSource 4 "1 + 2 * 3" = .ok o ∧ o.value = .int 7 ∧
      runSource 5 "1 + 2 * 3" = .ok ⟨o.value, .empty, o.nodes + 1⟩ ∧
      ∃ o', evalSource 5 "1 + 2 * 3" = .ok o' ∧ o'.value = o.value) ∧
    ∃ toks, Token.scan "-a[1]" = .ok toks ∧ OnOneLine toks ∧
      runSource 5 "-a[1]" = .error (.eval (.undefinedVariable "a")) ∧
      evalSource 5 "-a[1]" = .error (.eval (.undefinedVariable "a")) := by
  have oneLine {toks : List Token} (flat : ∀ t ∈ toks, t.kind ≠ .newline)
      (unnamed : ∀ t ∈ toks.head?, t.kind ≠ .name) : OnOneLine toks := by
    refine ⟨flat, ?_⟩
    rintro name sign rest rfl named
    exact absurd named (unnamed name rfl)
  constructor
  · obtain ⟨toks, o, scanned, some, flat, unnamed, evaluated, seven⟩ :
        ∃ toks o, Token.scan "1 + 2 * 3" = .ok toks ∧ toks ≠ [] ∧
          (∀ t ∈ toks, t.kind ≠ .newline) ∧ (∀ t ∈ toks.head?, t.kind ≠ .name) ∧
          evalSource 4 "1 + 2 * 3" = .ok o ∧ o.value = .int 7 :=
      ⟨_, _, rfl, nofun, by decide, by decide, rfl, rfl⟩
    have one := oneLine flat unnamed
    have ran := (run_agrees_with_eval "1 + 2 * 3" 4 toks scanned one).1 o evaluated
    have again := (run_agrees_with_eval "1 + 2 * 3" 5 toks scanned one).2.1 _ ran some
    exact ⟨toks, o, scanned, one, some, evaluated, seven, ran, again⟩
  · obtain ⟨toks, scanned, flat, unnamed, failed⟩ :
        ∃ toks, Token.scan "-a[1]" = .ok toks ∧ (∀ t ∈ toks, t.kind ≠ .newline) ∧
          (∀ t ∈ toks.head?, t.kind ≠ .name) ∧
          runSource 5 "-a[1]" = .error (.eval (.undefinedVariable "a")) :=
      ⟨_, rfl, by decide, by decide, rfl⟩
    have one := oneLine flat unnamed
    exact ⟨toks, scanned, one, failed,
      (run_agrees_with_eval "-a[1]" 5 toks scanned one).2.2 _ failed⟩

end Reckon
