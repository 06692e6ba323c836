import Reckon.Proofs.Constructs
import Reckon.Proofs.MoreRoom
import Reckon.Proofs.TreeSpans

/-!
Transparent rules do not show. A rule that the vocabulary does not know, put around any node that is
compiled, changes nothing, neither the expression nor an error nor the levels it takes, as long as
the row of transparent rules that it becomes part of is not too long. The row is too long exactly
when more than `maxPassThrough` of them lead down from a node that compiling comes to.
-/

namespace Reckon

def CompileError.isPassThrough : CompileError → Bool
  | .passThroughTooDeep _ _ => true
  | _ => false

namespace Tree

/-- A rule node with one of its children taken out. -/
structure Frame where
  name : String
  before : List Tree
  behind : List Tree

/-- The node with `t` for the child that was taken out. -/
def Frame.fill (f : Frame) (t : Tree) : Tree := .rule f.name (f.before ++ t :: f.behind)

/-- A tree with one subtree taken out, the frame of the root first. -/
abbrev Context := List Frame

/-- The tree with `t` for the subtree that was taken out. -/
def Context.fill (context : Context) (t : Tree) : Tree := context.foldr Frame.fill t

/-- What was taken out is the name of an assignment or of a variable, which is not compiled. -/
def Frame.IsName (vocabulary : Vocabulary) (f : Frame) : Prop :=
  f.before = [] ∧ ∃ c, vocabulary.get? f.name = some c ∧ c.isNamed

/-- The row of transparent rules, each the only child of the one above, from a tree down to another
one. -/
inductive Row (vocabulary : Vocabulary) : (length : Nat) → Tree → Tree → Prop where
  | here {t : Tree} : Row vocabulary 0 t t
  | through {n : Nat} {name : String} {only t : Tree} (unmapped : vocabulary.get? name = none)
      (rest : Row vocabulary n only t) : Row vocabulary (n + 1) (.rule name [only]) t

/-- More transparent rules follow each other down from the tree than may. -/
def StartsLongRow (vocabulary : Vocabulary) (t : Tree) : Prop :=
  ∃ n u, maxPassThrough < n ∧ Row vocabulary n t u

/-- Compiling the first tree, where `room` levels are left, comes to compile the second: it is the
first, or compiling comes to it from a part of the construct the first stands for, when the parts
before have been compiled and a level is left. -/
inductive Compiles (vocabulary : Vocabulary) (limit : Nat) : (room : Nat) → Tree → Tree → Prop where
  | root {room : Nat} {t : Tree} : Compiles vocabulary limit (room + 1) t t
  | part {room n : Nat} {t u p : Tree} {name : String} {children before behind : List Tree}
      {c : Construct} {es : List Expr} (row : Row vocabulary n t (.rule name children))
      (few : n ≤ maxPassThrough) (mapped : vocabulary.get? name = some c)
      (fits : c.parts children = .ok (before ++ p :: behind))
      (done : compileAll vocabulary limit room before = .ok es)
      (below : Compiles vocabulary limit room p u) : Compiles vocabulary limit (room + 1) t u

section
variable {vocabulary : Vocabulary} {limit room hops m n : Nat} {t t' u : Tree} {ts ts' : List Tree}
  {w : String} {e : CompileError}

/-- After more transparent rules the same is compiled, unless they are too many. -/
theorem compileFrom_succ_hops (t : Tree) :
    SameUnless CompileError.isPassThrough (t.compileFrom vocabulary limit room (hops + 1))
      (t.compileFrom vocabulary limit room hops) := by
  induction t using Tree.induction generalizing hops with
  | terminal kind text span =>
    rcases Nat.lt_or_ge maxPassThrough (hops + 1) with many | few
    · rw [compileFrom_of_many many]
      exact .deep rfl
    · rw [compileFrom_terminal few, compileFrom_terminal (Nat.le_of_succ_le few)]
      exact .same
  | rule name children ih =>
    rcases Nat.lt_or_ge maxPassThrough (hops + 1) with many | few
    · rw [compileFrom_of_many many]
      exact .deep rfl
    cases mapped : vocabulary.get? name with
    | none =>
      rw [compileFrom_transparent few mapped,
        compileFrom_transparent (Nat.le_of_succ_le few) mapped]
      split
      next only => exact ih only (List.mem_singleton.2 rfl)
      next => exact .same
    | some c =>
      rw [compileFrom_construct few mapped, compileFrom_construct (Nat.le_of_succ_le few) mapped]
      exact .same

/-- The first tree can stand where the second does: it covers the same text, and it compiles to the
same, unless transparent rules in it are too many. -/
structure StandsFor (vocabulary : Vocabulary) (limit : Nat) (t' t : Tree) : Prop where
  span : t'.span? = t.span?
  compiles : ∀ room hops, SameUnless CompileError.isPassThrough
    (t'.compileFrom vocabulary limit room hops) (t.compileFrom vocabulary limit room hops)

theorem StandsFor.refl (t : Tree) : StandsFor vocabulary limit t t :=
  ⟨rfl, fun _ _ => .same⟩

theorem wrap_standsFor (unmapped : vocabulary.get? w = none) (t : Tree) :
    StandsFor vocabulary limit (.rule w [t]) t where
  span := mergeSpans_none
  compiles room hops := by
    rcases Nat.lt_or_ge maxPassThrough hops with many | few
    · rw [compileFrom_of_many many]
      exact .deep rfl
    · rw [compileFrom_transparent few unmapped]
      exact t.compileFrom_succ_hops

theorem descend_standsFor {k k' : Nat → Except CompileError Expr}
    (h : ∀ room, SameUnless CompileError.isPassThrough (k' room) (k room)) :
    SameUnless CompileError.isPassThrough (descend limit room k') (descend limit room k) := by
  cases room with
  | zero => exact .same
  | succ room => exact h room

theorem compileAll_standsFor (h : List.Forall₂ (StandsFor vocabulary limit) ts' ts) :
    SameUnless CompileError.isPassThrough (compileAll vocabulary limit room ts')
      (compileAll vocabulary limit room ts) := by
  induction h with
  | nil => exact .same
  | cons head _ ih =>
    rw [compileAll, compileAll]
    exact (descend_standsFor fun room => head.compiles room 0).bind fun _ => ih.map

theorem spanAll?_append (ts us : List Tree) :
    spanAll? (ts ++ us) = mergeSpans (spanAll? ts) (spanAll? us) := by
  induction ts with
  | nil => exact none_mergeSpans.symm
  | cons t ts ih => rw [List.cons_append, spanAll?, spanAll?, ih, mergeSpans_assoc]

theorem Frame.spanAll?_fill (h : t'.span? = t.span?) (f : Frame) :
    spanAll? (f.before ++ t' :: f.behind) = spanAll? (f.before ++ t :: f.behind) := by
  rw [spanAll?_append, spanAll?_append, spanAll?, spanAll?, h]

theorem Frame.headText?_fill {f : Frame} (h : f.before = [] → t'.text? = t.text?) :
    Construct.headText? (f.before ++ t' :: f.behind) =
      Construct.headText? (f.before ++ t :: f.behind) := by
  cases before : f.before with
  | nil => exact h before
  | cons first others => rfl

theorem ambiguous_standsFor (length : ts'.length = ts.length)
    (span : spanAll? ts' = spanAll? ts) :
    SameUnless CompileError.isPassThrough
      (.error (.ambiguousPassThrough w ts'.length (spanAll? ts')) : Except CompileError Expr)
      (.error (.ambiguousPassThrough w ts.length (spanAll? ts))) := by
  rw [length, span]
  exact .same

/-- What stands for a child makes its node stand for the node. -/
theorem Frame.standsFor {f : Frame} (h : StandsFor vocabulary limit t' t)
    (named : f.IsName vocabulary → t'.text? = t.text?) :
    StandsFor vocabulary limit (f.fill t') (f.fill t) where
  span := f.spanAll?_fill h.span
  compiles room hops := by
    rw [Frame.fill, Frame.fill]
    rcases Nat.lt_or_ge maxPassThrough hops with many | few
    · rw [compileFrom_of_many many]
      exact .deep rfl
    cases mapped : vocabulary.get? f.name with
    | none =>
      rw [compileFrom_transparent few mapped, compileFrom_transparent few mapped]
      have span := f.spanAll?_fill h.span
      obtain ⟨name, before, behind⟩ := f
      rcases before with _ | ⟨first, others⟩
      · rcases behind with _ | ⟨next, others⟩
        · exact h.compiles room (hops + 1)
        · exact ambiguous_standsFor (by simp) span
      · rcases others with _ | ⟨second, others⟩ <;> exact ambiguous_standsFor (by simp) span
    | some c =>
      rw [compileFrom_construct few mapped, compileFrom_construct few mapped]
      have head : c.isNamed → Construct.headText? (f.before ++ t' :: f.behind) =
          Construct.headText? (f.before ++ t :: f.behind) :=
        fun isNamed => headText?_fill fun front => named ⟨front, c, mapped, isNamed⟩
      have related : List.Forall₂ (StandsFor vocabulary limit) (f.before ++ t' :: f.behind)
          (f.before ++ t :: f.behind) :=
        List.rel_append (List.forall₂_same.2 fun t _ => .refl t)
          (.cons h (List.forall₂_same.2 fun t _ => .refl t))
      rcases Construct.parts_congr related head with
        ⟨misfit, fits, fits'⟩ | ⟨ts, us, fits, fits', parts⟩
      · rw [fits, fits']
        dsimp only
        rw [malformed, malformed, f.spanAll?_fill h.span]
        exact .same
      · rw [fits, fits', funext (Construct.assemble_congr head)]
        exact (compileAll_standsFor parts).map

theorem Context.wrap_standsFor {context : Context} (unmapped : vocabulary.get? w = none)
    (compiled : ∀ f ∈ context.getLast?, ¬f.IsName vocabulary) (t : Tree) :
    StandsFor vocabulary limit (context.fill (.rule w [t])) (context.fill t) := by
  induction context with
  | nil => exact Tree.wrap_standsFor unmapped t
  | cons f context ih =>
    cases context with
    | nil =>
      exact Frame.standsFor (Tree.wrap_standsFor unmapped t)
        fun isName => absurd isName (compiled f rfl)
    | cons g context =>
      -- Further down the child of `f` is a rule on both sides.
      exact Frame.standsFor (ih compiled) fun _ => rfl

theorem Row.split (h : Row vocabulary (m + n) t u) :
    ∃ v, Row vocabulary m t v ∧ Row vocabulary n v u := by
  induction m generalizing t with
  | zero => exact ⟨t, .here, by simpa using h⟩
  | succ m ih =>
    rw [Nat.add_right_comm] at h
    cases h with
    | through unmapped rest =>
      obtain ⟨v, first, second⟩ := ih rest
      exact ⟨v, .through unmapped first, second⟩

/-- Down a row of transparent rules that is not too long. -/
theorem Row.compileFrom_eq (h : Row vocabulary n t u) (few : hops + n ≤ maxPassThrough + 1) :
    t.compileFrom vocabulary limit room hops = u.compileFrom vocabulary limit room (hops + n) := by
  induction h generalizing hops with
  | here => rfl
  | through unmapped rest ih =>
    rw [compileFrom_transparent (by omega) unmapped]
    exact (ih (by omega)).trans (by rw [Nat.add_right_comm, Nat.add_assoc])

theorem StartsLongRow.compileFrom_eq (h : StartsLongRow vocabulary t) :
    ∃ rule, t.compileFrom vocabulary limit room 0 =
      .error (.passThroughTooDeep rule maxPassThrough) := by
  obtain ⟨n, u, many, row⟩ := h
  rw [← Nat.add_sub_cancel' many] at row
  obtain ⟨v, row, _⟩ := row.split
  refine ⟨v.name, ?_⟩
  rw [row.compileFrom_eq (by omega), compileFrom_of_many (by omega)]

/-- Compiling trees one after the other fails with the first of them that does not compile. -/
theorem compileAll_eq_error :
    compileAll vocabulary limit room ts = .error e ↔
      ∃ before p behind es, ts = before ++ p :: behind ∧
        compileAll vocabulary limit room before = .ok es ∧
        (descend limit room fun room => p.compileFrom vocabulary limit room 0) = .error e := by
  induction ts with
  | nil =>
    constructor
    · intro h
      cases h
    · rintro ⟨before, _, _, _, split, _⟩
      simp at split
  | cons t ts ih =>
    rw [compileAll, bind_eq_error]
    simp only [bind_eq_error, ih]
    constructor
    · rintro (first | ⟨d, first, ⟨before, p, behind, es, rfl, done, failed⟩ | ⟨_, _, other⟩⟩)
      · exact ⟨[], t, ts, [], rfl, rfl, first⟩
      · refine ⟨t :: before, p, behind, d :: es, rfl, ?_, failed⟩
        rw [compileAll, first, ok_bind, done]
        rfl
      · cases other
    · rintro ⟨before, p, behind, es, split, done, failed⟩
      cases before with
      | nil =>
        cases split
        exact .inl failed
      | cons first before =>
        cases split
        rw [compileAll] at done
        obtain ⟨d, compiled, done⟩ := bind_eq_ok.1 done
        obtain ⟨es, done, _⟩ := bind_eq_ok.1 done
        exact .inr ⟨d, compiled, .inl ⟨before, p, behind, es, rfl, done, failed⟩⟩

theorem Compiles.eq_error (h : Compiles vocabulary limit room t u)
    (long : StartsLongRow vocabulary u) :
    ∃ rule, (descend limit room fun room => t.compileFrom vocabulary limit room 0) =
      .error (.passThroughTooDeep rule maxPassThrough) := by
  induction h with
  | root => exact long.compileFrom_eq
  | @part room n t u p name children before behind c es row few mapped fits done _ ih =>
    obtain ⟨rule, failed⟩ := ih long
    refine ⟨rule, ?_⟩
    have parts := compileAll_eq_error.2 ⟨before, p, behind, es, rfl, done, failed⟩
    have top : t.compileFrom vocabulary limit room 0 =
        .error (.passThroughTooDeep rule maxPassThrough) := by
      rw [row.compileFrom_eq (by omega), compileFrom_construct (by omega) mapped, fits]
      dsimp only
      rw [parts]
      rfl
    exact top

theorem compileTerminal_not_isPassThrough {kind text : String} {span : Span} {c : Construct}
    (h : compileTerminal kind text span c = .error e) : e.isPassThrough = false := by
  unfold compileTerminal invalid at h
  split at h
  · split at h <;> cases h
    rfl
  · split at h <;> cases h
    rfl
  · split at h
    · cases h
    · split at h <;> cases h
      rfl
  all_goals
    cases h
    rfl

/-- What is found below a tree `hops` transparent rules down: a row that is too long together with
these, or a part of a construct from which compiling comes to one. -/
def FindsLongRow (vocabulary : Vocabulary) (limit room hops : Nat) (t : Tree) : Prop :=
  (∃ u, Row vocabulary (maxPassThrough + 1 - hops) t u) ∨
    ∃ n name children c before p behind es u, Row vocabulary n t (.rule name children) ∧
      hops + n ≤ maxPassThrough ∧ vocabulary.get? name = some c ∧
      c.parts children = .ok (before ++ p :: behind) ∧
      compileAll vocabulary limit room before = .ok es ∧
      Compiles vocabulary limit room p u ∧ StartsLongRow vocabulary u

theorem FindsLongRow.through {name : String} {only : Tree} (few : hops ≤ maxPassThrough)
    (unmapped : vocabulary.get? name = none)
    (h : FindsLongRow vocabulary limit room (hops + 1) only) :
    FindsLongRow vocabulary limit room hops (.rule name [only]) := by
  rcases h with ⟨u, row⟩ | ⟨n, name, children, c, before, p, behind, es, u, row, fewer, found⟩
  · refine .inl ⟨u, ?_⟩
    have longer : maxPassThrough + 1 - hops = maxPassThrough + 1 - (hops + 1) + 1 := by omega
    rw [longer]
    exact .through unmapped row
  · exact .inr ⟨n + 1, name, children, c, before, p, behind, es, u, .through unmapped row,
      by omega, found⟩

theorem FindsLongRow.exists_compiles (h : FindsLongRow vocabulary limit room 0 t) :
    ∃ u, Compiles vocabulary limit (room + 1) t u ∧ StartsLongRow vocabulary u := by
  rcases h with ⟨u, row⟩ |
    ⟨n, name, children, c, before, p, behind, es, u, row, few, mapped, fits, done, below, long⟩
  · exact ⟨t, .root, _, u, Nat.lt_succ_self _, row⟩
  · exact ⟨u, .part row (by omega) mapped fits done below, long⟩

theorem findsLongRow (t : Tree) (few : hops ≤ maxPassThrough)
    (failed : t.compileFrom vocabulary limit room hops = .error e) (long : e.isPassThrough) :
    FindsLongRow vocabulary limit room hops t := by
  induction t using Tree.induction generalizing room hops with
  | terminal kind text span =>
    rw [compileFrom_terminal few] at failed
    split at failed
    · cases failed
      cases long
    · rw [compileTerminal_not_isPassThrough failed] at long
      cases long
  | rule name children ih =>
    cases mapped : vocabulary.get? name with
    | none =>
      rw [compileFrom_transparent few mapped] at failed
      split at failed
      next only =>
        refine .through few mapped ?_
        rcases Nat.lt_or_ge maxPassThrough (hops + 1) with many | few
        · have none : maxPassThrough + 1 - (hops + 1) = 0 := by omega
          rw [FindsLongRow, none]
          exact .inl ⟨only, .here⟩
        · exact ih only (List.mem_singleton.2 rfl) few failed
      next =>
        cases failed
        cases long
    | some c =>
      rw [compileFrom_construct few mapped] at failed
      cases fits : c.parts children with
      | error misfit =>
        rw [fits] at failed
        cases failed
        cases long
      | ok ts =>
        rw [fits] at failed
        obtain failed | ⟨_, _, other⟩ := bind_eq_error.1 failed
        · obtain ⟨before, p, behind, es, rfl, done, failed⟩ := compileAll_eq_error.1 failed
          cases room with
          | zero =>
            cases failed
            cases long
          | succ room =>
            have mem : p ∈ children := Construct.mem_of_mem_parts fits p (by simp)
            obtain ⟨u, below, longer⟩ := (ih p mem (Nat.zero_le _) failed).exists_compiles
            exact .inr ⟨0, name, children, c, before, p, behind, es, u, .here, few, mapped, fits,
              done, below, longer⟩
        · cases other

end

end Tree

open Reckon.Tree

/-- A transparent rule around a node that is compiled changes nothing, unless it makes a row of
transparent rules too long. Compiling is refused for such a row exactly when it comes to a node with
more than `maxPassThrough` transparent rules down from it. -/
theorem pass_through_invisible (vocabulary : Vocabulary) (limit : Nat) :
    (∀ (context : Context) (t : Tree) (w : String), vocabulary.get? w = none →
      (∀ f ∈ context.getLast?, ¬f.IsName vocabulary) →
      (context.fill (.rule w [t])).compile vocabulary limit =
        (context.fill t).compile vocabulary limit ∨
      ∃ rule n, (context.fill (.rule w [t])).compile vocabulary limit =
        .error (.passThroughTooDeep rule n)) ∧
    ∀ t : Tree, (∃ rule n, t.compile vocabulary limit = .error (.passThroughTooDeep rule n)) ↔
      ∃ u, Compiles vocabulary limit limit t u ∧ StartsLongRow vocabulary u := by
  constructor
  · intro context t w unmapped compiled
    have same : SameUnless CompileError.isPassThrough
        ((context.fill (.rule w [t])).compile vocabulary limit)
        ((context.fill t).compile vocabulary limit) :=
      descend_standsFor fun room => (context.wrap_standsFor unmapped compiled t).compiles room 0
    generalize (context.fill (.rule w [t])).compile vocabulary limit = x at same ⊢
    cases same with
    | same => exact .inl rfl
    | @deep e y long =>
      cases e with
      | passThroughTooDeep rule n => exact .inr ⟨rule, n, rfl⟩
      | _ => cases long
  · intro t
    constructor
    · rintro ⟨rule, n, failed⟩
      cases limit with
      | zero => cases failed
      | succ room => exact (findsLongRow t (Nat.zero_le _) failed rfl).exists_compiles
    · rintro ⟨u, compiles, long⟩
      obtain ⟨rule, failed⟩ := compiles.eq_error long
      exact ⟨rule, _, failed⟩

/-- A rule around an operand, and a row of one rule too many around a number. -/
theorem pass_through_invisible_operand :
    ∃ (vocabulary : Vocabulary) (context : Context) (t long : Tree),
      vocabulary = NameMap.ofList [("neg", .unary .negate), ("num", .int)] ∧
      context = [⟨"neg", [], []⟩] ∧ t = .terminal "num" "7" .unplaced ∧
      long = Nat.repeat (fun t => .rule "wrap" [t]) 65 t ∧
      vocabulary.get? "wrap" = none ∧ (∀ f ∈ context.getLast?, ¬f.IsName vocabulary) ∧
      (context.fill t).compile vocabulary 2 = .ok (.unary .negate (.literal (.int 7))) ∧
      ((context.fill (.rule "wrap" [t])).compile vocabulary 2 =
        (context.fill t).compile vocabulary 2 ∨
      ∃ rule n, (context.fill (.rule "wrap" [t])).compile vocabulary 2 =
        .error (.passThroughTooDeep rule n)) ∧
      long.compile vocabulary 2 = .error (.passThroughTooDeep "num" 64) ∧
      ∃ u, Compiles vocabulary 2 2 long u ∧ StartsLongRow vocabulary u := by
  obtain ⟨vocabulary, context, t, long, table, frames, leaf, row, unmapped, operand, compiled,
      refused⟩ : ∃ (vocabulary : Vocabulary) (context : Context) (t long : Tree),
        vocabulary = NameMap.ofList [("neg", .unary .negate), ("num", .int)] ∧
        context = [⟨"neg", [], []⟩] ∧ t = .terminal "num" "7" .unplaced ∧
        long = Nat.repeat (fun t => .rule "wrap" [t]) 65 t ∧
        vocabulary.get? "wrap" = none ∧ vocabulary.get? "neg" = some (.unary .negate) ∧
        (context.fill t).compile vocabulary 2 = .ok (.unary .negate (.literal (.int 7))) ∧
        long.compile vocabulary 2 = .error (.passThroughTooDeep "num" 64) :=
    ⟨_, _, _, _, rfl, rfl, rfl, rfl, rfl, rfl, rfl, rfl⟩
  have notName : ∀ f ∈ context.getLast?, ¬f.IsName vocabulary := by
    subst frames
    rintro f ⟨⟩ ⟨_, c, mapped, named⟩
    obtain rfl := Option.some.inj (operand.symm.trans mapped)
    cases named
  exact ⟨vocabulary, context, t, long, table, frames, leaf, row, unmapped, notName, compiled,
    (pass_through_invisible vocabulary 2).1 context t "wrap" unmapped notName, refused,
    ((pass_through_invisible vocabulary 2).2 long).1 ⟨_, _, refused⟩⟩

end Reckon
