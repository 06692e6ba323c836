import Mathlib.Logic.Function.Defs
import Reckon.Proofs.Constructs

/-!
Names mean nothing by themselves. When every name in a tree and every name in the vocabulary is
replaced by another one, different names by different ones, the tree compiles to the same
expression, or it is refused for the same reason with the name in the error replaced as well.
-/

namespace Reckon

namespace NameMap

variable {α : Type} {r : String → String}

/-- The map with every name replaced. -/
def mapNames (r : String → String) (m : NameMap α) : NameMap α :=
  ofList (m.toList.map fun entry => (r entry.1, entry.2))

theorem get?_insertMany_mapNames (injective : Function.Injective r) {m n : NameMap α}
    {name : String} (h : n.get? (r name) = m.get? name) (entries : List (String × α)) :
    (n.insertMany (entries.map fun entry => (r entry.1, entry.2))).get? (r name) =
      (m.insertMany entries).get? name := by
  induction entries generalizing m n with
  | nil => exact h
  | cons entry entries ih =>
    have head : (n.insert (r entry.1) entry.2).get? (r name) =
        (m.insert entry.1 entry.2).get? name := by
      simp only [get?_insert, injective.eq_iff, h]
    exact ih head

theorem get?_mapNames (injective : Function.Injective r) (m : NameMap α) (name : String) :
    (m.mapNames r).get? (r name) = m.get? name := by
  have same : (empty : NameMap α).get? (r name) = (empty : NameMap α).get? name := rfl
  rw [mapNames, ofList, get?_insertMany_mapNames injective same, ← ofList, ofList_toList]

end NameMap

/-- The error with the name of a rule or the kind of a terminal in it replaced. -/
def CompileError.rename (r : String → String) : CompileError → CompileError
  | .unmappedTerminal kind span => .unmappedTerminal (r kind) span
  | .ambiguousPassThrough rule children span => .ambiguousPassThrough (r rule) children span
  | .passThroughTooDeep rule limit => .passThroughTooDeep (r rule) limit
  | .malformedNode rule misfit span => .malformedNode (r rule) misfit span
  | .invalidLiteral kind text span => .invalidLiteral kind text span
  | .depthExceeded limit => .depthExceeded limit

namespace Tree

mutual

/-- The tree with the names of all rules and the kinds of all terminals replaced. -/
def rename (r : String → String) : Tree → Tree
  | .terminal kind text span => .terminal (r kind) text span
  | .rule name children => .rule (r name) (renameAll r children)

def renameAll (r : String → String) : List Tree → List Tree
  | [] => []
  | t :: ts => rename r t :: renameAll r ts

end

section
variable {r : String → String} {vocabulary : Vocabulary} {limit room hops : Nat} {t u : Tree}
  {ts us : List Tree}

theorem renameAll_eq_map (ts : List Tree) : renameAll r ts = ts.map (rename r) := by
  induction ts with
  | nil => rw [renameAll, List.map_nil]
  | cons t ts ih => rw [renameAll, ih, List.map_cons]

theorem rename_terminal (kind text : String) (span : Span) :
    (terminal kind text span).rename r = .terminal (r kind) text span := by
  rw [rename]

theorem rename_rule (name : String) (children : List Tree) :
    (rule name children).rename r = .rule (r name) (children.map (rename r)) := by
  rw [rename, renameAll_eq_map]

theorem name_rename (t : Tree) : (t.rename r).name = r t.name := by
  cases t with
  | terminal kind text span => rw [rename_terminal, name, name]
  | rule name children => rw [rename_rule, Tree.name, Tree.name]

theorem text?_rename (t : Tree) : (t.rename r).text? = t.text? := by
  cases t with
  | terminal kind text span => rw [rename_terminal, text?, text?]
  | rule name children => rw [rename_rule, text?, text?]

theorem spanAll?_rename (h : ∀ t ∈ ts, (t.rename r).span? = t.span?) :
    spanAll? (ts.map (rename r)) = spanAll? ts := by
  induction ts with
  | nil => rfl
  | cons t ts ih =>
    obtain ⟨head, tail⟩ := List.forall_mem_cons.1 h
    rw [List.map_cons, spanAll?, spanAll?, head, ih tail]

theorem span?_rename (t : Tree) : (t.rename r).span? = t.span? := by
  induction t using Tree.induction with
  | terminal kind text span => rw [rename_terminal, span?, span?]
  | rule name children ih => rw [rename_rule, span?, span?, spanAll?_rename ih]

theorem malformed_rename (name : String) (children : List Tree) (misfit : Misfit) :
    malformed (r name) (children.map (rename r)) misfit =
      (malformed name children misfit).mapError (.rename r) := by
  rw [malformed, malformed, spanAll?_rename fun t _ => t.span?_rename]
  rfl

theorem ambiguous_rename (name : String) (children : List Tree) :
    (.error (.ambiguousPassThrough (r name) (children.map (rename r)).length
      (spanAll? (children.map (rename r)))) : Except CompileError Expr) =
      (Except.error (.ambiguousPassThrough name children.length (spanAll? children))).mapError
        (.rename r) := by
  rw [spanAll?_rename fun t _ => t.span?_rename, List.length_map]
  rfl

theorem compileTerminal_rename (kind text : String) (span : Span) (c : Construct) :
    compileTerminal (r kind) text span c =
      (compileTerminal kind text span c).mapError (.rename r) := by
  cases c with
  | int | float =>
    rw [compileTerminal, compileTerminal]
    split <;> rfl
  | bool =>
    rw [compileTerminal, compileTerminal]
    split
    · rfl
    · split <;> rfl
  | _ => rfl

theorem mapError_descend (k : Nat → Except CompileError Expr) :
    (descend limit room k).mapError (.rename r) =
      descend limit room fun room => (k room).mapError (.rename r) := by
  cases room <;> rfl

/-- What stands for `t` compiles with the other vocabulary as `t` does with its own. -/
def Renames (r : String → String) (vocabulary : Vocabulary) (limit : Nat) (t u : Tree) : Prop :=
  ∀ room hops, u.compileFrom (vocabulary.mapNames r) limit room hops =
    (t.compileFrom vocabulary limit room hops).mapError (.rename r)

theorem compileAll_rename (h : List.Forall₂ (Renames r vocabulary limit) ts us) :
    compileAll (vocabulary.mapNames r) limit room us =
      (compileAll vocabulary limit room ts).mapError (.rename r) := by
  induction h with
  | nil =>
    rw [compileAll, compileAll]
    rfl
  | cons head _ ih =>
    rw [compileAll, compileAll, ih, funext fun room => head room 0]
    simp only [mapError_bind, mapError_descend]
    rfl

/-- The children of a rule that is renamed correspond, and a name in front keeps its text. -/
theorem headText?_rename (children : List Tree) :
    Construct.headText? children = Construct.headText? (children.map (rename r)) := by
  cases children with
  | nil => rfl
  | cons t ts => exact t.text?_rename.symm

theorem renames (injective : Function.Injective r) (t : Tree) :
    Renames r vocabulary limit t (t.rename r) := by
  induction t using Tree.induction with
  | terminal kind text span =>
    intro room hops
    rw [rename_terminal]
    rcases Nat.lt_or_ge maxPassThrough hops with many | few
    · rw [compileFrom_of_many many, compileFrom_of_many many]
      rfl
    rw [compileFrom_terminal few, compileFrom_terminal few, NameMap.get?_mapNames injective]
    cases vocabulary.get? kind with
    | none => rfl
    | some c => exact compileTerminal_rename kind text span c
  | rule name children ih =>
    intro room hops
    rcases Nat.lt_or_ge maxPassThrough hops with many | few
    · rw [compileFrom_of_many many, compileFrom_of_many many, name_rename]
      rfl
    have mapped' := NameMap.get?_mapNames injective vocabulary name
    rw [rename_rule]
    cases mapped : vocabulary.get? name with
    | none =>
      rw [mapped] at mapped'
      rw [compileFrom_transparent few mapped, compileFrom_transparent few mapped']
      match children with
      | [only] => exact ih only (List.mem_singleton.2 rfl) room (hops + 1)
      | [] => rfl
      | first :: second :: others => exact ambiguous_rename name (first :: second :: others)
    | some c =>
      rw [mapped] at mapped'
      rw [compileFrom_construct few mapped, compileFrom_construct few mapped']
      have related : List.Forall₂ (Renames r vocabulary limit) children
          (children.map (rename r)) :=
        List.forall₂_map_right_iff.2 (List.forall₂_same.2 ih)
      rcases Construct.parts_congr related fun _ => headText?_rename children with
        ⟨misfit, fits, fits'⟩ | ⟨ts, us, fits, fits', parts⟩
      · rw [fits, fits']
        exact malformed_rename name children misfit
      · rw [fits, fits']
        dsimp only
        have same : c.assemble (children.map (rename r)) = c.assemble children :=
          funext (Construct.assemble_congr fun _ => (headText?_rename children).symm)
        rw [compileAll_rename parts, mapError_bind, same]
        rfl

end

end Tree

/-- A tree whose names are all replaced, different names by different ones, compiles against the
vocabulary with the same names replaced to the same expression, and otherwise it is refused with the
same error, in which only the name is replaced. -/
theorem compile_rename (r : String → String) (injective : Function.Injective r)
    (vocabulary : Vocabulary) (limit : Nat) (t : Tree) :
    (∀ e, (t.rename r).compile (vocabulary.mapNames r) limit = .ok e ↔
      t.compile vocabulary limit = .ok e) ∧
    ∀ err, t.compile vocabulary limit = .error err →
      (t.rename r).compile (vocabulary.mapNames r) limit = .error (err.rename r) := by
  have renamed : (t.rename r).compile (vocabulary.mapNames r) limit =
      (t.compile vocabulary limit).mapError (.rename r) := by
    rw [Tree.compile, Tree.compile, Tree.mapError_descend]
    exact congrArg (Tree.descend limit limit) (funext fun room => t.renames injective room 0)
  constructor
  · intro e
    rw [renamed, mapError_eq_ok]
  · intro err failed
    rw [renamed, failed, mapError_error]

/-- The negation of a number is the same under other names. With one operand too many it is refused,
and the error has the other name. -/
theorem compile_rename_operand :
    Function.Injective ("my_" ++ ·) ∧
    ∃ vocabulary one two, vocabulary = NameMap.ofList [("neg", .unary .negate), ("num", .int)] ∧
      one = Tree.rule "neg" [.terminal "num" "7" .unplaced] ∧
      two = Tree.rule "neg" [.terminal "num" "7" .unplaced, .rule "" []] ∧
      (one.rename ("my_" ++ ·)).compile (vocabulary.mapNames ("my_" ++ ·)) 2 =
        .ok (.unary .negate (.literal (.int 7))) ∧
      (two.rename ("my_" ++ ·)).compile (vocabulary.mapNames ("my_" ++ ·)) 2 =
        .error (.malformedNode "my_neg" .oneOperand (some .unplaced)) := by
  have injective : Function.Injective ("my_" ++ ·) := fun a b same => by simpa using same
  obtain ⟨vocabulary, one, two, table, first, second, compiled, refused⟩ :
      ∃ vocabulary one two, vocabulary = NameMap.ofList [("neg", .unary .negate), ("num", .int)] ∧
        one = Tree.rule "neg" [.terminal "num" "7" .unplaced] ∧
        two = Tree.rule "neg" [.terminal "num" "7" .unplaced, .rule "" []] ∧
        one.compile vocabulary 2 = .ok (.unary .negate (.literal (.int 7))) ∧
        two.compile vocabulary 2 = .error (.malformedNode "neg" .oneOperand (some .unplaced)) :=
    ⟨_, _, _, rfl, rfl, rfl, rfl, rfl⟩
  exact ⟨injective, vocabulary, one, two, table, first, second,
    ((compile_rename ("my_" ++ ·) injective vocabulary 2 one).1 _).2 compiled,
    (compile_rename ("my_" ++ ·) injective vocabulary 2 two).2 _ refused⟩

end Reckon
