import Mathlib.Data.List.Forall2
import Reckon.Compile
import Reckon.Proofs.Nesting
import Reckon.Proofs.Sequence

/-!
Compiling in three cases. A terminal is a literal or refused, a transparent rule stands for its only
part, and every construct compiles some of its children, one after the other, and puts the
expressions together. Which children these are and what is made of them is all that constructs
differ in.
-/

namespace Reckon
namespace Construct

/-- The children of a rule that are compiled, if the children fit the construct. -/
def parts : Construct → List Tree → Except Misfit (List Tree)
  | .program, children => .ok children
  | .assignment, [.terminal _ _ _, value] => .ok [value]
  | .assignment, _ => .error .assignmentParts
  | .variable, .terminal _ _ _ :: indices => .ok indices
  | .variable, _ => .error .variableParts
  | .group, [inner] => .ok [inner]
  | .group, _ => .error .onePart
  | .unary _, [operand] => .ok [operand]
  | .unary _, _ => .error .oneOperand
  | .binary _, [left, right] => .ok [left, right]
  | .binary _, _ => .error .twoOperands
  | .int, _ | .float, _ | .bool, _ => .error .terminalExpected

/-- The expression for a rule with these children whose parts have these expressions; where they are
not as many as the construct asks for, the expressions one after the other. -/
def assemble : Construct → List Tree → List Expr → Expr
  | .assignment, .terminal _ target _ :: _, [value] => .assign target value
  | .variable, .terminal _ name _ :: _, indices => .variable name indices
  | .group, _, [inner] => inner
  | .unary op, _, [operand] => .unary op operand
  | .binary op, _, [left, right] => .binary op left right
  | _, _, es => .program es

variable {c : Construct} {children ts : List Tree}

theorem mem_of_mem_parts (h : c.parts children = .ok ts) : ∀ t ∈ ts, t ∈ children := by
  unfold parts at h
  split at h <;> cases h
  case h_4 =>
    intro t mem
    exact List.mem_cons_of_mem _ mem
  all_goals simp

/-- A construct adds at most one level to its parts. -/
theorem depth_assemble_le (es : List Expr) :
    (c.assemble children es).depth ≤ Expr.depthAll es + 1 := by
  unfold assemble
  split <;> simp [Expr.depth, Expr.depthAll]

/-- Of the first child only the text counts, as a name. -/
def isNamed : Construct → Bool
  | .assignment | .variable => true
  | _ => false

/-- The text of the first child, if that is a terminal. -/
def headText? (children : List Tree) : Option String := children.head?.bind Tree.text?

section
variable {R : Tree → Tree → Prop} {cs ds : List Tree}

theorem assemble_congr (named : c.isNamed → headText? cs = headText? ds) (es : List Expr) :
    c.assemble cs es = c.assemble ds es := by
  cases c with
  | program | int | float | bool => rfl
  | group | unary _ => rcases es with _ | ⟨_, _ | _⟩ <;> rfl
  | binary _ => rcases es with _ | ⟨_, _ | ⟨_, _ | _⟩⟩ <;> rfl
  | assignment | «variable» =>
    have same := named rfl
    rcases cs with _ | ⟨_ | _, _⟩ <;> rcases ds with _ | ⟨_ | _, _⟩ <;>
      simp only [headText?, List.head?_nil, List.head?_cons, Option.bind_none, Option.bind_some,
        Tree.text?, Option.some.injEq, reduceCtorEq] at same <;>
      rcases es with _ | ⟨_, _ | _⟩ <;> simp [assemble, same]

/-- Children that correspond to each other fit a construct alike, and their parts correspond. -/
theorem parts_congr (related : List.Forall₂ R cs ds)
    (named : c.isNamed → headText? cs = headText? ds) :
    (∃ misfit, c.parts cs = .error misfit ∧ c.parts ds = .error misfit) ∨
      ∃ ts us, c.parts cs = .ok ts ∧ c.parts ds = .ok us ∧ List.Forall₂ R ts us := by
  cases c with
  | program => exact .inr ⟨cs, ds, rfl, rfl, related⟩
  | int | float | bool => exact .inl ⟨_, rfl, rfl⟩
  | group | unary _ =>
    match related with
    | .nil | .cons _ (.cons _ _) => exact .inl ⟨_, rfl, rfl⟩
    | .cons only .nil => exact .inr ⟨_, _, rfl, rfl, .cons only .nil⟩
  | binary _ =>
    match related with
    | .nil | .cons _ .nil | .cons _ (.cons _ (.cons _ _)) => exact .inl ⟨_, rfl, rfl⟩
    | .cons first (.cons second .nil) =>
      exact .inr ⟨_, _, rfl, rfl, .cons first (.cons second .nil)⟩
  | assignment =>
    have same := named rfl
    match related with
    | .nil => exact .inl ⟨_, rfl, rfl⟩
    | .cons (a := .rule _ _) (b := .rule _ _) _ _ => exact .inl ⟨_, rfl, rfl⟩
    | .cons (a := .rule _ _) (b := .terminal _ _ _) _ _
    | .cons (a := .terminal _ _ _) (b := .rule _ _) _ _ => cases same
    | .cons (a := .terminal _ _ _) (b := .terminal _ _ _) _ .nil
    | .cons (a := .terminal _ _ _) (b := .terminal _ _ _) _ (.cons _ (.cons _ _)) =>
      exact .inl ⟨_, rfl, rfl⟩
    | .cons (a := .terminal _ _ _) (b := .terminal _ _ _) _ (.cons value .nil) =>
      exact .inr ⟨_, _, rfl, rfl, .cons value .nil⟩
  | «variable» =>
    have same := named rfl
    match related with
    | .nil => exact .inl ⟨_, rfl, rfl⟩
    | .cons (a := .rule _ _) (b := .rule _ _) _ _ => exact .inl ⟨_, rfl, rfl⟩
    | .cons (a := .rule _ _) (b := .terminal _ _ _) _ _
    | .cons (a := .terminal _ _ _) (b := .rule _ _) _ _ => cases same
    | .cons (a := .terminal _ _ _) (b := .terminal _ _ _) _ indices =>
      exact .inr ⟨_, _, rfl, rfl, indices⟩

end

end Construct

namespace Tree

variable {vocabulary : Vocabulary} {limit room hops : Nat} {name : String} {children : List Tree}

/-- After too many transparent rules nothing is looked at. -/
theorem compileFrom_of_many (many : maxPassThrough < hops) (t : Tree) :
    compileFrom vocabulary limit room hops t =
      .error (.passThroughTooDeep t.name maxPassThrough) := by
  cases t with
  | terminal kind text span => rw [compileFrom, if_pos many, Tree.name]
  | rule name children =>
    rw [compileFrom.eq_def]
    dsimp only
    rw [if_pos many, Tree.name]

theorem few_of_compileFrom {t : Tree} {e : Expr}
    (h : t.compileFrom vocabulary limit room hops = .ok e) : hops ≤ maxPassThrough := by
  rcases Nat.lt_or_ge maxPassThrough hops with many | few
  · rw [compileFrom_of_many many] at h
    cases h
  · exact few

theorem compileFrom_terminal {kind text : String} {span : Span} (few : hops ≤ maxPassThrough) :
    compileFrom vocabulary limit room hops (.terminal kind text span) =
      match vocabulary.get? kind with
      | none => .error (.unmappedTerminal kind span)
      | some construct => compileTerminal kind text span construct := by
  rw [compileFrom]
  exact if_neg (Nat.not_lt.2 few)

/-- A terminal compiles to a literal, if it compiles. -/
theorem exists_literal_of_compileTerminal {kind text : String} {span : Span} {c : Construct}
    {e : Expr} (h : compileTerminal kind text span c = .ok e) : ∃ l, e = .literal l := by
  unfold compileTerminal invalid at h
  split at h
  · split at h <;> cases h
    exact ⟨_, rfl⟩
  · split at h <;> cases h
    exact ⟨_, rfl⟩
  · split at h
    · cases h
      exact ⟨_, rfl⟩
    · split at h <;> cases h
      exact ⟨_, rfl⟩
  all_goals cases h

theorem compileFrom_transparent (few : hops ≤ maxPassThrough)
    (unmapped : vocabulary.get? name = none) :
    compileFrom vocabulary limit room hops (.rule name children) =
      match children with
      | [only] => compileFrom vocabulary limit room (hops + 1) only
      | children => .error (.ambiguousPassThrough name children.length (spanAll? children)) := by
  rw [compileFrom.eq_def]
  dsimp only
  rw [if_neg (Nat.not_lt.2 few)]
  generalize vocabulary.get? name = found at unmapped
  subst unmapped
  rfl

theorem compileAll_single {t : Tree} :
    compileAll vocabulary limit room [t] = do
      return [← descend limit room fun room => compileFrom vocabulary limit room 0 t] := by
  rw [compileAll, compileAll]
  rfl

theorem compileFrom_construct {c : Construct} (few : hops ≤ maxPassThrough)
    (mapped : vocabulary.get? name = some c) :
    compileFrom vocabulary limit room hops (.rule name children) =
      match c.parts children with
      | .ok ts => do return c.assemble children (← compileAll vocabulary limit room ts)
      | .error misfit => malformed name children misfit := by
  rw [compileFrom.eq_def]
  dsimp only
  rw [if_neg (Nat.not_lt.2 few), mapped]
  cases c with
  | program => rfl
  | assignment =>
    match children with
    | [.terminal _ _ _, value] =>
      simp only [Construct.parts, Construct.assemble, compileAll_single, bind_assoc, pure_bind]
    | [] | [.terminal _ _ _] | .terminal _ _ _ :: _ :: _ :: _ | .rule _ _ :: _ => rfl
  | «variable» =>
    match children with
    | .terminal _ _ _ :: indices => rfl
    | [] | .rule _ _ :: _ => rfl
  | group =>
    match children with
    | [inner] =>
      simp only [Construct.parts, Construct.assemble, compileAll_single, bind_assoc, pure_bind,
        bind_pure]
    | [] | _ :: _ :: _ => rfl
  | unary op =>
    match children with
    | [operand] =>
      simp only [Construct.parts, Construct.assemble, compileAll_single, bind_assoc, pure_bind]
    | [] | _ :: _ :: _ => rfl
  | binary op =>
    match children with
    | [left, right] =>
      simp only [Construct.parts]
      rw [compileAll, compileAll_single]
      simp only [Construct.assemble, bind_assoc, pure_bind]
    | [] | [_] | _ :: _ :: _ :: _ => rfl
  | int | float | bool => rfl

end Tree

end Reckon
