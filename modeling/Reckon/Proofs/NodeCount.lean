import Reckon.Proofs.Execution
import Reckon.Proofs.Programs
import Reckon.Proofs.Recognition

/-!
Nothing is lost or doubled between a source text and its program. Every token but punctuation is a
terminal or an operator; the tree has the terminals as they are and one rule for every operator; and
the expression has one node for each of these. A program has one more, for the whole.
-/

namespace Reckon

/-- The nodes that a construct makes itself, beside those of its terminals and its other parts: the
node of an assignment or a variable is that of the terminal with the name. -/
def Construct.nodes : Construct → Nat
  | .program | .unary _ | .binary _ => 1
  | .assignment | .variable | .int | .float | .bool | .group => 0

namespace Tree

mutual

/-- The terminals of a tree and the constructs in it that make a node. -/
def weight : Tree → Nat
  | .terminal _ _ _ => 1
  | .rule name parts => (Vocabulary.standard.get? name).elim 0 Construct.nodes + weightAll parts

def weightAll : List Tree → Nat
  | [] => 0
  | t :: ts => weight t + weightAll ts

end

theorem weightAll_append (ts us : List Tree) :
    weightAll (ts ++ us) = weightAll ts + weightAll us := by
  induction ts with
  | nil => rw [List.nil_append, weightAll, Nat.zero_add]
  | cons t ts ih => rw [List.cons_append, weightAll, weightAll, ih, Nat.add_assoc]

end Tree

namespace Grammar

/-- The tokens that only separate or group others. -/
def punctuation : List TokenKind :=
  [.newline, .leftParen, .rightParen, .leftBracket, .rightBracket, .assign]

/-- How many of the tokens are no punctuation. -/
def counted (ts : List Token) : Nat := ts.countP fun t => t.kind ∉ punctuation

/-- The operators among the silent tokens of a form, if all its matches have the same number. -/
def Form.operators? : Form → Option Nat
  | .nothing | .terminal _ => some 0
  | .rule r => if r = .block then none else some 0
  | .silent k => some (if k ∈ punctuation then 0 else 1)
  | .seq first second => do return (← first.operators?) + (← second.operators?)
  | .choice left right => if left.operators? = right.operators? then left.operators? else none
  | .many form => if form.operators? = some 0 then some 0 else none

section
variable {r : Rule} {f : Form} {ts us : List Token} {xs : List Tree} {t : Tree}

theorem counted_append : counted (ts ++ us) = counted ts + counted us :=
  List.countP_append

theorem weight_node (r : Rule) (parts : List Tree) :
    (r.node parts).weight = r.construct?.elim 0 Construct.nodes + Tree.weightAll parts := by
  rw [Rule.node, Tree.weight, standard_get?_rule]

theorem weight_leaf (k : Terminal) (text : String) (span : Span) :
    (k.leaf text span).weight = 1 := by
  rw [Terminal.leaf, Tree.weight]

/-- A rule makes a node exactly if an operator stands in it; only the node of a block comes from no
token. -/
theorem Rule.operators?_body (h : r ≠ .block) :
    r.body.operators? = some (r.construct?.elim 0 Construct.nodes) := by
  cases r with
  | block => exact absurd rfl h
  | relation op => cases op <;> rfl
  | _ => rfl

theorem Form.operators?_many {n : Nat} (operators : (Form.many f).operators? = some n) :
    f.operators? = some 0 ∧ n = 0 := by
  simp only [Form.operators?] at operators
  split at operators
  next none => exact ⟨none, (Option.some.inj operators).symm⟩
  next => cases operators

theorem Matches.counted_eq {n : Nat} (h : Matches f ts xs) (operators : f.operators? = some n) :
    counted ts = Tree.weightAll xs + n := by
  induction h generalizing n with
  | nothing =>
    cases operators
    rfl
  | @rule r ts parts _ ih =>
    simp only [Form.operators?] at operators
    split at operators
    next => cases operators
    next inner =>
      cases operators
      rw [ih (Rule.operators?_body inner), Tree.weightAll, Tree.weightAll, weight_node]
      omega
  | @terminal k t kind =>
    cases operators
    have shown : k.kind ∉ punctuation := by cases k <;> decide
    rw [Tree.weightAll, Tree.weightAll, weight_leaf]
    simp [counted, kind, shown]
  | @silent k t kind =>
    cases operators
    rw [Tree.weightAll]
    by_cases separates : k ∈ punctuation <;> simp [counted, kind, separates]
  | @seq a b ts us xs ys _ _ iha ihb =>
    cases ha : a.operators? <;> cases hb : b.operators? <;>
      simp [Form.operators?, ha, hb] at operators
    rw [counted_append, Tree.weightAll_append, iha ha, ihb hb, ← operators]
    omega
  | left _ ih =>
    simp only [Form.operators?] at operators
    split at operators
    · exact ih operators
    · cases operators
  | right _ ih =>
    simp only [Form.operators?] at operators
    split at operators
    next same => exact ih (same ▸ operators)
    next => cases operators
  | done =>
    obtain ⟨_, rfl⟩ := Form.operators?_many operators
    rfl
  | more _ _ ih₁ ih₂ =>
    obtain ⟨once, rfl⟩ := Form.operators?_many operators
    rw [counted_append, Tree.weightAll_append, ih₁ once, ih₂ operators]
    omega

/-- Every counted token of a derivation is a terminal or an operator of its tree. -/
theorem Derives.weight_eq (h : Derives r ts t) :
    t.weight = (if r = .block then 1 else 0) + counted ts := by
  obtain ⟨parts, body, rfl⟩ := derives_iff.1 h
  rw [weight_node]
  by_cases block : r = .block
  · subst block
    have operators : Rule.block.body.operators? = some 0 := rfl
    rw [body.counted_eq operators]
    rfl
  · rw [body.counted_eq (Rule.operators?_body block), if_neg block]
    omega

theorem sizeAll_eq_of_forall₂ {es : List Expr}
    (h : List.Forall₂ (fun t e => e.size = t.weight) xs es) :
    Expr.sizeAll es = Tree.weightAll xs := by
  induction h with
  | nil => rfl
  | cons head _ ih => rw [Expr.sizeAll, Tree.weightAll, head, ih]

/-- Compiling makes one node for every terminal and every construct that has one. -/
theorem Derives.size_eq {limit room hops : Nat} {e : Expr} (h : Derives r ts t)
    (few : hops ≤ r.rung) (compiled : compileAt limit room hops t = .ok e) : e.size = t.weight := by
  refine h.program_induction (P := fun _ t e => e.size = t.weight)
    ?transparent ?literal ?group ?unary ?binary ?indexed ?assigned ?block few compiled
  case transparent =>
    intro r s parts e through _ ih
    rw [weight_node r, through, Tree.weightAll, Tree.weightAll, ih]
    exact (Nat.zero_add _).symm
  case literal =>
    intro k text span c l _ _
    rw [weight_node, Tree.weightAll, Tree.weightAll, weight_leaf]
    rfl
  case group =>
    intro t e ih
    rw [weight_node, Tree.weightAll, Tree.weightAll, ih]
    exact (Nat.zero_add _).symm
  case unary =>
    intro r k s op t e _ construct ih
    rw [weight_node, construct, Tree.weightAll, Tree.weightAll, Expr.size, ih]
    rfl
  case binary =>
    intro r left k right op t u d e _ construct iht ihu
    rw [weight_node, construct, Tree.weightAll, Tree.weightAll, Tree.weightAll, Expr.size, iht, ihu,
      Nat.add_assoc]
    rfl
  case indexed =>
    intro text span indices es ih
    rw [weight_node, Tree.weightAll, weight_leaf, Expr.size, sizeAll_eq_of_forall₂ ih]
    exact (Nat.zero_add _).symm
  case assigned =>
    intro text span t e ih
    rw [weight_node, Tree.weightAll, Tree.weightAll, Tree.weightAll, weight_leaf, Expr.size, ih]
    exact (Nat.zero_add _).symm
  case block =>
    intro lines es ih
    rw [weight_node, Expr.size, sizeAll_eq_of_forall₂ ih]
    rfl

end

end Grammar

open Grammar

theorem Expr.count_of_compile {source : String} {start : Start} {depth limit : Nat} {t : Tree}
    {e : Expr} (read : parse source start depth = .ok t)
    (compiled : t.compile .standard limit = .ok e) :
    ∃ toks, Token.scan source = .ok toks ∧
      e.count = (if start = .program then 1 else 0) + counted toks := by
  obtain ⟨toks, scanned, derived, _⟩ := parse_eq_ok_iff.1 read
  obtain ⟨room, _, compiled⟩ := Tree.descend_eq_ok.1 compiled
  refine ⟨toks, scanned, ?_⟩
  rw [count_eq_size, derived.size_eq (Nat.zero_le _) compiled, derived.weight_eq]
  cases start <;> rfl

/-- No operator and no operand is lost or doubled on the way from the source to the program: there
is one node for every token that is no punctuation, and one more for a program of lines. The node
count that comes with the outcome of a run is that number. -/
theorem node_count_eq_counted (source : String) (start : Start) :
    (∀ (depth limit : Nat) (t : Tree) (e : Expr), parse source start depth = .ok t →
      t.compile .standard limit = .ok e →
      ∃ toks, Token.scan source = .ok toks ∧
        e.count = (if start = .program then 1 else 0) + counted toks) ∧
    ∀ (limit : Nat) (o : Outcome), execute start limit source = .ok o →
      ∃ toks, Token.scan source = .ok toks ∧
        o.nodes = (if start = .program then 1 else 0) + counted toks := by
  refine ⟨fun _ _ _ _ read compiled => Expr.count_of_compile read compiled, ?_⟩
  intro limit o executed
  obtain ⟨t, e, read, compiled, _, nodes⟩ := execute_eq_ok_iff.1 executed
  rw [nodes]
  exact Expr.count_of_compile read compiled

/-- An index, parentheses, an assignment and an empty line among eight tokens that count. -/
theorem node_count_eq_counted_lines :
    ∃ t e, parse "x = -a[1] + (2)\n\nnot x" .program 10 = .ok t ∧
      t.compile .standard 10 = .ok e ∧ e.count = 9 := by
  obtain ⟨t, e, read, compiled⟩ : ∃ t e,
      parse "x = -a[1] + (2)\n\nnot x" .program 10 = .ok t ∧ t.compile .standard 10 = .ok e :=
    ⟨_, _, rfl, rfl⟩
  obtain ⟨toks, scanned, count⟩ :=
    (node_count_eq_counted "x = -a[1] + (2)\n\nnot x" .program).1 10 10 t e read compiled
  cases scanned
  exact ⟨t, e, read, compiled, count⟩

end Reckon
