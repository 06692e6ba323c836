import Reckon.Grammar

/-!
The grammar as data. What the parts of a rule may be is a form, built from rules, terminals and
silent tokens by sequence, choice and repetition, and `Rule.body` gives every rule its form. A form
matches a row of tokens and leaves the trees of its parts, so a derivation determines both the tree
and, silent tokens included, the tokens it was read from.
-/

namespace Reckon
namespace Grammar

/-- The kind of the tokens a terminal stands for. -/
def Terminal.kind : Terminal → TokenKind
  | .int => .int
  | .signedFloat => .float
  | .true => .true
  | .false => .false
  | .varName => .name

/-- The right-hand side of a rule. -/
inductive Form where
  | nothing
  | rule (rule : Rule)
  | terminal (terminal : Terminal)
  /-- A token that leaves no trace in the tree. -/
  | silent (kind : TokenKind)
  | seq (first second : Form)
  | choice (left right : Form)
  | many (form : Form)

namespace Form

instance : Append Form := ⟨seq⟩

instance : OrOp Form := ⟨choice⟩

def optional (form : Form) : Form := nothing ||| form

/-- Any number of newlines. -/
def newlines : Form := many (silent .newline)

/-- Two operands with an operator between them. -/
def binary (left : Rule) (operator : TokenKind) (right : Rule) : Form :=
  rule left ++ silent operator ++ rule right

end Form

open Form in
/-- The grammar. Consecutive lines have at least one newline between them. -/
def Rule.body : Rule → Form
  | .block =>
    newlines ++ optional (rule .line ++ many (silent .newline ++ newlines ++ rule .line))
      ++ newlines
  | .line => rule .assignVar ||| rule .logicExpr
  | .assignVar => terminal .varName ++ silent .assign ++ rule .logicExpr
  | .logicExpr => rule .disjunction
  | .disjunction => rule .conjunction ||| rule .orOp
  | .orOp => binary .disjunction .or .conjunction
  | .conjunction => rule .negation ||| rule .andOp
  | .andOp => binary .conjunction .and .negation
  | .negation => rule .comparison ||| rule .notOp
  | .notOp => silent .not ++ rule .negation
  | .comparison =>
    rule .arithExpr ||| rule (.relation .greater) ||| rule (.relation .greaterEqual)
      ||| rule (.relation .equal) ||| rule (.relation .lessEqual) ||| rule (.relation .less)
      ||| rule (.relation .notEqual)
  | .relation op => binary .arithExpr (.relation op) .arithExpr
  | .arithExpr => rule .sum
  | .sum => rule .product ||| rule .addition ||| rule .subtraction
  | .addition => binary .sum .plus .product
  | .subtraction => binary .sum .minus .product
  | .product => rule .atom ||| rule .multiplication ||| rule .division
  | .multiplication => binary .product .star .atom
  | .division => binary .product .slash .atom
  | .atom =>
    terminal .signedFloat ||| terminal .int ||| terminal .true ||| terminal .false
      ||| rule .variable ||| rule .negAtom ||| rule .bracketed
  | .negAtom => silent .minus ++ rule .atom
  | .bracketed => silent .leftParen ++ rule .logicExpr ++ silent .rightParen
  | .variable =>
    terminal .varName ++ many (silent .leftBracket ++ rule .arithExpr ++ silent .rightBracket)

/-- The rule reading begins with. -/
def Start.rule : Start → Rule
  | .program => .block
  | .line => .line
  | .expression => .logicExpr
  | .arith => .arithExpr

/-- The tokens are of this form, and these are the trees of its parts. -/
inductive Matches : Form → List Token → List Tree → Prop where
  | nothing : Matches .nothing [] []
  | rule {r : Rule} {ts : List Token} {parts : List Tree} (body : Matches r.body ts parts) :
      Matches (.rule r) ts [r.node parts]
  | terminal {k : Terminal} {t : Token} (kind : t.kind = k.kind) :
      Matches (.terminal k) [t] [k.leaf t.text t.span]
  | silent {k : TokenKind} {t : Token} (kind : t.kind = k) : Matches (.silent k) [t] []
  | seq {a b : Form} {ts us : List Token} {xs ys : List Tree}
      (first : Matches a ts xs) (second : Matches b us ys) :
      Matches (.seq a b) (ts ++ us) (xs ++ ys)
  | left {a b : Form} {ts : List Token} {xs : List Tree} (h : Matches a ts xs) :
      Matches (.choice a b) ts xs
  | right {a b : Form} {ts : List Token} {xs : List Tree} (h : Matches b ts xs) :
      Matches (.choice a b) ts xs
  | done {a : Form} : Matches (.many a) [] []
  | more {a : Form} {ts us : List Token} {xs ys : List Tree}
      (head : Matches a ts xs) (tail : Matches (.many a) us ys) :
      Matches (.many a) (ts ++ us) (xs ++ ys)

/-- The tree is a derivation of the tokens from the rule. -/
def Derives (r : Rule) (ts : List Token) (t : Tree) : Prop := Matches (.rule r) ts [t]

section
variable {a b c : Form} {r : Rule} {ts : List Token} {xs : List Tree} {t : Tree}

@[simp] theorem matches_nothing : Matches .nothing ts xs ↔ ts = [] ∧ xs = [] := by
  constructor
  · intro h
    cases h
    exact ⟨rfl, rfl⟩
  · rintro ⟨rfl, rfl⟩
    exact .nothing

theorem derives_iff : Derives r ts t ↔ ∃ parts, Matches r.body ts parts ∧ t = r.node parts := by
  constructor
  · intro h
    cases h with
    | rule body => exact ⟨_, body, rfl⟩
  · rintro ⟨parts, body, rfl⟩
    exact .rule body

@[simp] theorem matches_rule : Matches (.rule r) ts xs ↔ ∃ t, Derives r ts t ∧ xs = [t] := by
  constructor
  · intro h
    cases h with
    | rule body => exact ⟨_, .rule body, rfl⟩
  · rintro ⟨t, h, rfl⟩
    exact h

@[simp] theorem matches_terminal {k : Terminal} :
    Matches (.terminal k) ts xs ↔
      ∃ t : Token, t.kind = k.kind ∧ ts = [t] ∧ xs = [k.leaf t.text t.span] := by
  constructor
  · intro h
    cases h with
    | terminal kind => exact ⟨_, kind, rfl, rfl⟩
  · rintro ⟨t, kind, rfl, rfl⟩
    exact .terminal kind

@[simp] theorem matches_silent {k : TokenKind} :
    Matches (.silent k) ts xs ↔ ∃ t : Token, t.kind = k ∧ ts = [t] ∧ xs = [] := by
  constructor
  · intro h
    cases h with
    | silent kind => exact ⟨_, kind, rfl, rfl⟩
  · rintro ⟨t, kind, rfl, rfl⟩
    exact .silent kind

theorem matches_append :
    Matches (a ++ b) ts xs ↔
      ∃ ts₁ ts₂ xs₁ xs₂, Matches a ts₁ xs₁ ∧ Matches b ts₂ xs₂ ∧
        ts = ts₁ ++ ts₂ ∧ xs = xs₁ ++ xs₂ := by
  constructor
  · intro h
    cases h with
    | seq first second => exact ⟨_, _, _, _, first, second, rfl, rfl⟩
  · rintro ⟨ts₁, ts₂, xs₁, xs₂, first, second, rfl, rfl⟩
    exact .seq first second

@[simp] theorem matches_append_assoc :
    Matches (a ++ b ++ c) ts xs ↔ Matches (a ++ (b ++ c)) ts xs := by
  constructor
  · intro h
    obtain ⟨_, _, _, _, ab, hc, rfl, rfl⟩ := matches_append.1 h
    obtain ⟨_, _, _, _, ha, hb, rfl, rfl⟩ := matches_append.1 ab
    rw [List.append_assoc, List.append_assoc]
    exact .seq ha (.seq hb hc)
  · intro h
    obtain ⟨_, _, _, _, ha, bc, rfl, rfl⟩ := matches_append.1 h
    obtain ⟨_, _, _, _, hb, hc, rfl, rfl⟩ := matches_append.1 bc
    rw [← List.append_assoc, ← List.append_assoc]
    exact .seq (.seq ha hb) hc

@[simp] theorem matches_rule_append :
    Matches (.rule r ++ b) ts xs ↔
      ∃ us u vs ys, Derives r us u ∧ Matches b vs ys ∧ ts = us ++ vs ∧ xs = u :: ys := by
  simp only [matches_append, matches_rule]
  constructor
  · rintro ⟨us, vs, _, ys, ⟨u, hu, rfl⟩, hb, rfl, rfl⟩
    exact ⟨us, u, vs, ys, hu, hb, rfl, rfl⟩
  · rintro ⟨us, u, vs, ys, hu, hb, rfl, rfl⟩
    exact ⟨us, vs, [u], ys, ⟨u, hu, rfl⟩, hb, rfl, rfl⟩

@[simp] theorem matches_terminal_append {k : Terminal} :
    Matches (.terminal k ++ b) ts xs ↔
      ∃ (t : Token) (us : List Token) (ys : List Tree), t.kind = k.kind ∧ Matches b us ys ∧
        ts = t :: us ∧ xs = k.leaf t.text t.span :: ys := by
  simp only [matches_append, matches_terminal]
  constructor
  · rintro ⟨_, us, _, ys, ⟨t, kind, rfl, rfl⟩, hb, rfl, rfl⟩
    exact ⟨t, us, ys, kind, hb, rfl, rfl⟩
  · rintro ⟨t, us, ys, kind, hb, rfl, rfl⟩
    exact ⟨[t], us, _, ys, ⟨t, kind, rfl, rfl⟩, hb, rfl, rfl⟩

@[simp] theorem matches_silent_append {k : TokenKind} :
    Matches (.silent k ++ b) ts xs ↔
      ∃ (t : Token) (us : List Token), t.kind = k ∧ Matches b us xs ∧ ts = t :: us := by
  simp only [matches_append, matches_silent]
  constructor
  · rintro ⟨_, us, _, ys, ⟨t, kind, rfl, rfl⟩, hb, rfl, rfl⟩
    exact ⟨t, us, kind, hb, rfl⟩
  · rintro ⟨t, us, kind, hb, rfl⟩
    exact ⟨[t], us, [], xs, ⟨t, kind, rfl, rfl⟩, hb, rfl, rfl⟩

@[simp] theorem matches_or : Matches (a ||| b) ts xs ↔ Matches a ts xs ∨ Matches b ts xs := by
  constructor
  · intro h
    cases h with
    | left h => exact .inl h
    | right h => exact .inr h
  · rintro (h | h)
    · exact .left h
    · exact .right h

/-- What holds of no repetition, and of one more, holds of all. -/
theorem Matches.many_induction {P : List Token → List Tree → Prop} (nil : P [] [])
    (cons : ∀ {ts us xs ys}, Matches a ts xs → Matches (.many a) us ys → P us ys →
      P (ts ++ us) (xs ++ ys))
    (h : Matches (.many a) ts xs) : P ts xs := by
  generalize form : Form.many a = f at h
  induction h with
  | done => exact nil
  | more head tail _ ih =>
    cases form
    exact cons head tail (ih rfl)
  | _ => cases form

/-- How many parts a form has, if all its matches have the same number. -/
def Form.arity : Form → Option Nat
  | .nothing | .silent _ => some 0
  | .rule _ | .terminal _ => some 1
  | .seq first second => do return (← first.arity) + (← second.arity)
  | .choice left right => if left.arity = right.arity then left.arity else none
  | .many _ => none

theorem Matches.length_eq {n : Nat} (h : Matches a ts xs) (arity : a.arity = some n) :
    xs.length = n := by
  induction h generalizing n with
  | nothing | rule _ _ | terminal _ | silent _ => cases arity; rfl
  | @seq a b ts us xs ys _ _ iha ihb =>
    cases ha : a.arity <;> cases hb : b.arity <;> simp [Form.arity, ha, hb] at arity
    rw [List.length_append, iha ha, ihb hb, arity]
  | left _ ih =>
    simp only [Form.arity] at arity
    split at arity
    · exact ih arity
    · cases arity
  | right _ ih =>
    simp only [Form.arity] at arity
    split at arity
    next same => exact ih (same ▸ arity)
    next => cases arity
  | done | more _ _ _ _ => cases arity

/-- Every match has a first token. -/
def Form.headed : Form → Bool
  | .rule r => r ≠ .block
  | .terminal _ | .silent _ => true
  | .seq first _ => first.headed
  | .choice left right => left.headed && right.headed
  | .nothing | .many _ => false

/-- What an operand of arithmetic begins with. -/
def operandFirst : List TokenKind := [.int, .float, .true, .false, .name, .minus, .leftParen]

/-- What a rule begins with; a block may be empty. -/
def Rule.first : Rule → List TokenKind
  | .block => []
  | .assignVar | .variable => [.name]
  | .notOp => [.not]
  | .negAtom => [.minus]
  | .bracketed => [.leftParen]
  | .line | .logicExpr | .disjunction | .orOp | .conjunction | .andOp | .negation =>
    .not :: operandFirst
  | .comparison | .relation _ | .arithExpr | .sum | .addition | .subtraction | .product
  | .multiplication | .division | .atom => operandFirst

def Form.first : Form → List TokenKind
  | .rule r => r.first
  | .terminal k => [k.kind]
  | .silent k => [k]
  | .seq first _ => first.first
  | .choice left right => left.first ++ right.first
  | .nothing | .many _ => []

theorem Rule.headed_body (h : r ≠ .block) : r.body.headed := by
  cases r <;> first | rfl | exact absurd rfl h

theorem Rule.first_body (h : r ≠ .block) : r.body.first ⊆ r.first := by
  cases r with
  | block => exact absurd rfl h
  | relation op => cases op <;> decide
  | _ => decide

theorem Matches.exists_first (h : Matches a ts xs) (headed : a.headed) :
    ∃ t us, ts = t :: us ∧ t.kind ∈ a.first := by
  induction h with
  | rule _ ih =>
    have ne := of_decide_eq_true headed
    obtain ⟨t, us, rfl, first⟩ := ih (Rule.headed_body ne)
    exact ⟨t, us, rfl, Rule.first_body ne first⟩
  | terminal kind => exact ⟨_, _, rfl, List.mem_singleton.2 kind⟩
  | silent kind => exact ⟨_, _, rfl, List.mem_singleton.2 kind⟩
  | seq _ _ ih _ =>
    obtain ⟨t, us, rfl, first⟩ := ih headed
    exact ⟨t, _, rfl, first⟩
  | left _ ih =>
    obtain ⟨t, us, rfl, first⟩ := ih (Bool.and_eq_true_iff.1 headed).1
    exact ⟨t, us, rfl, List.mem_append_left _ first⟩
  | right _ ih =>
    obtain ⟨t, us, rfl, first⟩ := ih (Bool.and_eq_true_iff.1 headed).2
    exact ⟨t, us, rfl, List.mem_append_right _ first⟩
  | nothing | done | more _ _ _ _ => cases headed

theorem Derives.exists_first (h : Derives r ts t) (ne : r ≠ .block) :
    ∃ t us, ts = t :: us ∧ t.kind ∈ r.first :=
  Matches.exists_first h (decide_eq_true ne)

/-- Only tokens and rules that pass the tests occur in the form. -/
def Form.uses (tokens : TokenKind → Bool) (rules : Rule → Bool) : Form → Bool
  | .nothing => true
  | .rule r => rules r
  | .terminal k => tokens k.kind
  | .silent k => tokens k
  | .seq first second => first.uses tokens rules && second.uses tokens rules
  | .choice left right => left.uses tokens rules && right.uses tokens rules
  | .many form => form.uses tokens rules

@[simp] theorem Form.uses_append (tokens : TokenKind → Bool) (rules : Rule → Bool) (f g : Form) :
    (f ++ g).uses tokens rules = (f.uses tokens rules && g.uses tokens rules) := rfl

@[simp] theorem Form.uses_or (tokens : TokenKind → Bool) (rules : Rule → Bool) (f g : Form) :
    (f ||| g).uses tokens rules = (f.uses tokens rules && g.uses tokens rules) := rfl

/-- A test that no rule leads out of holds of all tokens of a derivation. -/
theorem Matches.forall_tokens {tokens : TokenKind → Bool} {rules : Rule → Bool}
    (closed : ∀ r, rules r → r.body.uses tokens rules) (h : Matches a ts xs)
    (uses : a.uses tokens rules) : ∀ t ∈ ts, tokens t.kind := by
  induction h with
  | nothing | done => simp
  | rule _ ih => exact ih (closed _ uses)
  | terminal kind =>
    intro t mem
    rw [List.mem_singleton.1 mem, kind]
    exact uses
  | silent kind =>
    intro t mem
    rw [List.mem_singleton.1 mem, kind]
    exact uses
  | seq _ _ ih₁ ih₂ =>
    have both := Bool.and_eq_true_iff.1 uses
    exact List.forall_mem_append.2 ⟨ih₁ both.1, ih₂ both.2⟩
  | left _ ih => exact ih (Bool.and_eq_true_iff.1 uses).1
  | right _ ih => exact ih (Bool.and_eq_true_iff.1 uses).2
  | more _ _ ih₁ ih₂ => exact List.forall_mem_append.2 ⟨ih₁ uses, ih₂ uses⟩

theorem Derives.ne_newline (h : Derives r ts t) (ne : r ≠ .block) :
    ∀ t ∈ ts, t.kind ≠ .newline := by
  have closed : ∀ r : Rule, decide (r ≠ .block) →
      r.body.uses (fun k => k ≠ .newline) (fun r => r ≠ .block) := by
    intro r hr
    cases r <;> first | rfl | cases hr
  intro t mem
  exact of_decide_eq_true (Matches.forall_tokens closed h (decide_eq_true ne) t mem)

/-- Inside an expression no assignment stands. -/
theorem Derives.ne_assign (h : Derives .logicExpr ts t) : ∀ t ∈ ts, t.kind ≠ .assign := by
  have closed : ∀ r : Rule, decide (r ∉ [Rule.block, .line, .assignVar]) →
      r.body.uses (fun k => k ≠ .assign) (fun r => r ∉ [Rule.block, .line, .assignVar]) := by
    intro r hr
    cases r <;> first | rfl | cases hr
  intro t mem
  exact of_decide_eq_true (Matches.forall_tokens closed h rfl t mem)

end

end Grammar
end Reckon
