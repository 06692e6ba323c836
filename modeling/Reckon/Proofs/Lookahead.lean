import Reckon.Proofs.ParserCompleteness
import Reckon.Proofs.ViablePrefix

/-!
One token ahead decides. As long as a parser leaves a token unread, it does not matter what stands
after that token: with other tokens there it reads the same tree, or is refused in the same place
for the same reason. The one rule that looks at two tokens, a line, passes over the first of them in
any case.
-/

namespace Reckon
namespace Grammar

variable {α β : Type}

/-- The tokens a result leaves, none if it ran out of levels. -/
def remaining : Except Refusal (α × List Token) → List Token
  | .ok (_, rest) => rest
  | .error (.unexpected _ ahead) => ahead
  | .error (.tooDeep _) => []

/-- The result on the tokens up to `t` and `more`, and that on the tokens up to `t` and `more'`: the
same, unless the first went past `t`. -/
inductive Follows (t : Token) (more more' : List Token) :
    Except Refusal (α × List Token) → Except Refusal (α × List Token) → Prop where
  | read (a : α) (left : List Token) :
      Follows t more more' (.ok (a, left ++ t :: more)) (.ok (a, left ++ t :: more'))
  | refused (expected : String) (left : List Token) :
      Follows t more more' (.error (.unexpected expected (left ++ t :: more)))
        (.error (.unexpected expected (left ++ t :: more')))
  | past {x y : Except Refusal (α × List Token)} (h : (remaining x).length ≤ more.length) :
      Follows t more more' x y

/-- What is ahead once a token is passed over, here and there: the same up to `t`, unless the token
was `t` itself. -/
def Alike (t : Token) (more more' toks toks' : List Token) : Prop :=
  toks = more ∨ ∃ left, toks = left ++ t :: more ∧ toks' = left ++ t :: more'

/-- A parser leaves no more tokens than it was given. -/
def Shrinks (p : Parser) : Prop := ∀ room toks, (remaining (p room toks)).length ≤ toks.length

/-- What stands after an unread token does not matter to `p`. -/
def Local (p : Parser) : Prop :=
  ∀ room used t more more',
    Follows t more more' (p room (used ++ t :: more)) (p room (used ++ t :: more'))

section
variable {rule operand : Rule} {operator : TokenKind → Option Rule} {atom p : Parser}
  {room limit : Nat} {toks used more more' : List Token} {t : Token}

theorem remaining_bind_le {n : Nat} {x : Except Refusal (α × List Token)}
    {f : α × List Token → Except Refusal (β × List Token)} (h : (remaining x).length ≤ n)
    (shrinks : ∀ a rest, (remaining (f (a, rest))).length ≤ rest.length) :
    (remaining (x >>= f)).length ≤ n := by
  match x with
  | .ok (a, rest) => exact Nat.le_trans (shrinks a rest) h
  | .error (.unexpected _ _) => exact h
  | .error (.tooDeep _) => exact Nat.zero_le n

theorem Follows.bind {x y : Except Refusal (α × List Token)}
    {f g : α × List Token → Except Refusal (β × List Token)} (h : Follows t more more' x y)
    (next : ∀ a left, x = .ok (a, left ++ t :: more) → y = .ok (a, left ++ t :: more') →
      Follows t more more' (f (a, left ++ t :: more)) (g (a, left ++ t :: more')))
    (shrinks : ∀ a rest, (remaining (f (a, rest))).length ≤ rest.length) :
    Follows t more more' (x >>= f) (y >>= g) := by
  cases h with
  | read => exact next _ _ rfl rfl
  | refused => exact .refused _ _
  | past h => exact .past (remaining_bind_le h shrinks)

/-- What is done with a tree leaves the tokens as they are. -/
theorem Follows.map {x y : Except Refusal (α × List Token)} {f : α → β}
    (h : Follows t more more' x y) :
    Follows t more more' (x >>= fun r => return (f r.1, r.2))
      (y >>= fun r => return (f r.1, r.2)) :=
  h.bind (fun _ left _ _ => .read _ left) fun _ _ => Nat.le_refl _

theorem remaining_le_of_suffix {x : Except Refusal (α × List Token)}
    (read : ∀ {a rest}, x = .ok (a, rest) → ∃ used, toks = used ++ rest)
    (refused : ∀ {expected ahead}, x = .error (.unexpected expected ahead) →
      ∃ used, toks = used ++ ahead) : (remaining x).length ≤ toks.length := by
  match x with
  | .ok (a, rest) =>
    obtain ⟨used, rfl⟩ := read rfl
    simp [remaining]
  | .error (.unexpected _ ahead) =>
    obtain ⟨used, rfl⟩ := refused rfl
    simp [remaining]
  | .error (.tooDeep _) => exact Nat.zero_le _

theorem Shrinks.of_stops (sound : Sound rule p) (stops : Stops rule p) : Shrinks p := by
  refine fun room toks => remaining_le_of_suffix (fun read => ?_) fun refused => ?_
  · obtain ⟨used, split, _⟩ := sound read
    exact ⟨used, split⟩
  · obtain ⟨used, split, _⟩ := stops refused
    exact ⟨used, split⟩

/-- A token a rule may begin with is passed over. -/
theorem Follows.of_first {y : Except Refusal (Tree × List Token)} (sound : Sound rule p)
    (stops : Stops rule p) (headed : rule ≠ .block) (first : t.kind ∈ rule.first) :
    Follows t more more' (p room (t :: more)) y := by
  apply Follows.past
  match read : p room (t :: more) with
  | .ok (u, rest) =>
    obtain ⟨used, split, derived, _⟩ := sound read
    obtain ⟨_, vs, rfl, _⟩ := derived.exists_first headed
    obtain ⟨rfl, rfl⟩ := List.cons.inj split
    simp [remaining]
  | .error (.unexpected _ ahead) =>
    obtain ⟨used, split, _, none⟩ := stops read
    cases used with
    | nil => exact absurd first (none rfl t (by rw [← List.nil_append ahead, ← split]; rfl))
    | cons _ vs =>
      obtain ⟨rfl, rfl⟩ := List.cons.inj split
      simp [remaining]
  | .error (.tooDeep _) => exact Nat.zero_le _

theorem nested_local (h : Local p) : Local (nested p) := by
  intro room used t more more'
  cases room with
  | zero => exact .past (Nat.zero_le _)
  | succ room => exact h room used t more more'

theorem wrapped_local (h : Local p) : Local (wrapped rule p) :=
  fun room used t more more' =>
    Follows.map (f := fun u => rule.node [u]) (h room used t more more')

theorem chainFrom_shrinks (shrinks : Shrinks p) {tree : Tree} :
    (remaining (chainFrom rule operator p room tree toks)).length ≤ toks.length := by
  fun_induction chainFrom rule operator p room tree toks with
  | case1 | case2 => exact Nat.le_refl _
  | case3 => exact Nat.zero_le _
  | case4 tree o toks op _ room ih =>
    exact remaining_bind_le (Nat.le_succ_of_le (shrinks room toks)) fun right rest => ih right rest

/-- A chain ends before a token that is none of its operators. -/
theorem chainFrom_of_eq_none {tree : Tree} (none : operator t.kind = none) :
    chainFrom rule operator p room tree (t :: more) = .ok (tree, t :: more) := by
  cases room <;> simp [chainFrom, none]

theorem chainFrom_follows (h : Local p) (shrinks : Shrinks p) {tree : Tree} :
    Follows t more more' (chainFrom rule operator p room tree (used ++ t :: more))
      (chainFrom rule operator p room tree (used ++ t :: more')) := by
  generalize split : used ++ t :: more = toks
  fun_induction chainFrom rule operator p room tree toks generalizing used with
  | case1 => simp at split
  | case2 room tree o toks none =>
    cases used with
    | nil =>
      cases split
      rw [List.nil_append, chainFrom_of_eq_none none]
      exact .read _ []
    | cons _ used =>
      cases split
      rw [List.cons_append, chainFrom_of_eq_none none]
      exact .read _ (o :: used)
  | case3 => exact .past (Nat.zero_le _)
  | case4 tree o toks op sign room ih =>
    cases used with
    | nil =>
      cases split
      exact .past (remaining_bind_le (shrinks room more) fun _ _ => chainFrom_shrinks shrinks)
    | cons _ used =>
      cases split
      simp only [List.cons_append, chainFrom, sign]
      exact (h room used t more more').bind (fun right left _ _ => ih right _ rfl) fun _ _ =>
        chainFrom_shrinks shrinks

theorem chain_shrinks (shrinks : Shrinks p) : Shrinks (chain rule operator p) :=
  fun room toks => remaining_bind_le (shrinks room toks) fun _ _ => chainFrom_shrinks shrinks

theorem chain_local (h : Local p) (shrinks : Shrinks p) : Local (chain rule operator p) :=
  fun room used t more more' =>
    (h room used t more more').bind (fun _ _ _ _ => chainFrom_follows h shrinks) fun _ _ =>
      chainFrom_shrinks shrinks

theorem exists_cons (used : List Token) (t : Token) (more more' : List Token) :
    ∃ o toks toks', used ++ t :: more = o :: toks ∧ used ++ t :: more' = o :: toks' ∧
      Alike t more more' toks toks' := by
  cases used with
  | nil => exact ⟨t, more, more', rfl, rfl, .inl rfl⟩
  | cons o used => exact ⟨o, _, _, rfl, rfl, .inr ⟨used, rfl, rfl⟩⟩

theorem Follows.after_one {f g : List Token → Except Refusal (α × List Token)}
    {toks' : List Token}
    (alike : Alike t more more' toks toks')
    (h : ∀ left, toks = left ++ t :: more → toks' = left ++ t :: more' →
      Follows t more more' (f toks) (g toks'))
    (shrinks : (remaining (f toks)).length ≤ toks.length) :
    Follows t more more' (f toks) (g toks') := by
  obtain rfl | ⟨left, same, same'⟩ := alike
  · exact .past shrinks
  · exact h left same same'

theorem Follows.of_alike {toks' : List Token} (a : α) (alike : Alike t more more' toks toks') :
    Follows t more more' (.ok (a, toks)) (.ok (a, toks')) := by
  obtain rfl | ⟨left, rfl, rfl⟩ := alike
  · exact .past (Nat.le_refl _)
  · exact .read a left

theorem Local.after_one (h : Local p) (shrinks : Shrinks p) {toks' : List Token}
    (alike : toks = more ∨ ∃ left, toks = left ++ t :: more ∧ toks' = left ++ t :: more') :
    Follows t more more' (p room toks) (p room toks') := by
  refine .after_one alike (fun left same same' => ?_) (shrinks room toks)
  rw [same, same']
  exact h room left t more more'

theorem expect_shrinks {kind : TokenKind} {expected : String}
    {f : List Token → Except Refusal (α × List Token)}
    (shrinks : ∀ rest, (remaining (f rest)).length ≤ rest.length) :
    (remaining (expect kind expected toks >>= f)).length ≤ toks.length := by
  cases toks with
  | nil => exact Nat.le_refl _
  | cons o toks =>
    by_cases found : o.kind = kind
    · rw [expect, if_pos found]
      exact Nat.le_succ_of_le (shrinks toks)
    · rw [expect, if_neg found]
      exact Nat.le_refl _

theorem expect_follows {kind : TokenKind} {expected : String}
    {f g : List Token → Except Refusal (α × List Token)}
    (next : ∀ toks toks', toks.length < (used ++ t :: more).length →
      toks'.length < (used ++ t :: more').length → Alike t more more' toks toks' →
      Follows t more more' (f toks) (g toks')) :
    Follows t more more' (expect kind expected (used ++ t :: more) >>= f)
      (expect kind expected (used ++ t :: more') >>= g) := by
  obtain ⟨o, toks, toks', eq, eq', alike⟩ := exists_cons used t more more'
  by_cases found : o.kind = kind
  · rw [eq] at next ⊢
    rw [eq'] at next ⊢
    rw [expect, expect, if_pos found, if_pos found]
    exact next toks toks' (Nat.lt_succ_self _) (Nat.lt_succ_self _) alike
  · rw [eq, eq', expect, expect, if_neg found, if_neg found, ← eq, ← eq']
    exact .refused _ used

/-- A comparison whose left side has been read. -/
def comparisonFrom (atom : Parser) (room : Nat) (left : Tree) :
    List Token → Except Refusal (Tree × List Token)
  | ⟨.relation op, _, _⟩ :: rest => do
    let (right, rest) ← arithExpr atom room rest
    return (Rule.comparison.node [(Rule.relation op).node [left, right]], rest)
  | rest => return (Rule.comparison.node [left], rest)

theorem comparison_eq :
    comparison atom room toks =
      (arithExpr atom room toks >>= fun r => comparisonFrom atom room r.1 r.2) := rfl

theorem comparisonFrom_of_ne {left : Tree} (other : isRelation t.kind = false) :
    comparisonFrom atom room left (t :: toks) = .ok (Rule.comparison.node [left], t :: toks) := by
  obtain ⟨kind, _, _⟩ := t
  cases kind <;> first | rfl | cases other

section
variable (sound : Sound .atom atom) (stops : Stops .atom atom) {bound : List Token}
include sound stops

theorem indices_shrinks : (remaining (indices atom room bound toks)).length ≤ toks.length := by
  refine remaining_le_of_suffix (fun read => ?_) fun refused => ?_
  · obtain ⟨used, split, _⟩ := indices_sound sound read
    exact ⟨used, split⟩
  · obtain ⟨used, split, _⟩ := indices_stops sound stops refused
    exact ⟨used, split⟩

theorem lines_shrinks : (remaining (lines atom room bound toks)).length ≤ toks.length := by
  refine remaining_le_of_suffix (fun read => ?_) fun refused => ?_
  · obtain ⟨used, split, _⟩ := lines_sound sound read
    exact ⟨used, split⟩
  · obtain ⟨used, split, _⟩ := lines_stops sound stops refused
    exact ⟨used, split⟩

end

/-- Without a name and `=` ahead, a line is an expression. -/
theorem line_of_not {o : Token} (h : o.kind = .name → ∀ s ∈ toks.head?, s.kind ≠ .assign) :
    line atom room (o :: toks) = wrapped .line (logicExpr atom) room (o :: toks) := by
  unfold line
  split
  next split =>
    cases split
    exact absurd rfl (h rfl _ rfl)
  next => rfl

theorem length_lt_of_line (sound : Sound .atom atom) {u : Tree} {rest : List Token}
    (read : line atom room toks = .ok (u, rest)) : rest.length < toks.length := by
  obtain ⟨used, rfl, derived, _⟩ := line_sound sound read
  obtain ⟨_, _, rfl, _⟩ := derived.exists_first (by decide)
  simp only [List.length_append, List.length_cons]
  omega

section
variable (sound : Sound .atom atom) (stops : Stops .atom atom) (h : Local atom)
include sound stops h

theorem arithExpr_local : Local (arithExpr atom) := by
  have shrinks : Shrinks atom := .of_stops sound stops
  exact wrapped_local (chain_local (chain_local h shrinks) (chain_shrinks shrinks))

theorem comparison_local : Local (comparison atom) := by
  have arith := arithExpr_local sound stops h
  have shrinks : Shrinks (arithExpr atom) :=
    .of_stops (arithExpr_sound sound) (arithExpr_stops sound stops)
  intro room used t more more'
  rw [comparison_eq, comparison_eq]
  refine (arith room used t more more').bind (fun left used _ _ => ?_) fun left rest => ?_
  · obtain ⟨⟨kind, _, _⟩, toks, toks', eq, eq', alike⟩ := exists_cons used t more more'
    cases relation : isRelation kind with
    | true =>
      rw [eq, eq']
      cases kind <;> cases relation
      exact Follows.map (f := fun right => Rule.comparison.node [Rule.node _ [left, right]])
        (arith.after_one shrinks alike)
    | false =>
      dsimp only
      rw [eq, eq', comparisonFrom_of_ne relation, comparisonFrom_of_ne relation, ← eq, ← eq']
      exact .read _ used
  · dsimp only
    unfold comparisonFrom
    split
    · exact remaining_bind_le (Nat.le_succ_of_le (shrinks room _)) fun _ _ => Nat.le_refl _
    · exact Nat.le_refl _

theorem negation_local : Local (negation atom) := by
  have comparison := comparison_local sound stops h
  have shrinks : Shrinks (negation atom) :=
    .of_stops (negation_sound sound) (negation_stops sound stops)
  intro room used t more more'
  induction room using Nat.strongRecOn generalizing used with
  | ind room ih =>
    obtain ⟨⟨kind, text, span⟩, toks, toks', eq, eq', alike⟩ := exists_cons used t more more'
    by_cases isNot : kind = .not
    · subst isNot
      rw [eq, eq']
      cases room with
      | zero => exact .past (Nat.zero_le _)
      | succ room =>
        rw [negation, negation]
        refine Follows.map (f := fun u => Rule.negation.node [Rule.notOp.node [u]]) ?_
        refine .after_one alike (fun left same same' => ?_) (shrinks room toks)
        rw [same, same']
        exact ih room (Nat.lt_succ_self room) left
    · rw [negation_of_ne_not (by simpa [eq] using isNot),
        negation_of_ne_not (by simpa [eq'] using isNot)]
      exact wrapped_local comparison room used t more more'

theorem logicExpr_local : Local (logicExpr atom) := by
  have shrinks : Shrinks (negation atom) :=
    .of_stops (negation_sound sound) (negation_stops sound stops)
  have negation := negation_local sound stops h
  exact nested_local
    (wrapped_local (chain_local (chain_local negation shrinks) (chain_shrinks shrinks)))

theorem indices_follows {bound bound' : List Token}
    (enough : (used ++ t :: more).length ≤ bound.length)
    (enough' : (used ++ t :: more').length ≤ bound'.length) :
    Follows t more more' (indices atom room bound (used ++ t :: more))
      (indices atom room bound' (used ++ t :: more')) := by
  have arith := arithExpr_local sound stops h
  have arithShrinks : Shrinks (arithExpr atom) :=
    .of_stops (arithExpr_sound sound) (arithExpr_stops sound stops)
  induction bound generalizing used bound' with
  | nil => simp at enough
  | cons b bound ih =>
    cases bound' with
    | nil => simp at enough'
    | cons b' bound' =>
      obtain ⟨⟨kind, text, span⟩, toks, toks', eq, eq', alike⟩ := exists_cons used t more more'
      by_cases bracket : kind = .leftBracket
      · subst bracket
        rw [eq] at enough ⊢
        rw [eq'] at enough' ⊢
        rw [indices, indices]
        refine (arith.after_one arithShrinks alike).bind ?_ fun _ rest => ?_
        · intro index left read read'
          have short := arithShrinks room toks
          have short' := arithShrinks room toks'
          rw [read] at short
          rw [read'] at short'
          refine expect_follows fun rest rest' less less' alike => ?_
          refine Follows.map (f := fun others => index :: others) ?_
          refine .after_one alike (fun left same same' => ?_) (indices_shrinks sound stops)
          subst same same'
          simp only [remaining, List.length_cons] at short short' enough enough'
          exact ih (by omega) (by omega)
        · exact expect_shrinks fun rest =>
            remaining_bind_le (indices_shrinks sound stops) fun _ _ => Nat.le_refl _
      · have none (bound : List Token) {b : Token} {toks : List Token} :
            indices atom room (b :: bound) (⟨kind, text, span⟩ :: toks) =
              .ok ([], ⟨kind, text, span⟩ :: toks) := by
          rw [indices]
          rintro _ _ _ _ _ _ ⟨⟩
          exact bracket rfl
        rw [eq, eq', none, none, ← eq, ← eq']
        exact .read _ used

theorem atomAround_local : Local (atomAround atom) := by
  have shrinks : Shrinks atom := .of_stops sound stops
  have logicShrinks : Shrinks (logicExpr atom) :=
    .of_stops (logicExpr_sound sound) (logicExpr_stops sound stops)
  refine nested_local fun room used t more more' => ?_
  obtain ⟨⟨kind, text, span⟩, toks, toks', eq, eq', alike⟩ := exists_cons used t more more'
  have refused : Follows t more more'
      (.error (.unexpected "an expression" (⟨kind, text, span⟩ :: toks)) :
        Except Refusal (Tree × List Token))
      (.error (.unexpected "an expression" (⟨kind, text, span⟩ :: toks'))) := by
    rw [← eq, ← eq']
    exact .refused _ used
  rw [eq, eq']
  cases kind with
  | int | float | true | false => exact .of_alike _ alike
  | name =>
    refine Follows.map (f := fun indices =>
      Rule.atom.node [Rule.variable.node (Terminal.varName.leaf text span :: indices)]) ?_
    refine .after_one alike (f := fun toks => indices atom room toks toks)
      (g := fun toks => indices atom room toks toks) (fun left same same' => ?_)
      (indices_shrinks sound stops)
    rw [same, same']
    exact indices_follows sound stops h (Nat.le_refl _) (Nat.le_refl _)
  | minus =>
    exact Follows.map (f := fun u => Rule.atom.node [Rule.negAtom.node [u]])
      (h.after_one shrinks alike)
  | leftParen =>
    have logic := logicExpr_local sound stops h
    refine (logic.after_one logicShrinks alike).bind (fun inner left _ _ => ?_) fun inner rest => ?_
    · exact expect_follows fun rest rest' _ _ alike => .of_alike _ alike
    · exact expect_shrinks fun _ => Nat.le_refl _
  | _ => exact refused

theorem line_local : Local (line atom) := by
  have logic := logicExpr_local sound stops h
  have shrinks : Shrinks (logicExpr atom) :=
    .of_stops (logicExpr_sound sound) (logicExpr_stops sound stops)
  intro room used t more more'
  cases used with
  | nil =>
    by_cases name : t.kind = .name
    · -- Whether this is an assignment depends on the token after it.
      exact .of_first (line_sound sound) (line_stops sound stops) (by decide) (by rw [name]; decide)
    · rw [List.nil_append, List.nil_append, line_of_not fun is => absurd is name,
        line_of_not fun is => absurd is name]
      exact wrapped_local logic room [] t more more'
  | cons o used =>
    obtain ⟨s, toks, toks', eq, eq', alike⟩ := exists_cons used t more more'
    by_cases assign : o.kind = .name ∧ s.kind = .assign
    · obtain ⟨_, text, span⟩ := o
      obtain ⟨_, _, _⟩ := s
      obtain ⟨⟨⟩, ⟨⟩⟩ := assign
      rw [List.cons_append, List.cons_append, eq, eq', line, line]
      exact Follows.map (f := fun value =>
          Rule.line.node [Rule.assignVar.node [Terminal.varName.leaf text span, value]])
        (logic.after_one shrinks alike)
    · rw [List.cons_append, List.cons_append,
        line_of_not fun name => by simpa [eq] using fun sign => assign ⟨name, sign⟩,
        line_of_not fun name => by simpa [eq'] using fun sign => assign ⟨name, sign⟩]
      exact wrapped_local logic room (o :: used) t more more'

theorem lines_follows {bound bound' : List Token}
    (enough : (used ++ t :: more).length ≤ bound.length)
    (enough' : (used ++ t :: more').length ≤ bound'.length) :
    Follows t more more' (lines atom room bound (used ++ t :: more))
      (lines atom room bound' (used ++ t :: more')) := by
  induction bound generalizing used bound' with
  | nil => simp at enough
  | cons b bound ih =>
    cases bound' with
    | nil => simp at enough'
    | cons b' bound' =>
      obtain ⟨o, toks, toks', eq, eq', alike⟩ := exists_cons used t more more'
      rw [eq] at enough ⊢
      rw [eq'] at enough' ⊢
      by_cases newline : o.kind = .newline
      · rw [lines, lines, if_pos newline, if_pos newline]
        refine .after_one alike (fun left same same' => ?_) (lines_shrinks sound stops)
        subst same same'
        exact ih (Nat.le_of_succ_le_succ enough) (Nat.le_of_succ_le_succ enough')
      · rw [lines, lines, if_neg newline, if_neg newline, ← eq, ← eq']
        refine (line_local sound stops h room used t more more').bind ?_ fun first rest => ?_
        · intro first left read read'
          have shorter := length_lt_of_line sound read
          have shorter' := length_lt_of_line sound read'
          rw [eq] at shorter
          rw [eq'] at shorter'
          simp only [List.length_cons] at enough enough' shorter shorter'
          dsimp only
          obtain ⟨s, _, _, same, same', _⟩ := exists_cons left t more more'
          by_cases ends : s.kind = .newline
          · have both (rest : List Token) : endOfLine (s :: rest) = .ok () := if_pos ends
            have tail : Follows t more more' (lines atom room bound (left ++ t :: more))
                (lines atom room bound' (left ++ t :: more')) := ih (by omega) (by omega)
            rw [same, same'] at tail ⊢
            rw [both, both]
            exact Follows.map (f := fun others => first :: others) tail
          · have neither (rest : List Token) :
                endOfLine (s :: rest) = .error (.unexpected "newline" (s :: rest)) := if_neg ends
            rw [same, same', neither, neither, ← same, ← same']
            exact .refused _ left
        · dsimp only
          cases ends : endOfLine rest with
          | ok _ => exact remaining_bind_le (lines_shrinks sound stops) fun _ _ => Nat.le_refl _
          | error refusal =>
            cases refusal with
            | unexpected _ ahead =>
              obtain rfl := endOfLine_eq_error ends
              exact Nat.le_refl _
            | tooDeep _ => exact Nat.zero_le _

theorem Start.parser_local (start : Start) : Local (start.parser atom) := by
  cases start with
  | program =>
    intro room used t more more'
    exact Follows.map (f := fun lines => Rule.block.node lines)
      (lines_follows sound stops h (Nat.le_refl _) (Nat.le_refl _))
  | line => exact line_local sound stops h
  | expression => exact logicExpr_local sound stops h
  | arith => exact arithExpr_local sound stops h

end

theorem atomUpTo_local (bound : Nat) : Local (atomUpTo bound) := by
  induction bound with
  | zero => exact fun room used t more more' => .past (Nat.zero_le _)
  | succ bound ih => exact atomAround_local (atomUpTo_sound bound) (atomUpTo_stops bound) ih

end

end Grammar
end Reckon
