import Reckon.Proofs.Failures
import Reckon.Proofs.Joining
import Reckon.Proofs.Programs

/-!
Names that are used before they are defined. After a run that succeeds exactly the names are bound
that were bound before or are assigned to, and a run that finds a name unbound refers to it and
started without it. So what a program has defined when it comes to a line can be read off the lines
before, and it fails for an undefined name only at a line that uses one too early.
-/

namespace Reckon

theorem Value.index_ne_undefined {base i : Value} (name : String) :
    base.index i ≠ .error (.undefinedVariable name) := by
  intro failed
  rcases Value.error_of_index failed with other | other | ⟨_, _, other⟩ <;> cases other

theorem UnaryOp.apply_ne_undefined {op : UnaryOp} {v : Value} (name : String) :
    op.apply v ≠ .error (.undefinedVariable name) := by
  intro failed
  rcases UnaryOp.error_of_apply failed with ⟨_, other⟩ | other <;> cases other

theorem BinaryOp.apply_ne_undefined {op : BinaryOp} {l r : Value} (name : String) :
    op.apply l r ≠ .error (.undefinedVariable name) := by
  intro failed
  rcases BinaryOp.error_of_apply failed with ⟨_, _, other⟩ | other | ⟨_, other⟩ <;> cases other

namespace Run

/-- The run binds `targets`, and it finds a name unbound only if that is one of `reads` which was
not bound before. -/
structure Binds (reads targets : List String) {α : Type} (x : Run α) : Prop where
  bound : ∀ {env a left}, x.on env = (.ok a, left) →
    ∀ name, left.contains name ↔ env.contains name ∨ name ∈ targets
  unbound : ∀ {env name left}, x.on env = (.error (.undefinedVariable name), left) →
    name ∈ reads ∧ env.contains name = false

namespace Binds

variable {reads targets reads' targets' : List String} {α β : Type} {x : Run α}

theorem congr (h : x.Binds reads targets) (more : reads ⊆ reads')
    (same : ∀ name, name ∈ targets ↔ name ∈ targets') : x.Binds reads' targets' where
  bound done name := by rw [h.bound done, same]
  unbound failed := ⟨more (h.unbound failed).1, (h.unbound failed).2⟩

theorem pure (a : α) : Run.Binds reads [] (Pure.pure a : Run α) where
  bound done name := by
    cases done
    simp
  unbound failed := by cases failed

theorem throw {e : EvalError} (other : ∀ name, e ≠ .undefinedVariable name) :
    Run.Binds reads targets (MonadExcept.throw e : Run α) where
  bound done := by cases done
  unbound failed := by
    cases failed
    exact absurd rfl (other _)

theorem liftExcept {y : Except EvalError α} (other : ∀ name, y ≠ .error (.undefinedVariable name)) :
    Run.Binds reads [] (liftExcept y : Run α) where
  bound done name := by
    rw [on_liftExcept] at done
    cases done
    simp
  unbound failed := by
    rw [on_liftExcept] at failed
    exact absurd (Prod.mk.inj failed).1 (other _)

/-- What the second run finds unbound the first one has not bound either. -/
theorem bind {f : α → Run β} (first : x.Binds reads targets)
    (next : ∀ a, (f a).Binds reads' targets') :
    Run.Binds (reads ++ reads') (targets ++ targets') (x >>= f) where
  bound done name := by
    obtain ⟨a, mid, ran, done⟩ := on_bind_eq_ok.1 done
    rw [(next a).bound done, first.bound ran, List.mem_append, or_assoc]
  unbound failed := by
    rcases on_bind_eq_error.1 failed with failed | ⟨a, mid, ran, failed⟩
    · have unbound := first.unbound failed
      exact ⟨List.mem_append_left _ unbound.1, unbound.2⟩
    · have unbound := (next a).unbound failed
      refine ⟨List.mem_append_right _ unbound.1, Bool.eq_false_iff.2 fun before => ?_⟩
      have after := (first.bound ran _).2 (.inl before)
      rw [unbound.2] at after
      cases after

theorem store (name : String) (v : Value) :
    Run.Binds reads [name] (do modify (·.insert name v); return v : Run Value) where
  bound done key := by
    cases done
    rw [NameMap.contains, NameMap.get?_insert, NameMap.contains, List.mem_singleton]
    split <;> simp_all
  unbound failed := by cases failed

theorem lookUp (name : String) {found : Value → Run α}
    (hit : ∀ v, (found v).Binds reads targets) :
    Run.Binds (name :: reads) targets (do
      match (← get).get? name with
      | some v => found v
      | none => MonadExcept.throw (.undefinedVariable name)) where
  bound {env} _ _ done := by
    rw [on_get_bind] at done
    cases value : env.get? name with
    | some v =>
      rw [value] at done
      exact (hit v).bound done
    | none =>
      rw [value] at done
      cases done
  unbound {env} _ _ failed := by
    rw [on_get_bind] at failed
    cases value : env.get? name with
    | some v =>
      rw [value] at failed
      have unbound := (hit v).unbound failed
      exact ⟨List.mem_cons_of_mem _ unbound.1, unbound.2⟩
    | none =>
      rw [value] at failed
      cases failed
      exact ⟨List.mem_cons_self, by rw [NameMap.contains, value]; rfl⟩

end Binds
end Run

namespace Expr

section
variable {limit room : Nat} {last base : Value} {es : List Expr}

theorem runAll_binds (h : ∀ e ∈ es, (evalWithin limit room e).Binds e.reads e.targets) :
    (runAll limit room last es).Binds (es.flatMap reads) (es.flatMap targets) := by
  induction es generalizing last with
  | nil =>
    rw [runAll]
    exact .pure last
  | cons e es ih =>
    obtain ⟨head, tail⟩ := List.forall_mem_cons.1 h
    rw [runAll]
    exact head.bind fun _ => ih tail

theorem followAll_binds (h : ∀ e ∈ es, (evalWithin limit room e).Binds e.reads e.targets) :
    (followAll limit room base es).Binds (es.flatMap reads) (es.flatMap targets) := by
  induction es generalizing base with
  | nil =>
    rw [followAll]
    exact .pure base
  | cons e es ih =>
    obtain ⟨head, tail⟩ := List.forall_mem_cons.1 h
    rw [followAll]
    have step (i : Value) : Run.Binds [] [] (liftExcept (base.index i) : Run Value) :=
      .liftExcept Value.index_ne_undefined
    exact head.bind fun i => (step i).bind fun _ => ih tail

/-- Evaluation binds what the node assigns to, and finds unbound only what it refers to. -/
theorem evalWithin_binds (limit room : Nat) (e : Expr) :
    (evalWithin limit room e).Binds e.reads e.targets := by
  induction room generalizing e with
  | zero =>
    rw [evalWithin]
    refine .throw fun name undefined => ?_
    cases undefined
  | succ room ih =>
    rw [reads_eq, targets_eq]
    cases e with
    | program statements =>
      rw [evalWithin]
      exact runAll_binds fun e _ => ih e
    | assign name value =>
      rw [evalWithin]
      have store (v : Value) : Run.Binds [] [name] _ := .store name v
      refine ((ih value).bind store).congr (by simp [reference?, children]) fun key => ?_
      simp [target?, children, or_comm]
    | «variable» name indices =>
      rw [evalWithin]
      exact .lookUp name fun base => followAll_binds fun e _ => ih e
    | literal l =>
      rw [evalWithin]
      exact .pure l.value
    | unary op operand =>
      rw [evalWithin]
      exact (ih operand).bind fun v => .liftExcept UnaryOp.apply_ne_undefined
    | binary op left right =>
      rw [evalWithin]
      exact (ih left).bind fun l => (ih right).bind fun r => .liftExcept BinaryOp.apply_ne_undefined

/-- The first statement that fails, and what the statements before it leave. -/
theorem exists_failing_statement {env left : Environment} {err : EvalError}
    (failed : (runAll limit room last es).on env = (.error err, left)) :
    ∃ k e v mid, es[k]? = some e ∧ (runAll limit room last (es.take k)).on env = (.ok v, mid) ∧
      (evalWithin limit room e).on mid = (.error err, left) := by
  induction es generalizing last env with
  | nil =>
    rw [runAll] at failed
    cases failed
  | cons e es ih =>
    rw [runAll] at failed
    rcases Run.on_bind_eq_error.1 failed with failed | ⟨v, mid, done, failed⟩
    · refine ⟨0, e, last, env, rfl, ?_, failed⟩
      rw [List.take_zero, runAll, Run.on_pure]
    · obtain ⟨k, found, w, mid', at_k, before, failed⟩ := ih failed
      refine ⟨k + 1, found, w, mid', at_k, ?_, failed⟩
      rw [List.take_succ_cons, runAll, Run.on_bind, done]
      exact before

/-- A program that finds a name unbound does so in a statement that refers to it, and neither the
environment at the start nor a statement before has bound it. -/
theorem used_before_definition {name : String} {env left : Environment}
    (failed : (program es).eval limit env = (.error (.undefinedVariable name), left)) :
    ∃ k e v mid, es[k]? = some e ∧ (program (es.take k)).eval limit env = (.ok v, mid) ∧
      (program [e]).eval limit mid = (.error (.undefinedVariable name), left) ∧
      name ∈ e.reads ∧ env.contains name = false ∧
      ∀ earlier ∈ es.take k, name ∉ earlier.targets := by
  cases limit with
  | zero => cases failed
  | succ room =>
    have onRun (es : List Expr) (env : Environment) : (program es).eval (room + 1) env =
        (runAll (room + 1) room .void es).on env := by
      rw [eval, evalWithin, Run.on]
    rw [onRun] at failed
    obtain ⟨k, e, v, mid, found, before, failed⟩ := exists_failing_statement failed
    refine ⟨k, e, v, mid, found, ?_, ?_, ?_⟩
    · rw [onRun, before]
    · rw [onRun, runAll, Run.on_bind, failed]
      rfl
    · have unbound := (evalWithin_binds (room + 1) room e).unbound failed
      have bound := (runAll_binds fun e _ => evalWithin_binds (room + 1) room e).bound before name
      rw [unbound.2, Bool.false_eq_true, false_iff, not_or, Bool.not_eq_true, List.mem_flatMap]
        at bound
      exact ⟨unbound.1, bound.1, fun earlier mem target => bound.2 ⟨earlier, mem, target⟩⟩

end
end Expr

namespace Tree

open Grammar

mutual

/-- The names that rules called `rule` begin with, from left to right. -/
def namesAt (rule : String) : Tree → List String
  | .terminal _ _ _ => []
  | .rule name children =>
    (if name = rule then Construct.headText? children else none).toList ++ namesAtAll rule children

def namesAtAll (rule : String) : List Tree → List String
  | [] => []
  | t :: ts => namesAt rule t ++ namesAtAll rule ts

end

/-- The names that the variables in the tree refer to. -/
def reads (t : Tree) : List String := t.namesAt Rule.variable.name

/-- The names that are assigned to in the tree. -/
def targets (t : Tree) : List String := t.namesAt Rule.assignVar.name

theorem namesAtAll_eq (rule : String) (ts : List Tree) :
    namesAtAll rule ts = ts.flatMap (namesAt rule) := by
  induction ts with
  | nil => rw [namesAtAll, List.flatMap_nil]
  | cons t ts ih => rw [namesAtAll, ih, List.flatMap_cons]

theorem namesAt_node (r s : Rule) (parts : List Tree) :
    (r.node parts).namesAt s.name =
      (if r = s then Construct.headText? parts else none).toList ++
        parts.flatMap (namesAt s.name) := by
  have same : r.name = s.name ↔ r = s := ⟨Rule.name_injective, congrArg Rule.name⟩
  simp only [Rule.node, namesAt, namesAtAll_eq, same]

end Tree

namespace Grammar

/-- The expression of a tree has the names of the tree. -/
structure SameNames (t : Tree) (e : Expr) : Prop where
  reads : e.reads = t.reads
  targets : e.targets = t.targets

section
variable {r : Rule} {t u : Tree} {d e : Expr}

theorem SameNames.of_forall₂ {parts : List Tree} {es : List Expr}
    (h : List.Forall₂ SameNames parts es) :
    es.flatMap Expr.reads = parts.flatMap Tree.reads ∧
      es.flatMap Expr.targets = parts.flatMap Tree.targets := by
  induction h with
  | nil => exact ⟨rfl, rfl⟩
  | cons head _ ih =>
    simp only [List.flatMap_cons, head.reads, head.targets, ih.1, ih.2, and_self]

/-- A rule that is neither a variable nor an assignment adds no name. -/
theorem SameNames.of_parts {parts : List Tree} (noVariable : r ≠ .variable)
    (noAssignment : r ≠ .assignVar) (reference : e.reference? = none) (target : e.target? = none)
    (h : List.Forall₂ SameNames parts e.children) : SameNames (r.node parts) e where
  reads := by
    rw [Tree.reads, Tree.namesAt_node, if_neg noVariable, e.reads_eq, reference]
    exact (of_forall₂ h).1
  targets := by
    rw [Tree.targets, Tree.namesAt_node, if_neg noAssignment, e.targets_eq, target]
    exact (of_forall₂ h).2

/-- What stands for its only part has the names of the part. -/
theorem SameNames.through (noVariable : r ≠ .variable) (noAssignment : r ≠ .assignVar)
    (h : SameNames t e) : SameNames (r.node [t]) e where
  reads := by
    rw [Tree.reads, Tree.namesAt_node, if_neg noVariable, List.flatMap_singleton]
    exact h.reads
  targets := by
    rw [Tree.targets, Tree.namesAt_node, if_neg noAssignment, List.flatMap_singleton]
    exact h.targets

theorem Derives.sameNames {ts : List Token} {limit room hops : Nat} (h : Derives r ts t)
    (few : hops ≤ r.rung) (compiled : compileAt limit room hops t = .ok e) : SameNames t e := by
  have ne {r s : Rule} (construct : r.construct? ≠ s.construct?) : r ≠ s :=
    fun eq => construct (congrArg Rule.construct? eq)
  refine h.program_induction (P := fun _ t e => SameNames t e)
    ?transparent ?literal ?group ?unary ?binary ?indexed ?assigned ?block few compiled
  case transparent =>
    intro r s parts e through _ ih
    exact ih.through (ne (by rw [through]; nofun)) (ne (by rw [through]; nofun))
  case literal =>
    intro k text span c l _ _
    exact ⟨rfl, rfl⟩
  case group =>
    intro t e ih
    exact ih.through nofun nofun
  case unary =>
    intro r k s op t e _ construct ih
    exact .of_parts (ne (by rw [construct]; nofun)) (ne (by rw [construct]; nofun)) rfl rfl
      (.cons ih .nil)
  case binary =>
    intro r left k right op t u d e _ construct iht ihu
    exact .of_parts (ne (by rw [construct]; nofun)) (ne (by rw [construct]; nofun)) rfl rfl
      (.cons iht (.cons ihu .nil))
  case indexed =>
    intro text span indices es all
    have parts := SameNames.of_forall₂ all
    refine ⟨?_, ?_⟩
    · rw [Tree.reads, Tree.namesAt_node, if_pos rfl, Expr.reads_eq]
      exact congrArg (text :: ·) parts.1
    · rw [Tree.targets, Tree.namesAt_node, if_neg nofun, Expr.targets_eq]
      exact parts.2
  case assigned =>
    intro text span t e ih
    have parts := SameNames.of_forall₂ (.cons ih .nil)
    refine ⟨?_, ?_⟩
    · rw [Tree.reads, Tree.namesAt_node, if_neg nofun, Expr.reads_eq]
      exact parts.1
    · rw [Tree.targets, Tree.namesAt_node, if_pos rfl, Expr.targets_eq]
      exact congrArg (text :: ·) parts.2
  case block =>
    intro lines es all
    exact .of_parts nofun nofun rfl rfl all

theorem exists_of_getElem?_forall₂ {α β : Type} {R : α → β → Prop} {as : List α} {bs : List β}
    {k : Nat} {b : β} (h : List.Forall₂ R as bs) (found : bs[k]? = some b) :
    ∃ a, as[k]? = some a ∧ R a b := by
  induction h generalizing k with
  | nil => cases found
  | cons head _ ih =>
    cases k with
    | zero =>
      cases found
      exact ⟨_, rfl, head⟩
    | succ k => exact ih found

/-- Lines are compiled one by one. -/
theorem compileAll_eq_ok_iff {limit room : Nat} {ts : List Tree} {es : List Expr} :
    Tree.compileAll .standard limit room ts = .ok es ↔
      List.Forall₂ (fun t e => compilePart limit room t = .ok e) ts es := by
  induction ts generalizing es with
  | nil =>
    rw [Tree.compileAll, List.forall₂_nil_left_iff]
    constructor
    · rintro ⟨⟩
      rfl
    · rintro rfl
      rfl
  | cons t ts ih =>
    simp only [compileAll_cons, bind_eq_ok, ih, List.forall₂_cons_left_iff]
    constructor
    · rintro ⟨e, head, es, tail, ⟨⟩⟩
      exact ⟨e, es, head, tail, rfl⟩
    · rintro ⟨e, es, head, tail, rfl⟩
      exact ⟨e, head, es, tail, rfl⟩

end
end Grammar

open Grammar

/-- The lines before `line`, which is number `k`, run on `env`, and on what they leave `line` fails
by itself. -/
def FailsAtLine (limit levels : Nat) (env : Environment) (lines : List Tree) (k : Nat) (line : Tree)
    (err : EvalError) (left : Environment) : Prop :=
  lines[k]? = some line ∧ ∃ before alone v mid,
    (Rule.block.node (lines.take k)).compile .standard limit = .ok before ∧
    before.eval levels env = (.ok v, mid) ∧
    (Rule.block.node [line]).compile .standard limit = .ok alone ∧
    alone.eval levels mid = (.error err, left)

/-- Every line reads only names that are bound at the start or assigned to by a line before it. -/
def DefinedBeforeUse (env : Environment) (lines : List Tree) : Prop :=
  ∀ k line, lines[k]? = some line → ∀ name ∈ line.reads,
    env.contains name ∨ ∃ earlier ∈ lines.take k, name ∈ earlier.targets

instance (env : Environment) (lines : List Tree) : Decidable (DefinedBeforeUse env lines) :=
  decidable_of_iff (∀ k < lines.length, ∀ line ∈ lines[k]?, ∀ name ∈ line.reads,
    env.contains name ∨ ∃ earlier ∈ lines.take k, name ∈ earlier.targets)
    ⟨fun h k line found => h k (List.getElem?_eq_some_iff.1 found).1 line found,
      fun h k _ line found => h k line found⟩

theorem Grammar.line_used_before_definition {limit levels : Nat} {lines : List Tree} {e : Expr}
    {env left : Environment} {name : String} (derived : ∀ l ∈ lines, ∃ ts, Derives .line ts l)
    (compiled : (Rule.block.node lines).compile .standard limit = .ok e)
    (failed : e.eval levels env = (.error (.undefinedVariable name), left)) :
    ∃ k line, FailsAtLine limit levels env lines k line (.undefinedVariable name) left ∧
      name ∈ line.reads ∧ env.contains name = false ∧
      ∀ earlier ∈ lines.take k, name ∉ earlier.targets := by
  obtain ⟨room, es, rfl, all, rfl⟩ := compile_block.1 compiled
  have each := compileAll_eq_ok_iff.1 all
  have names : List.Forall₂ SameNames lines es := by
    refine forall₂_of_compileAll (fun l mem room e compiled => ?_) all
    obtain ⟨ts, line⟩ := derived l mem
    exact line.sameNames (Nat.zero_le _) compiled
  obtain ⟨k, e, v, mid, found, ran, alone, reads, unbound, untargeted⟩ :=
    Expr.used_before_definition failed
  obtain ⟨line, at_k, part⟩ := exists_of_getElem?_forall₂ each found
  obtain ⟨line', at_k', same⟩ := exists_of_getElem?_forall₂ names found
  obtain rfl := Option.some.inj (at_k.symm.trans at_k')
  have before := compileAll_eq_ok_iff.2 (List.forall₂_take k each)
  have single := compileAll_eq_ok_iff.2 (.cons part .nil)
  refine ⟨k, line, ⟨at_k, _, _, v, mid, compile_block.2 ⟨room, _, rfl, before, rfl⟩, ran,
    compile_block.2 ⟨room, _, rfl, single, rfl⟩, alone⟩, same.reads ▸ reads, unbound, ?_⟩
  intro earlier mem target
  have targeted := List.mem_flatMap.2 ⟨earlier, mem, target⟩
  rw [← (SameNames.of_forall₂ (List.forall₂_take k names)).2] at targeted
  obtain ⟨e', mem', target'⟩ := List.mem_flatMap.1 targeted
  exact untargeted e' mem' target'

/-- A program fails for an undefined name exactly where it uses one before it is defined. If it
fails so, then at a line that reads the name, when the name is not bound at the start and no line
before assigns to it. If every name is defined before it is used, then no run fails so, within any
limit. -/
theorem undefined_only_before_definition (source : String) (depth limit levels : Nat) (t : Tree)
    (e : Expr) (env : Environment) (read : parse source .program depth = .ok t)
    (compiled : t.compile .standard limit = .ok e) :
    (∀ name left, e.eval levels env = (.error (.undefinedVariable name), left) →
      ∃ k line, FailsAtLine limit levels env t.children k line (.undefinedVariable name) left ∧
        name ∈ line.reads ∧ env.contains name = false ∧
        ∀ earlier ∈ t.children.take k, name ∉ earlier.targets) ∧
    (DefinedBeforeUse env t.children →
      ∀ name, (e.eval levels env).1 ≠ .error (.undefinedVariable name)) := by
  obtain ⟨toks, lines, _, found, _, rfl⟩ := parse_program_eq_ok_iff.1 read
  refine ⟨fun name left => line_used_before_definition found.lines compiled, ?_⟩
  intro defined name failed
  obtain ⟨k, line, ⟨at_k, _⟩, reads, unbound, untargeted⟩ :=
    line_used_before_definition found.lines compiled (Prod.ext failed rfl)
  rcases defined k line at_k name reads with bound | ⟨earlier, mem, target⟩
  · rw [unbound] at bound
    cases bound
  · exact untargeted earlier mem target

/-- The second line reads the name that it assigns to, so all is well only if that is bound at the
start. -/
theorem undefined_only_before_definition_own_target :
    ∃ t e left k line, parse "a = 1\nb = a[-b]\nb" .program 5 = .ok t ∧
      t.compile .standard 9 = .ok e ∧
      e.eval 9 .empty = (.error (.undefinedVariable "b"), left) ∧
      FailsAtLine 9 9 .empty t.children k line (.undefinedVariable "b") left ∧
      "b" ∈ line.reads ∧ (∀ earlier ∈ t.children.take k, "b" ∉ earlier.targets) ∧
      DefinedBeforeUse (.ofList [("b", .int 0)]) t.children ∧
      ∀ name, (e.eval 9 (.ofList [("b", .int 0)])).1 ≠ .error (.undefinedVariable name) := by
  have compiled : ∃ t, parse "a = 1\nb = a[-b]\nb" .program 5 = .ok t ∧
      t.compile .standard 9 = .ok (.program
        [.assign "a" (.literal (.int 1)),
          .assign "b" (.variable "a" [.unary .negate (.variable "b" [])]),
          .variable "b" []]) := ⟨_, rfl, rfl⟩
  obtain ⟨t, read, compiled⟩ := compiled
  have checked : (parse "a = 1\nb = a[-b]\nb" .program 5).toOption.all fun t =>
      DefinedBeforeUse (.ofList [("b", .int 0)]) t.children := by decide +kernel
  rw [read] at checked
  have defined : DefinedBeforeUse (.ofList [("b", .int 0)]) t.children := of_decide_eq_true checked
  have exactly (env : Environment) :=
    undefined_only_before_definition "a = 1\nb = a[-b]\nb" 5 9 9 t _ env read compiled
  obtain ⟨k, line, at_k, reads, _, earlier⟩ := (exactly .empty).1 "b" _ rfl
  exact ⟨t, _, _, k, line, read, compiled, rfl, at_k, reads, earlier, defined,
    (exactly _).2 defined⟩

end Reckon
