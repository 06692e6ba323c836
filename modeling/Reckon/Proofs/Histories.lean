import Reckon.Command
import Reckon.Proofs.ByteOrder
import Mathlib.Data.List.Induction

/-!
What a map of names holds is read off the changes it went through: under a name stands what the last
change to touch the name put there. The listing of the map follows the bytes of the names, so it
depends on the last values alone, and with it what an outcome prints. It is also what sorting the
bindings comes to, in whatever order they are taken up.
-/

namespace Reckon

section
variable {σ : Type} {puts touches : σ → Prop} {steps : List σ} {last : σ}

/-- One of the steps puts something in a place, and no later one touches the place. -/
def PutLast (puts touches : σ → Prop) (steps : List σ) : Prop :=
  ∃ before step after, steps = before ++ step :: after ∧ puts step ∧ ∀ later ∈ after, ¬touches later

theorem not_putLast_nil : ¬PutLast puts touches [] := by
  rintro ⟨before, step, after, split, -⟩
  exact List.append_ne_nil_of_right_ne_nil before (List.cons_ne_nil step after) split.symm

theorem putLast_concat :
    PutLast puts touches (steps ++ [last]) ↔
      puts last ∨ ¬touches last ∧ PutLast puts touches steps := by
  constructor
  · rintro ⟨before, step, after, split, put, apart⟩
    rcases List.eq_nil_or_concat after with rfl | ⟨after, final, rfl⟩
    · obtain ⟨-, same⟩ := List.append_inj' split rfl
      exact .inl (List.singleton_inj.1 same ▸ put)
    · rw [List.concat_eq_append] at split apart
      have split : steps ++ [last] = (before ++ step :: after) ++ [final] := by simpa using split
      obtain ⟨rfl, same⟩ := List.append_inj' split rfl
      obtain rfl := List.singleton_inj.1 same
      obtain ⟨apart, untouched⟩ := List.forall_mem_append.1 apart
      exact .inr ⟨untouched last List.mem_cons_self, before, step, after, rfl, put, apart⟩
  · rintro (put | ⟨untouched, before, step, after, rfl, put, apart⟩)
    · exact ⟨steps, last, [], rfl, put, List.forall_mem_nil _⟩
    · refine ⟨before, step, after ++ [last], List.append_assoc .., put, ?_⟩
      exact List.forall_mem_append.2 ⟨apart, List.forall_mem_singleton.2 untouched⟩

end

namespace NameMap

section
variable {α : Type} {m : NameMap α} {name : String} {a : α} {entries : List (String × α)}

theorem mem_iff_lookup (ascending : Ascending entries) :
    (name, a) ∈ entries ↔ lookup name entries = some a := by
  induction entries with
  | nil => simp [lookup]
  | cons entry entries ih =>
    rw [List.mem_cons, ih ascending.of_cons, lookup]
    by_cases eq : entry.1 = name
    · have above : lookup name entries = none :=
        lookup_eq_none_of_lt fun other mem => eq ▸ List.rel_of_pairwise_cons ascending mem
      rw [if_pos eq, above]
      grind
    · rw [if_neg eq]
      grind

/-- The listing has exactly the bindings. -/
theorem mem_toList : (name, a) ∈ m.toList ↔ m.get? name = some a :=
  mem_iff_lookup m.ascending

/-- The order of the names is the order of their bytes. -/
theorem ascending_bytes (m : NameMap α) : m.toList.Pairwise fun a b => BytesLt a.1 b.1 :=
  m.ascending.imp bytesLt_iff.2

theorem nodup_names (ascending : Ascending entries) : (entries.map Prod.fst).Nodup :=
  List.pairwise_map.2 (ascending.imp fun lt => String.ne_of_lt lt)

theorem perm_toList (once : entries.Nodup)
    (members : ∀ name a, (name, a) ∈ entries ↔ m.get? name = some a) : entries.Perm m.toList := by
  rw [List.perm_ext_iff_of_nodup once (nodup_names m.ascending).of_map]
  exact fun entry => (members entry.1 entry.2).trans mem_toList.symm

/-- Sorting the bindings by their names gives the listing, in whatever order they are taken up. -/
theorem mergeSort_eq_toList (once : entries.Nodup)
    (members : ∀ name a, (name, a) ∈ entries ↔ m.get? name = some a) :
    entries.mergeSort (fun a b => a.1 ≤ b.1) = m.toList := by
  have transitive (a b c : String × α) :
      decide (a.1 ≤ b.1) → decide (b.1 ≤ c.1) → decide (a.1 ≤ c.1) := by
    simpa using String.le_trans
  have total (a b : String × α) : decide (a.1 ≤ b.1) || decide (b.1 ≤ a.1) := by
    simpa using String.le_total ..
  have sorted : (entries.mergeSort (fun a b => a.1 ≤ b.1)).Pairwise fun a b => a.1 ≤ b.1 := by
    simpa using List.pairwise_mergeSort transitive total entries
  have listed : m.toList.Pairwise fun a b => a.1 ≤ b.1 :=
    m.ascending.imp fun lt => String.not_lt.1 (String.lt_asymm lt)
  have same := (List.mergeSort_perm entries (fun a b => a.1 ≤ b.1)).trans
    (perm_toList once members)
  refine List.Perm.eq_of_pairwise ?_ sorted listed same
  -- Of two bindings with one name there is one value.
  rintro ⟨name, a⟩ ⟨name', b⟩ first second le ge
  obtain rfl := String.le_antisymm le ge
  have bound := mem_toList.1 (same.subset first)
  rw [mem_toList.1 second] at bound
  rw [Option.some.inj bound]

theorem get?_insertMany (entries : List (String × α)) :
    (m.insertMany entries).get? name = some a ↔
      PutLast (· = (name, a)) (·.1 = name) entries ∨
        (∀ entry ∈ entries, entry.1 ≠ name) ∧ m.get? name = some a := by
  induction entries using List.reverseRecOn with
  | nil => simp [not_putLast_nil, insertMany]
  | append_singleton entries entry ih =>
    rw [insertMany_append, putLast_concat, List.forall_mem_append, List.forall_mem_singleton]
    simp only [insertMany, List.foldl_cons, List.foldl_nil, get?_insert] at ih ⊢
    by_cases eq : name = entry.1
    · rw [if_pos eq]
      grind
    · rw [if_neg eq, ih]
      grind

end

/-- A change of a map. -/
inductive Change (α : Type) where
  | assign (name : String) (a : α)
  | remove (name : String)
  | extend (entries : List (String × α))
  | clear

namespace Change

section
variable {α : Type}

/-- Makes the change. Assigning and removing answer with what stood under the name before. -/
def apply (m : NameMap α) : Change α → Option α × NameMap α
  | .assign name a => (m.get? name, m.insert name a)
  | .remove name => (m.get? name, m.erase name)
  | .extend entries => (none, m.insertMany entries)
  | .clear => (none, .empty)

/-- The map after some changes, from the empty one on. -/
def run (changes : List (Change α)) : NameMap α :=
  changes.foldl (fun m change => (change.apply m).2) .empty

/-- The change leaves `a` under the name. Of several entries for one name the last one counts. -/
def Puts (name : String) (a : α) : Change α → Prop
  | .assign key b => (key, b) = (name, a)
  | .remove _ => False
  | .extend entries => PutLast (· = (name, a)) (·.1 = name) entries
  | .clear => False

/-- The change assigns to the name or drops what stands there. -/
def Touches (name : String) : Change α → Prop
  | .assign key _ => key = name
  | .remove key => key = name
  | .extend entries => ∃ entry ∈ entries, entry.1 = name
  | .clear => True

/-- The name was last assigned `a`, and neither removed nor cleared away since. -/
abbrev LastValue (name : String) (a : α) (changes : List (Change α)) : Prop :=
  PutLast (·.Puts name a) (·.Touches name) changes

end

section
variable {α : Type} {m : NameMap α} {name : String} {a : α}

theorem get?_apply (change : Change α) :
    (change.apply m).2.get? name = some a ↔
      change.Puts name a ∨ ¬change.Touches name ∧ m.get? name = some a := by
  cases change with
  | assign key b =>
    simp only [apply, Puts, Touches, get?_insert]
    grind
  | remove key =>
    simp only [apply, Puts, Touches, get?_erase]
    grind
  | extend entries =>
    simpa only [apply, Puts, Touches, not_exists, not_and] using get?_insertMany entries
  | clear => simp [apply, Puts, Touches]

theorem get?_run (changes : List (Change α)) :
    (run changes).get? name = some a ↔ LastValue name a changes := by
  induction changes using List.reverseRecOn with
  | nil => simp [run, not_putLast_nil]
  | append_singleton changes change ih =>
    rw [LastValue, putLast_concat]
    rw [LastValue] at ih
    rw [← ih, ← get?_apply, run, List.foldl_concat, run]

theorem run_congr {changes others : List (Change α)}
    (same : ∀ name a, LastValue name a changes ↔ LastValue name a others) :
    run changes = run others := by
  refine ext_get? fun name => Option.ext fun a => ?_
  rw [get?_run, get?_run, same]

end

end Change
end NameMap

section
open NameMap NameMap.Change

/-- Whatever changes variables went through, they are listed by the bytes of their names, with the
values last assigned and not removed or cleared away since, and counted by the listing. A change
answers with the binding listed before it. Sorting the bindings from any order gives the listing,
and two histories with the same last values print the same. -/
theorem environment_listing (changes : List (Change Value)) :
    (run changes).toList.Pairwise (fun a b => BytesLt a.1 b.1) ∧
      (∀ name v, (name, v) ∈ (run changes).toList ↔ LastValue name v changes) ∧
      (run changes).size = (run changes).toList.length ∧
      (∀ name v new, ((Change.assign name new).apply (run changes)).1 = some v ↔
        (name, v) ∈ (run changes).toList) ∧
      (∀ name v, ((Change.remove name).apply (run changes)).1 = some v ↔
        (name, v) ∈ (run changes).toList) ∧
      (∀ bindings : List (String × Value), bindings.Nodup →
        (∀ name v, (name, v) ∈ bindings ↔ LastValue name v changes) →
          bindings.mergeSort (fun a b => a.1 ≤ b.1) = (run changes).toList ∧
            bindings.length = (run changes).size) ∧
      ∀ others, (∀ name v, LastValue name v changes ↔ LastValue name v others) →
        (run changes).toList = (run others).toList ∧
          ∀ value nodes, (Outcome.mk value (run changes) nodes).render =
            (Outcome.mk value (run others) nodes).render := by
  refine ⟨ascending_bytes _, fun name v => mem_toList.trans (get?_run changes), rfl,
    fun name v new => mem_toList.symm, fun name v => mem_toList.symm, ?_, ?_⟩
  · intro bindings once members
    have members (name : String) (v : Value) :
        (name, v) ∈ bindings ↔ (run changes).get? name = some v := by
      rw [members, get?_run]
    exact ⟨mergeSort_eq_toList once members, (perm_toList once members).length_eq⟩
  · intro others same
    rw [run_congr same]
    exact ⟨rfl, fun _ _ => rfl⟩

theorem environment_listing_overwritten :
    ∃ changes others : List (Change Value),
      changes = [.assign "b" (.int 1), .extend [("é", .int 2), ("a", .int 3), ("é", .int 4)],
        .remove "b", .assign "b" (.int 5)] ∧
      others = [.assign "c" (.int 0), .clear, .assign "b" (.int 5), .assign "é" (.int 4),
        .assign "a" (.int 3)] ∧
      (∀ name v, LastValue name v changes ↔ LastValue name v others) ∧
      (run changes).toList = [("a", .int 3), ("b", .int 5), ("é", .int 4)] ∧
      (run changes).toList = (run others).toList ∧
      (Outcome.mk .void (run changes) 1).render = (Outcome.mk .void (run others) 1).render := by
  have same (name : String) (v : Value) :
      LastValue name v [.assign "b" (.int 1),
          .extend [("é", .int 2), ("a", .int 3), ("é", .int 4)], .remove "b",
          .assign "b" (.int 5)] ↔
        LastValue name v [.assign "c" (.int 0), .clear, .assign "b" (.int 5), .assign "é" (.int 4),
          .assign "a" (.int 3)] := by
    rw [← get?_run, ← get?_run]
    rfl
  obtain ⟨-, -, -, -, -, -, independent⟩ := environment_listing
    [.assign "b" (.int 1), .extend [("é", .int 2), ("a", .int 3), ("é", .int 4)], .remove "b",
      .assign "b" (.int 5)]
  obtain ⟨listing, printed⟩ := independent _ same
  exact ⟨_, _, rfl, rfl, same, rfl, listing, printed _ _⟩

end

end Reckon
