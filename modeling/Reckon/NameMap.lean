/-!
Finite maps from names, listed in the order of the names. The entries are kept sorted, which is
part of the type, so two maps with the same lookups are the same map.
-/

namespace Reckon

/-- Names in strictly increasing order. -/
abbrev Ascending {α : Type} (entries : List (String × α)) : Prop :=
  entries.Pairwise fun a b => a.1 < b.1

/-- A finite map from names to `α`. -/
structure NameMap (α : Type) where
  toList : List (String × α)
  ascending : Ascending toList

namespace NameMap

variable {α : Type}

/-- The value under `name`. -/
def lookup (name : String) : List (String × α) → Option α
  | [] => none
  | (key, a) :: rest => if key = name then some a else lookup name rest

/-- The list with `name` put to `a` in its place. -/
def put (name : String) (a : α) : List (String × α) → List (String × α)
  | [] => [(name, a)]
  | (key, b) :: rest =>
    if name < key then (name, a) :: (key, b) :: rest
    else if name = key then (name, a) :: rest
    else (key, b) :: put name a rest

/-- The list without `name`. -/
def drop (name : String) (entries : List (String × α)) : List (String × α) :=
  entries.filter fun entry => entry.1 ≠ name

theorem mem_put {name : String} {a : α} {entry : String × α} {entries : List (String × α)} :
    entry ∈ put name a entries → entry = (name, a) ∨ entry ∈ entries := by
  fun_induction put name a entries with
  | case1 => simp
  | case2 key b rest _ => simp
  | case3 b rest _ => grind
  | case4 key b rest _ _ ih => grind

theorem ascending_put {name : String} {a : α} {entries : List (String × α)}
    (h : Ascending entries) : Ascending (put name a entries) := by
  fun_induction put name a entries with
  | case1 => simp
  | case2 key b rest lt =>
    refine List.Pairwise.cons ?_ h
    intro entry mem
    rcases List.mem_cons.1 mem with rfl | mem
    · exact lt
    · exact String.lt_trans lt (List.rel_of_pairwise_cons h mem)
  | case3 b rest _ =>
    exact List.Pairwise.cons (fun entry mem => List.rel_of_pairwise_cons h mem) h.of_cons
  | case4 key b rest notLt ne ih =>
    refine List.Pairwise.cons ?_ (ih h.of_cons)
    intro entry mem
    rcases mem_put mem with rfl | mem
    · exact String.not_le.1 fun le => ne (String.le_antisymm le (String.not_lt.1 notLt))
    · exact List.rel_of_pairwise_cons h mem

theorem lookup_eq_none_of_lt {name : String} {entries : List (String × α)}
    (h : ∀ entry ∈ entries, name < entry.1) : lookup name entries = none := by
  induction entries with
  | nil => rfl
  | cons head rest ih =>
    have ne : head.1 ≠ name := fun eq =>
      String.lt_irrefl name (eq ▸ h head (List.mem_cons_self))
    rw [lookup, if_neg ne]
    exact ih fun entry mem => h entry (List.mem_cons_of_mem _ mem)

theorem lookup_put (name key : String) (a : α) (entries : List (String × α)) :
    lookup key (put name a entries) = if key = name then some a else lookup key entries := by
  fun_induction put name a entries with
  | case1 => simp only [lookup, eq_comm]
  | case2 first b rest lt => simp only [lookup, eq_comm]
  | case3 b rest _ => grind [lookup]
  | case4 first b rest _ ne ih => grind [lookup]

theorem lookup_drop (name key : String) (entries : List (String × α)) :
    lookup key (drop name entries) = if key = name then none else lookup key entries := by
  induction entries with
  | nil => simp [drop, lookup]
  | cons head rest ih => grind [drop, lookup]

theorem eq_of_lookup_eq {xs ys : List (String × α)} (hx : Ascending xs) (hy : Ascending ys)
    (h : ∀ name, lookup name xs = lookup name ys) : xs = ys := by
  induction xs generalizing ys with
  | nil =>
    cases ys with
    | nil => rfl
    | cons y ys => simpa [lookup] using h y.1
  | cons x xs ih =>
    cases ys with
    | nil => simpa [lookup] using h x.1
    | cons y ys =>
      have above {z : String × α} {zs : List (String × α)} (hz : Ascending (z :: zs))
          {name : String} (lt : name < z.1) : lookup name (z :: zs) = none := by
        apply lookup_eq_none_of_lt
        intro entry mem
        rcases List.mem_cons.1 mem with rfl | mem
        · exact lt
        · exact String.lt_trans lt (List.rel_of_pairwise_cons hz mem)
      have key : x.1 = y.1 := by
        apply String.le_antisymm
        · apply String.not_lt.1
          intro lt
          have := h y.1
          rw [above hx lt] at this
          simp [lookup] at this
        · apply String.not_lt.1
          intro lt
          have := h x.1
          rw [above hy lt] at this
          simp [lookup] at this
      have value : x.2 = y.2 := by simpa [lookup, key] using h x.1
      have heads : x = y := Prod.ext key value
      subst heads
      congr 1
      apply ih hx.of_cons hy.of_cons
      intro name
      by_cases eq : x.1 = name
      · subst eq
        rw [lookup_eq_none_of_lt fun entry mem => List.rel_of_pairwise_cons hx mem,
          lookup_eq_none_of_lt fun entry mem => List.rel_of_pairwise_cons hy mem]
      · simpa [lookup, eq] using h name

def empty : NameMap α := ⟨[], List.Pairwise.nil⟩

instance : EmptyCollection (NameMap α) := ⟨empty⟩

def get? (m : NameMap α) (name : String) : Option α := lookup name m.toList

def contains (m : NameMap α) (name : String) : Bool := (m.get? name).isSome

def size (m : NameMap α) : Nat := m.toList.length

def isEmpty (m : NameMap α) : Bool := m.toList.isEmpty

/-- Creates or overwrites the entry of `name`. -/
def insert (m : NameMap α) (name : String) (a : α) : NameMap α :=
  ⟨put name a m.toList, ascending_put m.ascending⟩

def erase (m : NameMap α) (name : String) : NameMap α :=
  ⟨drop name m.toList, m.ascending.filter _⟩

/-- Inserts the entries in order, so that the last one of a name counts. -/
def insertMany (m : NameMap α) (entries : List (String × α)) : NameMap α :=
  entries.foldl (fun m entry => m.insert entry.1 entry.2) m

def ofList (entries : List (String × α)) : NameMap α := empty.insertMany entries

instance [BEq α] : BEq (NameMap α) := ⟨fun m n => m.toList == n.toList⟩

@[simp] theorem get?_empty (name : String) : (empty : NameMap α).get? name = none := rfl

theorem get?_insert (m : NameMap α) (name key : String) (a : α) :
    (m.insert name a).get? key = if key = name then some a else m.get? key :=
  lookup_put name key a m.toList

theorem get?_erase (m : NameMap α) (name key : String) :
    (m.erase name).get? key = if key = name then none else m.get? key :=
  lookup_drop name key m.toList

theorem insertMany_append (m : NameMap α) (first second : List (String × α)) :
    m.insertMany (first ++ second) = (m.insertMany first).insertMany second :=
  List.foldl_append

/-- Entries under other names leave the value of a name as it is. -/
theorem get?_insertMany_of_ne {name : String} {entries : List (String × α)}
    (h : ∀ entry ∈ entries, entry.1 ≠ name) (m : NameMap α) :
    (m.insertMany entries).get? name = m.get? name := by
  induction entries generalizing m with
  | nil => rfl
  | cons entry entries ih =>
    obtain ⟨head, tail⟩ := List.forall_mem_cons.1 h
    rw [insertMany, List.foldl_cons, ← insertMany, ih tail, get?_insert, if_neg (Ne.symm head)]

/-- Maps that agree on a name still do after the same entries have been inserted into both. -/
theorem get?_insertMany_congr {name : String} {m n : NameMap α} (h : m.get? name = n.get? name)
    (entries : List (String × α)) :
    (m.insertMany entries).get? name = (n.insertMany entries).get? name := by
  induction entries generalizing m n with
  | nil => exact h
  | cons entry entries ih =>
    have head : (m.insert entry.1 entry.2).get? name = (n.insert entry.1 entry.2).get? name := by
      rw [get?_insert, get?_insert, h]
    exact ih head

/-- Inserting removes nothing. -/
theorem contains_insertMany {name : String} {m : NameMap α} (h : m.contains name)
    (entries : List (String × α)) : (m.insertMany entries).contains name := by
  induction entries generalizing m with
  | nil => exact h
  | cons entry entries ih =>
    have head : (m.insert entry.1 entry.2).contains name := by
      rw [contains, get?_insert]
      split
      · rfl
      · exact h
    exact ih head

theorem ext_get? {m n : NameMap α} (h : ∀ name, m.get? name = n.get? name) : m = n := by
  obtain ⟨xs, hx⟩ := m
  obtain ⟨ys, hy⟩ := n
  obtain rfl := eq_of_lookup_eq hx hy h
  rfl

theorem get?_insertMany_ascending {entries : List (String × α)} (h : Ascending entries)
    (m : NameMap α) (name : String) :
    (m.insertMany entries).get? name = (lookup name entries).or (m.get? name) := by
  induction entries generalizing m with
  | nil => rfl
  | cons entry entries ih =>
    rw [insertMany, List.foldl_cons, ← insertMany, ih h.of_cons, get?_insert, lookup]
    by_cases eq : entry.1 = name
    · have above : lookup name entries = none :=
        lookup_eq_none_of_lt fun other mem => eq ▸ List.rel_of_pairwise_cons h mem
      rw [if_pos eq, if_pos eq.symm, above, Option.none_or, Option.some_or]
    · rw [if_neg eq, if_neg (Ne.symm eq)]

theorem ofList_toList (m : NameMap α) : ofList m.toList = m := by
  refine ext_get? fun name => ?_
  rw [ofList, get?_insertMany_ascending m.ascending, get?_empty, Option.or_none, get?]

end NameMap

end Reckon
