import Mathlib.Order.Lattice
import Mathlib.Data.List.Sort
import Mathlib.Tactic.Common

/-!
# Maps kept as sorted association lists

A finite map over a linearly ordered key type, held as the list of its entries
in ascending key order.  It is the reading of an ordered tree map in which the
only observable difference, the order of iteration, is the list itself; the
ordering travels with the value, so an out-of-order map cannot be built.

## Main definitions

* `SortedMap K V` — entries with strictly ascending keys.
* `SortedMap.find?`, `SortedMap.set`, `SortedMap.erase` — lookup, assignment and
  removal of one key.
* `SortedMap.eraseAll` — removal of a list of keys, one after the other.
* `SortedMap.withEntries` — new values under the old keys.
* `SortedMap.setAll` — assignment of a list of entries, one after the other.

## Main results

* `find?_set`, `find?_erase`, `find?_eraseAll` — each operation against lookup.
* `find?_eq_some_iff` — lookup is membership of the entry.
* `ext_find?` — a map is what lookup finds.
* `setAll_eq_iff` — what a list of assignments does not overwrite.
-/

/-- A finite map: its entries, in strictly ascending key order. -/
structure SortedMap (K V : Type*) [LinearOrder K] where
  /-- The entries, smallest key first. -/
  entries : List (K × V)
  /-- The keys are strictly ascending. -/
  sorted : entries.Pairwise fun a b => a.1 < b.1

namespace SortedMap

variable {K V : Type*} [LinearOrder K]

/-! ### The operations on entry lists -/

/-- Assignment on an entry list: replace the value under `k`, or insert it at
its place. -/
def setEntries (k : K) (v : V) : List (K × V) → List (K × V)
  | [] => [(k, v)]
  | e :: rest =>
      if k < e.1 then (k, v) :: e :: rest
      else if k = e.1 then (k, v) :: rest
      else e :: setEntries k v rest

theorem mem_setEntries {k : K} {v : V} {a : K × V} : ∀ {l : List (K × V)},
    a ∈ setEntries k v l → a = (k, v) ∨ a ∈ l := by
  intro l
  induction l with
  | nil => intro h; exact Or.inl (List.mem_singleton.mp h)
  | cons e rest ih =>
    intro h
    rw [setEntries] at h
    split_ifs at h with h1 h2
    · exact List.mem_cons.mp h
    · rcases List.mem_cons.mp h with h | h
      · exact Or.inl h
      · exact Or.inr (List.mem_cons_of_mem _ h)
    · rcases List.mem_cons.mp h with h | h
      · exact Or.inr (h ▸ List.mem_cons_self)
      · exact (ih h).imp id (List.mem_cons_of_mem _)

theorem sorted_setEntries (k : K) (v : V) : ∀ {l : List (K × V)},
    (l.Pairwise fun a b => a.1 < b.1) → (setEntries k v l).Pairwise fun a b => a.1 < b.1 := by
  intro l
  induction l with
  | nil => intro _; exact List.pairwise_singleton _ _
  | cons e rest ih =>
    intro h
    have hrest : ∀ a ∈ rest, e.1 < a.1 := fun a ha => List.rel_of_pairwise_cons h ha
    rw [setEntries]
    split_ifs with h1 h2
    · refine h.cons fun a ha => ?_
      rcases List.mem_cons.mp ha with rfl | ha
      · exact h1
      · exact lt_trans h1 (hrest a ha)
    · exact h.of_cons.cons fun a ha => h2 ▸ hrest a ha
    · refine (ih h.of_cons).cons fun a ha => ?_
      rcases mem_setEntries ha with rfl | ha
      · exact lt_of_le_of_ne (not_lt.mp h1) (Ne.symm h2)
      · exact hrest a ha

/-! ### The map -/

/-- The map with no entry. -/
def empty : SortedMap K V := ⟨[], List.Pairwise.nil⟩

/-- The value stored under `k`. -/
def find? (m : SortedMap K V) (k : K) : Option V := m.entries.lookup k

/-- The value stored under `k`, or `d` when there is none. -/
def getD (m : SortedMap K V) (k : K) (d : V) : V := (m.find? k).getD d

/-- Assignment `m[k] = v`. -/
def set (m : SortedMap K V) (k : K) (v : V) : SortedMap K V :=
  ⟨setEntries k v m.entries, sorted_setEntries k v m.sorted⟩

/-- Removal of the key `k`, if present. -/
def erase (m : SortedMap K V) (k : K) : SortedMap K V :=
  ⟨m.entries.filter fun e => e.1 ≠ k, m.sorted.filter _⟩

/-- Removal of every key of `ks`, one after the other. -/
def eraseAll (m : SortedMap K V) (ks : List K) : SortedMap K V := ks.foldl erase m

/-- The map with the same keys and new values, given as an entry list. -/
def withEntries (m : SortedMap K V) (l : List (K × V))
    (h : l.map Prod.fst = m.entries.map Prod.fst) : SortedMap K V :=
  ⟨l, List.pairwise_map.mp (h ▸ List.pairwise_map.mpr m.sorted)⟩

theorem find?_withEntries (m : SortedMap K V) (l : List (K × V))
    (h : l.map Prod.fst = m.entries.map Prod.fst) (k : K) :
    (m.withEntries l h).find? k = l.lookup k := rfl

/-! ### Lookup -/

/-- Lookup at the head, as a case distinction on equality of keys. -/
theorem lookup_cons (k : K) (e : K × V) (l : List (K × V)) :
    (e :: l).lookup k = if k = e.1 then some e.2 else l.lookup k := by
  obtain ⟨a, b⟩ := e
  rw [List.lookup_cons]
  by_cases h : k = a
  · simp [h]
  · rw [beq_eq_false_iff_ne.mpr h, if_neg h]

theorem lookup_eq_none_of_forall_ne {k : K} {l : List (K × V)} (h : ∀ a ∈ l, a.1 ≠ k) :
    l.lookup k = none := by
  rw [List.lookup_eq_none_iff]
  intro a ha
  simpa using Ne.symm (h a ha)

theorem lookup_eq_some_iff {k : K} {v : V} : ∀ {l : List (K × V)},
    (l.Pairwise fun a b => a.1 < b.1) → (l.lookup k = some v ↔ (k, v) ∈ l) := by
  intro l
  induction l with
  | nil => intro _; simp
  | cons e rest ih =>
    intro h
    rw [lookup_cons, List.mem_cons]
    split_ifs with hk
    · -- the head has the key, and no later entry does
      have hnot : (k, v) ∉ rest := fun hmem =>
        (ne_of_lt (show e.1 < k from List.rel_of_pairwise_cons h hmem)) hk.symm
      rw [or_iff_left hnot]
      simp [Prod.ext_iff, hk, eq_comm]
    · have hne : (k, v) ≠ e := fun he => hk (congrArg Prod.fst he)
      simp [hne, ih h.of_cons]

/-- Lookup is membership of the entry. -/
theorem find?_eq_some_iff {m : SortedMap K V} {k : K} {v : V} :
    m.find? k = some v ↔ (k, v) ∈ m.entries := lookup_eq_some_iff m.sorted

theorem lookup_setEntries (k : K) (v : V) (k' : K) : ∀ l : List (K × V),
    (setEntries k v l).lookup k' = if k' = k then some v else l.lookup k' := by
  intro l
  induction l with
  | nil => rw [setEntries, lookup_cons]
  | cons e rest ih =>
    rw [setEntries]
    by_cases h1 : k < e.1
    · rw [if_pos h1, lookup_cons]
    · rw [if_neg h1]
      by_cases h2 : k = e.1
      · rw [if_pos h2, lookup_cons, lookup_cons]
        by_cases h3 : k' = k <;> simp [h3, ← h2]
      · rw [if_neg h2, lookup_cons, lookup_cons, ih]
        by_cases h3 : k' = k
        · simp [h3, h2]
        · simp [h3]

theorem find?_set (m : SortedMap K V) (k : K) (v : V) (k' : K) :
    (m.set k v).find? k' = if k' = k then some v else m.find? k' :=
  lookup_setEntries k v k' m.entries

theorem setEntries_of_mem {k : K} {v : V} : ∀ {l : List (K × V)},
    (l.Pairwise fun a b => a.1 < b.1) → (k, v) ∈ l → setEntries k v l = l := by
  intro l
  induction l with
  | nil => intro _ h; exact absurd h List.not_mem_nil
  | cons e rest ih =>
    intro hl h
    rw [setEntries]
    rcases List.mem_cons.mp h with rfl | hrest
    · rw [if_neg (lt_irrefl k), if_pos rfl]
    · have hlt : e.1 < k := List.rel_of_pairwise_cons hl hrest
      rw [if_neg (not_lt_of_gt hlt), if_neg (ne_of_gt hlt), ih hl.of_cons hrest]

/-- Assigning the value that is there changes nothing. -/
theorem set_of_find?_eq_some {m : SortedMap K V} {k : K} {v : V} (h : m.find? k = some v) :
    m.set k v = m := by
  obtain ⟨entries, sorted⟩ := m
  have hset : setEntries k v entries = entries :=
    setEntries_of_mem sorted (find?_eq_some_iff.mp h)
  simp only [set, hset]

theorem getD_set (m : SortedMap K V) (k : K) (v : V) (k' : K) (d : V) :
    (m.set k v).getD k' d = if k' = k then v else m.getD k' d := by
  rw [getD, find?_set]
  split_ifs <;> rfl

theorem find?_erase (m : SortedMap K V) (k k' : K) :
    (m.erase k).find? k' = if k' = k then none else m.find? k' := by
  split_ifs with h
  · exact lookup_eq_none_of_forall_ne fun a ha => h ▸ by simpa using (List.mem_filter.mp ha).2
  · apply Option.ext
    intro v
    rw [find?_eq_some_iff, find?_eq_some_iff, erase, List.mem_filter]
    simp [h]

/-- Removing a list of keys is removing the keys in it. -/
theorem find?_eraseAll (k' : K) : ∀ (ks : List K) (m : SortedMap K V),
    (m.eraseAll ks).find? k' = if k' ∈ ks then none else m.find? k' := by
  intro ks
  induction ks with
  | nil => intro m; simp [eraseAll]
  | cons k ks ih =>
    intro m
    have h := ih (m.erase k)
    rw [eraseAll] at h ⊢
    rw [List.foldl_cons, h, find?_erase]
    by_cases h1 : k' ∈ ks <;> by_cases h2 : k' = k <;> simp [h1, h2]

/-! ### Assigning a list of entries -/

/-- Assignment of the entries of a list, one after the other. -/
def setAll (m : SortedMap K V) (l : List (K × V)) : SortedMap K V :=
  l.foldl (fun m e => m.set e.1 e.2) m

@[simp] theorem setAll_nil (m : SortedMap K V) : m.setAll [] = m := rfl

@[simp] theorem setAll_cons (m : SortedMap K V) (e : K × V) (l : List (K × V)) :
    m.setAll (e :: l) = (m.set e.1 e.2).setAll l := rfl

/-- A map is what lookup finds. -/
theorem ext_find? {m m' : SortedMap K V} (h : ∀ k, m.find? k = m'.find? k) : m = m' := by
  have hnodup : ∀ m : SortedMap K V, m.entries.Nodup := fun m =>
    m.sorted.imp fun {a b} hlt heq => ne_of_lt hlt (congrArg Prod.fst heq)
  have hmem : ∀ e : K × V, e ∈ m.entries ↔ e ∈ m'.entries := by
    rintro ⟨k, v⟩
    rw [← find?_eq_some_iff, ← find?_eq_some_iff, h]
  have hperm := (List.perm_ext_iff_of_nodup (hnodup m) (hnodup m')).mpr hmem
  have heq : m.entries = m'.entries :=
    hperm.eq_of_pairwise (fun a b _ _ hab hba => absurd hab (lt_asymm hba)) m.sorted m'.sorted
  obtain ⟨l, hl⟩ := m
  obtain ⟨l', hl'⟩ := m'
  obtain rfl : l = l' := heq
  rfl

theorem find?_setAll_of_notMem {k : K} : ∀ {l : List (K × V)} (m : SortedMap K V),
    k ∉ l.map Prod.fst → (m.setAll l).find? k = m.find? k := by
  intro l
  induction l with
  | nil => intro m _; rfl
  | cons e l ih =>
    intro m h
    rw [List.map_cons, List.mem_cons, not_or] at h
    rw [setAll_cons, ih _ h.2, find?_set, if_neg h.1]

/-- What is assigned does not depend on what was there before. -/
theorem find?_setAll_of_mem {k : K} : ∀ {l : List (K × V)} (m m' : SortedMap K V),
    k ∈ l.map Prod.fst → (m.setAll l).find? k = (m'.setAll l).find? k := by
  intro l
  induction l with
  | nil => intro m m' h; exact absurd h List.not_mem_nil
  | cons e l ih =>
    intro m m' h
    rw [setAll_cons, setAll_cons]
    by_cases hl : k ∈ l.map Prod.fst
    · exact ih _ _ hl
    · -- it is assigned now, and not again
      obtain rfl : k = e.1 := (List.mem_cons.mp h).resolve_right hl
      rw [find?_setAll_of_notMem _ hl, find?_setAll_of_notMem _ hl, find?_set, find?_set,
        if_pos rfl, if_pos rfl]

/-- The keys that are not assigned keep what they had. -/
theorem setAll_eq_iff {m m' : SortedMap K V} {l : List (K × V)} :
    m.setAll l = m'.setAll l ↔ ∀ k, k ∉ l.map Prod.fst → m.find? k = m'.find? k := by
  constructor
  · intro h k hk
    rw [← find?_setAll_of_notMem m hk, ← find?_setAll_of_notMem m' hk, h]
  · intro h
    apply ext_find?
    intro k
    by_cases hk : k ∈ l.map Prod.fst
    · exact find?_setAll_of_mem m m' hk
    · rw [find?_setAll_of_notMem m hk, find?_setAll_of_notMem m' hk, h k hk]

end SortedMap
