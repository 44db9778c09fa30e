import Mathlib.Data.ENat.Lattice
import Mathlib.Data.Set.Card
import Mathlib.Data.Set.Finite.Lemmas
import Mathlib.Order.Lattice
import Mathlib.Tactic.Common

/-!
# The first few in line

Indices from a linear order are busy or not.  Turn after turn the `c` smallest
busy ones are served, or all of them if there are fewer.  Between two turns busy
indices may fall away, but no new ones come.  Nothing is remembered from one turn
to the next; all the same, who has been served once is served at every turn until
it falls away.

## Main definitions

* `Priority.ahead busy k` — the busy indices before `k`.
* `Priority.turn c busy` — the first `c` busy indices.
* `Priority.IsFirst c busy l` — `l` lists the first `c` busy indices in their order.
* `Priority.started c busy n` — who was served before turn `n`.

## Main results

* `encard_turn_le` — no more than `c` are served at once.
* `mem_take_iff`, `isFirst_take` — the first `c` elements of a sorted list.
* `started_inter_subset_turn` — **no preemption**: who was served and is still
  busy is served again.
* `lt_of_mem_started` — **in order**: who was served comes before who was not.
-/

namespace Priority

variable {K : Type*} [LinearOrder K]

/-- The busy indices before `k`. -/
def ahead (busy : Set K) (k : K) : Set K := {k' ∈ busy | k' < k}

/-- The first `c` of the busy indices. -/
def turn (c : ℕ) (busy : Set K) : Set K := {k ∈ busy | (ahead busy k).encard < c}

theorem turn_subset (c : ℕ) (busy : Set K) : turn c busy ⊆ busy := fun _ h => h.1

theorem ahead_subset {busy busy' : Set K} {k k' : K} (hsub : busy' ⊆ busy) (hle : k' ≤ k) :
    ahead busy' k' ⊆ ahead busy k := fun _ h => ⟨hsub h.1, lt_of_lt_of_le h.2 hle⟩

/-- A turn is kept when others fall away, and shared by whoever comes before. -/
theorem mem_turn_of_le {c : ℕ} {busy busy' : Set K} {k k' : K} (hk : k ∈ turn c busy)
    (hsub : busy' ⊆ busy) (hk' : k' ∈ busy') (hle : k' ≤ k) : k' ∈ turn c busy' :=
  ⟨hk', lt_of_le_of_lt (Set.encard_le_encard (ahead_subset hsub hle)) hk.2⟩

/-- No more than `c` are served at once. -/
theorem encard_turn_le (c : ℕ) (busy : Set K) : (turn c busy).encard ≤ c := by
  by_contra hlt
  -- the last of `c + 1` that are served has `c` ahead of it
  obtain ⟨t, ht, hcard⟩ :=
    Set.exists_subset_encard_eq (Order.add_one_le_of_lt (not_le.mp hlt) : (c : ℕ∞) + 1 ≤ _)
  have hfin : t.Finite := Set.finite_of_encard_eq_coe (k := c + 1) (by rw [hcard]; rfl)
  have hne : t.Nonempty := by
    rw [← Set.encard_ne_zero, hcard]
    simp
  obtain ⟨k, hk, hmax⟩ := Set.exists_max_image t id hfin hne
  have hsub : t \ {k} ⊆ ahead busy k := fun k' hk' =>
    ⟨turn_subset c busy (ht hk'.1), lt_of_le_of_ne (hmax k' hk'.1) hk'.2⟩
  have hdiff : (t \ {k}).encard = c := by
    have hadd := Set.encard_sdiff_singleton_add_one hk
    rw [hcard] at hadd
    exact WithTop.add_right_cancel WithTop.one_ne_top hadd
  have hle := Set.encard_le_encard hsub
  rw [hdiff] at hle
  exact absurd (ht hk).2 (not_lt.mpr hle)

/-- Nothing comes before the head of a sorted list. -/
theorem ahead_head {a : K} {l : List K} (hl : (a :: l).Pairwise (· < ·)) :
    ahead {k' | k' ∈ a :: l} a = ∅ := by
  apply Set.eq_empty_of_forall_notMem
  intro k' hk'
  rcases List.mem_cons.mp hk'.1 with rfl | hmem
  · exact lt_irrefl _ hk'.2
  · exact lt_asymm hk'.2 (List.rel_of_pairwise_cons hl hmem)

/-- The head of a sorted list comes before every other element. -/
theorem ahead_cons {a k : K} {l : List K} (hl : (a :: l).Pairwise (· < ·)) (hk : k ∈ l) :
    ahead {k' | k' ∈ a :: l} k = insert a (ahead {k' | k' ∈ l} k) := by
  ext k'
  simp only [ahead, Set.mem_ofPred_eq, List.mem_cons, Set.mem_insert_iff]
  constructor
  · rintro ⟨rfl | hmem, hlt⟩
    · exact Or.inl rfl
    · exact Or.inr ⟨hmem, hlt⟩
  · rintro (rfl | ⟨hmem, hlt⟩)
    · exact ⟨Or.inl rfl, List.rel_of_pairwise_cons hl hk⟩
    · exact ⟨Or.inr hmem, hlt⟩

/-- Behind the head of a sorted list the head counts as one more. -/
theorem encard_ahead_cons_lt_iff {a k : K} {l : List K} {c : ℕ}
    (hl : (a :: l).Pairwise (· < ·)) (hk : k ∈ l) :
    (ahead {k' | k' ∈ a :: l} k).encard < (c + 1 : ℕ)
      ↔ (ahead {k' | k' ∈ l} k).encard < c := by
  have hnot : a ∉ ahead {k' | k' ∈ l} k := fun h =>
    lt_irrefl a (List.rel_of_pairwise_cons hl h.1)
  rw [ahead_cons hl hk, Set.encard_insert_of_notMem hnot, Nat.cast_add, Nat.cast_one]
  exact WithTop.add_lt_add_iff_right WithTop.one_ne_top

/-- The first `c` elements of a sorted list are those with less than `c` elements
before them. -/
theorem mem_take_iff {k : K} : ∀ {l : List K} {c : ℕ}, l.Pairwise (· < ·) →
    (k ∈ l.take c ↔ k ∈ turn c {k' | k' ∈ l}) := by
  intro l
  induction l with
  | nil =>
    intro c _
    rw [List.take_nil]
    exact ⟨fun h => absurd h List.not_mem_nil, fun h => absurd h.1 List.not_mem_nil⟩
  | cons a l ih =>
    intro c hl
    cases c with
    | zero => simp [turn]
    | succ c =>
      rw [List.take_succ_cons, List.mem_cons, ih hl.of_cons]
      constructor
      · rintro (rfl | ⟨hk, hlt⟩)
        · refine ⟨List.mem_cons_self, ?_⟩
          rw [ahead_head hl, Set.encard_empty]
          exact_mod_cast Nat.succ_pos c
        · exact ⟨List.mem_cons_of_mem a hk, (encard_ahead_cons_lt_iff hl hk).2 hlt⟩
      · rintro ⟨hk, hlt⟩
        rcases List.mem_cons.mp hk with rfl | hk
        · exact Or.inl rfl
        · exact Or.inr ⟨hk, (encard_ahead_cons_lt_iff hl hk).1 hlt⟩

/-- The list holds the first `c` of the busy indices in ascending order, or all of
them if there are fewer. -/
structure IsFirst (c : ℕ) (busy : Set K) (l : List K) : Prop where
  sorted : l.Pairwise (· < ·)
  subset : ∀ k ∈ l, k ∈ busy
  length : (l.length : ℕ∞) = min (c : ℕ∞) busy.encard
  lt : ∀ k ∈ l, ∀ k' ∈ busy, k' ∉ l → k < k'

theorem encard_mem_list {l : List K} (hl : l.Nodup) : {k | k ∈ l}.encard = l.length := by
  rw [← List.coe_toFinset, Set.encard_coe_eq_coe_finsetCard, List.toFinset_card_of_nodup hl]

/-- The first `c` elements of a sorted list, as a list. -/
theorem isFirst_take {l : List K} (hl : l.Pairwise (· < ·)) (c : ℕ) :
    IsFirst c {k | k ∈ l} (l.take c) where
  sorted := hl.sublist (List.take_sublist c l)
  subset := fun k hk => List.mem_of_mem_take hk
  length := by
    rw [encard_mem_list (hl.imp fun h => h.ne), List.length_take]
    exact_mod_cast rfl
  lt := by
    intro k hk k' hk' hnot
    -- what is not among the first is behind them
    rw [← List.take_append_drop c l] at hl hk'
    rcases List.mem_append.mp hk' with hmem | hmem
    · exact absurd hmem hnot
    · exact (List.pairwise_append.mp hl).2.2 k hk k' hmem

/-! ### Turn after turn -/

section Turns

variable {c : ℕ} {busy : ℕ → Set K}

/-- Who was served before turn `n`. -/
def started (c : ℕ) (busy : ℕ → Set K) (n : ℕ) : Set K := {k | ∃ i < n, k ∈ turn c (busy i)}

@[simp] theorem started_zero : started c busy 0 = ∅ := by simp [started]

theorem started_succ (n : ℕ) : started c busy (n + 1) = started c busy n ∪ turn c (busy n) := by
  ext k
  simp only [started, Set.mem_ofPred_eq, Set.mem_union, Nat.lt_succ_iff_lt_or_eq]
  constructor
  · rintro ⟨i, hi | rfl, hk⟩
    · exact Or.inl ⟨i, hi, hk⟩
    · exact Or.inr hk
  · rintro (⟨i, hi, hk⟩ | hk)
    · exact ⟨i, Or.inl hi, hk⟩
    · exact ⟨n, Or.inr rfl, hk⟩

/-- Nobody becomes busy again. -/
def Decreasing (busy : ℕ → Set K) : Prop := ∀ i j, i ≤ j → busy j ⊆ busy i

/-- Who was served and is still busy is served again. -/
theorem started_inter_subset_turn (hbusy : Decreasing busy) (n : ℕ) :
    started c busy n ∩ busy n ⊆ turn c (busy n) := by
  rintro k ⟨⟨i, hi, hk⟩, hkn⟩
  exact mem_turn_of_le hk (hbusy i n hi.le) hkn le_rfl

/-- No more than `c` were served and are still busy. -/
theorem encard_started_inter_le (hbusy : Decreasing busy) (n : ℕ) :
    (started c busy n ∩ busy n).encard ≤ c :=
  (Set.encard_le_encard (started_inter_subset_turn hbusy n)).trans (encard_turn_le c (busy n))

/-- Who was served comes before who is busy and was not. -/
theorem lt_of_mem_started (hbusy : Decreasing busy) {n : ℕ} {k k' : K}
    (hk' : k' ∈ started c busy n) (hk : k ∈ busy n) (hnot : k ∉ started c busy n) : k' < k := by
  obtain ⟨i, hi, hturn⟩ := hk'
  by_contra hle
  -- else `k` would have been served along with `k'`
  exact hnot ⟨i, hi, mem_turn_of_le hturn le_rfl (hbusy i n hi.le hk) (not_lt.mp hle)⟩

end Turns

end Priority
