import AndrenBoost.Lib.Priority
import Mathlib.Algebra.Order.BigOperators.Group.Finset

/-!
# How long the first few take

Every index has some work left.  In a round the first `c` indices that have any are
served, and each loses one unit; between rounds work may be added.  An index waits
only while `c` smaller ones are served, so the work before it pays for its waiting:
`c` times the work of the index and the work before it are together a potential that
every round in which the index is busy lowers by `c`.

## Main definitions

* `Priority.Round c load load' l` — a round that serves `l`.
* `Priority.workBefore s k load` — the work of the indices in `s` before `k`.

## Main results

* `IsFirst.length_eq_of_notMem` — who waits sees `c` others served.
* `Round.potential_le` — **a round lowers the potential by `c`**.
-/

namespace Priority

variable {K : Type*} [LinearOrder K]

/-- Who waits sees `c` others served. -/
theorem IsFirst.length_eq_of_notMem {c : ℕ} {busy : Set K} {l : List K} {k : K}
    (h : IsFirst c busy l) (hk : k ∈ busy) (hnot : k ∉ l) : l.length = c := by
  have hnodup : l.Nodup := h.sorted.imp fun hlt => hlt.ne
  -- the list and the index that waits are more busy ones than the list holds
  have hmore : ((l.length + 1 : ℕ) : ℕ∞) ≤ busy.encard := by
    have hsub : insert k {k' | k' ∈ l} ⊆ busy := Set.insert_subset hk h.subset
    have hcard := Set.encard_le_encard hsub
    rw [Set.encard_insert_of_notMem (s := {k' | k' ∈ l}) hnot, encard_mem_list hnodup] at hcard
    exact_mod_cast hcard
  have hlen := h.length
  rcases le_total (c : ℕ∞) busy.encard with hle | hle
  · rw [min_eq_left hle] at hlen
    exact_mod_cast hlen
  · rw [min_eq_right hle] at hlen
    rw [← hlen] at hmore
    exact absurd (by exact_mod_cast hmore : l.length + 1 ≤ l.length) (by omega)

/-- A round: the first `c` indices with work left lose one unit each. -/
structure Round (c : ℕ) (load load' : K → ℕ) (l : List K) : Prop where
  first : IsFirst c {k | load k ≠ 0} l
  served : ∀ k ∈ l, load' k + 1 = load k
  other : ∀ k, k ∉ l → load' k = load k

/-- The work of the indices of `s` before `k`. -/
def workBefore (s : Finset K) (k : K) (load : K → ℕ) : ℕ := ∑ k' ∈ s with k' < k, load k'

section Round

variable {c : ℕ} {load load' : K → ℕ} {l : List K} {k : K} {s : Finset K}

theorem Round.load_le (h : Round c load load' l) (k : K) : load' k ≤ load k := by
  by_cases hk : k ∈ l
  · have := h.served k hk
    omega
  · exact (h.other k hk).le

theorem Round.workBefore_le (h : Round c load load' l) :
    workBefore s k load' ≤ workBefore s k load :=
  Finset.sum_le_sum fun k' _ => h.load_le k'

/-- When only smaller indices are served, the work before `k` goes down by their
number. -/
theorem Round.workBefore_add_length (h : Round c load load' l) (hs : ∀ k' ∈ l, k' ∈ s)
    (hlt : ∀ k' ∈ l, k' < k) : workBefore s k load' + l.length = workBefore s k load := by
  have hnodup : l.Nodup := h.first.sorted.imp fun hlt => hlt.ne
  have hset : ({k' ∈ s | k' < k} : Finset K).filter (fun k' => k' ∈ l) = l.toFinset := by
    ext k'
    simp only [Finset.mem_filter, List.mem_toFinset]
    exact ⟨fun hmem => hmem.2, fun hmem => ⟨⟨hs k' hmem, hlt k' hmem⟩, hmem⟩⟩
  have hcount : l.length = ∑ k' ∈ s with k' < k, if k' ∈ l then 1 else 0 := by
    rw [← Finset.sum_filter, hset, Finset.sum_const, smul_eq_mul, mul_one,
      List.toFinset_card_of_nodup hnodup]
  rw [hcount, workBefore, workBefore, ← Finset.sum_add_distrib]
  refine Finset.sum_congr rfl fun k' _ => ?_
  split_ifs with hmem
  · exact h.served k' hmem
  · rw [h.other k' hmem, add_zero]

/-- **A round lowers the potential by `c`** as long as the index has work left. -/
theorem Round.potential_le (h : Round c load load' l) (hs : ∀ k', load k' ≠ 0 → k' < k → k' ∈ s)
    (hk : load k ≠ 0) :
    workBefore s k load' + c * load' k + c ≤ workBefore s k load + c * load k := by
  by_cases hmem : k ∈ l
  · -- it is served itself
    have hle := h.workBefore_le (s := s) (k := k)
    rw [← h.served k hmem, Nat.mul_add, Nat.mul_one]
    omega
  · -- `c` smaller ones are served
    have hlt : ∀ k' ∈ l, k' < k := fun k' hk' => h.first.lt k' hk' k hk hmem
    have hsum := h.workBefore_add_length (fun k' hk' => hs k' (h.first.subset k' hk') (hlt k' hk'))
      hlt
    rw [h.first.length_eq_of_notMem hk hmem] at hsum
    rw [h.other k hmem]
    omega

end Round

/-! ### New work -/

section Update

variable {load : K → ℕ} {k k' : K} {s : Finset K} {n : ℕ}

/-- New work for an index before `k` adds at most itself to the work before `k`. -/
theorem workBefore_update_le :
    workBefore s k (Function.update load k' n) ≤ workBefore s k load + n := by
  have hle : ∀ x, Function.update load k' n x ≤ load x + if x = k' then n else 0 := by
    intro x
    by_cases hx : x = k'
    · subst hx
      simp
    · simp [hx]
  calc workBefore s k (Function.update load k' n)
      ≤ ∑ x ∈ s with x < k, (load x + if x = k' then n else 0) := Finset.sum_le_sum fun x _ => hle x
    _ = workBefore s k load + ∑ x ∈ s with x < k, if x = k' then n else 0 := by
      rw [Finset.sum_add_distrib, workBefore]
    _ ≤ workBefore s k load + n := by
      rw [Finset.sum_ite_eq']
      split_ifs <;> omega

/-- New work elsewhere adds nothing. -/
theorem workBefore_update_of_not_lt (h : ¬ k' < k) :
    workBefore s k (Function.update load k' n) = workBefore s k load := by
  refine Finset.sum_congr rfl fun x hx => Function.update_of_ne ?_ _ _
  rintro rfl
  exact h (Finset.mem_filter.mp hx).2

end Update

end Priority
