import Mathlib.Data.List.Basic
import Mathlib.Tactic.Common
import Mathlib.Tactic.Ring

/-!
# Cutting a list into segments

The reference cutting of a list into consecutive segments of `s` elements: all
of them full but the last, and one empty segment for the empty list.

## Main definitions

* `segmentCount s n` — the number of segments of a list of length `n`.
* `segments s l` — the segments of `l`.

## Main results

* `flatten_segments` — the segments in order are the list.
* `length_of_mem_segments` — every segment is full or what is left over.
* `exists_length_eq_iff` — when a segment of a given short length occurs.
* `exists_segments_eq_append` — full segments, and the last one.
-/

variable {α : Type*}

/-- How many segments a list of length `n` is cut into: `⌈n / s⌉`, and one for
the empty list. -/
def segmentCount (s n : ℕ) : ℕ := max 1 ((n + s - 1) / s)

/-- The segments of `l`: the `i`-th starts at position `i * s`. -/
def segments (s : ℕ) (l : List α) : List (List α) :=
  (List.range (segmentCount s l.length)).map fun i => (l.drop (i * s)).take s

theorem segmentCount_pos (s n : ℕ) : 0 < segmentCount s n := by
  unfold segmentCount
  omega

/-- A list shorter than a segment is one segment. -/
theorem segmentCount_of_lt {s n : ℕ} (h : n < s) : segmentCount s n = 1 := by
  unfold segmentCount
  have : (n + s - 1) / s < 2 := (Nat.div_lt_iff_lt_mul (by omega)).mpr (by omega)
  omega

/-- From one full segment on, the count is the number of full segments, and one
more if something is left over. -/
theorem segmentCount_of_ge {s n : ℕ} (hs : 0 < s) (h : s ≤ n) :
    segmentCount s n = n / s + if 0 < n % s then 1 else 0 := by
  have hn := Nat.div_add_mod' n s
  have hmod := Nat.mod_lt n hs
  have hdiv : (n + s - 1) / s = n / s + if 0 < n % s then 1 else 0 := by
    rw [Nat.div_eq_iff hs, Nat.add_mul]
    split_ifs <;> omega
  have hpos : 0 < n / s := Nat.div_pos h hs
  rw [segmentCount, hdiv]
  omega

theorem length_segments (s : ℕ) (l : List α) :
    (segments s l).length = segmentCount s l.length := by
  rw [segments, List.length_map, List.length_range]

theorem segments_ne_nil (s : ℕ) (l : List α) : segments s l ≠ [] := by
  rw [← List.length_pos_iff, length_segments]
  exact segmentCount_pos s _

/-- The segments cover the list. -/
theorem le_segmentCount_mul {s : ℕ} (hs : 0 < s) (n : ℕ) : n ≤ segmentCount s n * s := by
  rcases Nat.lt_or_ge n s with h | h
  · rw [segmentCount_of_lt h]
    omega
  · have hn := Nat.div_add_mod' n s
    have hmod := Nat.mod_lt n hs
    rw [segmentCount_of_ge hs h, Nat.add_mul]
    split_ifs <;> omega

theorem flatten_map_range (s : ℕ) (l : List α) : ∀ n : ℕ,
    ((List.range n).map fun i => (l.drop (i * s)).take s).flatten = l.take (n * s) := by
  intro n
  induction n with
  | zero => simp
  | succ n ih =>
    rw [List.range_succ, List.map_append, List.flatten_append, ih, List.map_singleton,
      List.flatten_singleton, Nat.succ_mul, List.take_add]

/-- The segments in order are the list. -/
theorem flatten_segments {s : ℕ} (hs : 0 < s) (l : List α) : (segments s l).flatten = l := by
  rw [segments, flatten_map_range, List.take_of_length_le (le_segmentCount_mul hs _)]

/-- Every segment but the last is full, and the last one holds what is left
over: all of a short list, and otherwise the remainder, or `s` when there is
none. -/
theorem length_segment {s : ℕ} (hs : 0 < s) (l : List α) {i : ℕ}
    (hi : i < segmentCount s l.length) :
    ((l.drop (i * s)).take s).length
      = if i < l.length / s then s else l.length % s := by
  have hn := Nat.div_add_mod' l.length s
  have hmod := Nat.mod_lt l.length hs
  rw [List.length_take, List.length_drop]
  split_ifs with h
  · have : (i + 1) * s ≤ l.length / s * s := Nat.mul_le_mul_right s h
    rw [Nat.add_mul] at this
    omega
  · -- the one segment beyond the full ones
    have hi' : i = l.length / s := by
      rcases Nat.lt_or_ge l.length s with hl | hl
      · rw [segmentCount_of_lt hl] at hi
        rw [Nat.div_eq_of_lt hl] at h ⊢
        omega
      · rw [segmentCount_of_ge hs hl] at hi
        split_ifs at hi <;> omega
    subst hi'
    omega

/-- Every segment is full or what is left over. -/
theorem length_of_mem_segments {s : ℕ} (hs : 0 < s) {l seg : List α} (h : seg ∈ segments s l) :
    seg.length = s ∨ seg.length = l.length % s := by
  obtain ⟨i, hi, rfl⟩ := List.mem_map.mp h
  rw [length_segment hs l (List.mem_range.mp hi)]
  split_ifs
  · exact Or.inl rfl
  · exact Or.inr rfl

theorem length_le_of_mem_segments {s : ℕ} (hs : 0 < s) {l seg : List α}
    (h : seg ∈ segments s l) : seg.length ≤ s := by
  have := Nat.mod_lt l.length hs
  rcases length_of_mem_segments hs h with h | h <;> omega

/-- A segment of a short non-zero length occurs exactly when the list leaves
that length over. -/
theorem exists_length_eq_iff {s k : ℕ} (hk : 0 < k) (hks : k < s) (l : List α) :
    (∃ seg ∈ segments s l, seg.length = k) ↔ l.length % s = k := by
  have hs : 0 < s := by omega
  constructor
  · rintro ⟨seg, hseg, hlen⟩
    rcases length_of_mem_segments hs hseg with h | h <;> omega
  · intro h
    -- the last segment
    have hi : l.length / s < segmentCount s l.length := by
      rcases Nat.lt_or_ge l.length s with hl | hl
      · rw [Nat.div_eq_of_lt hl]
        exact segmentCount_pos s _
      · rw [segmentCount_of_ge hs hl, if_pos (by omega)]
        omega
    refine ⟨_, List.mem_map.mpr ⟨l.length / s, List.mem_range.mpr hi, rfl⟩, ?_⟩
    rw [length_segment hs l hi, if_neg (lt_irrefl _), h]

/-- A list is one segment exactly when it fits in one. -/
theorem length_segments_eq_one_iff {s : ℕ} (hs : 0 < s) (l : List α) :
    (segments s l).length = 1 ↔ l.length ≤ s := by
  rw [length_segments]
  have hn := Nat.div_add_mod' l.length s
  have hmod := Nat.mod_lt l.length hs
  rcases Nat.lt_or_ge l.length s with h | h
  · simp [segmentCount_of_lt h, h.le]
  · rw [segmentCount_of_ge hs h]
    have hpos : 0 < l.length / s := Nat.div_pos h hs
    constructor
    · intro h1
      split_ifs at h1 with hr
      · omega
      · rw [Nat.add_zero] at h1
        rw [h1] at hn
        omega
    · intro h1
      have : l.length = s := by omega
      rw [this, Nat.div_self hs, Nat.mod_self]
      rfl

/-- Full segments come first, and the last one is empty for the empty list only. -/
theorem exists_segments_eq_append {s : ℕ} (hs : 0 < s) (l : List α) :
    ∃ init last, segments s l = init ++ [last] ∧ (∀ seg ∈ init, seg.length = s) ∧
      last.length ≤ s ∧ (last.length = 0 ↔ l.length = 0) := by
  obtain ⟨k, hk⟩ : ∃ k, segmentCount s l.length = k + 1 :=
    Nat.exists_eq_succ_of_ne_zero (segmentCount_pos s _).ne'
  have hlast := length_segment hs l (i := k) (by omega)
  have hmod := Nat.mod_lt l.length hs
  refine ⟨(List.range k).map fun i => (l.drop (i * s)).take s, (l.drop (k * s)).take s, ?_, ?_,
    ?_, ?_⟩
  · rw [segments, hk, List.range_succ, List.map_append, List.map_singleton]
  · intro seg hseg
    obtain ⟨i, hi, rfl⟩ := List.mem_map.mp hseg
    rw [List.mem_range] at hi
    have hfull : i < l.length / s := by
      rcases Nat.lt_or_ge l.length s with hl | hl
      · rw [segmentCount_of_lt hl] at hk
        omega
      · rw [segmentCount_of_ge hs hl] at hk
        split_ifs at hk <;> omega
    rw [length_segment hs l (by omega), if_pos hfull]
  · rw [hlast]
    split_ifs <;> omega
  · rw [hlast]
    rcases Nat.lt_or_ge l.length s with hl | hl
    · rw [Nat.div_eq_of_lt hl, if_neg (Nat.not_lt_zero k), Nat.mod_eq_of_lt hl]
    · -- nothing is left over only where the last segment is full
      rw [segmentCount_of_ge hs hl] at hk
      split_ifs at hk ⊢ <;> omega
