import AndrenBoost.Multiplex.Concurrency

/-!
# One fetch, entry by entry

The loop over a map counts the packages it has taken, goes past the deques it finds
empty, and stops at the limit; the entries it went past are erased afterwards.  What
comes of it is said here without the loop: which ids give a package, and what every
entry of every map is after the call.

## Main definitions

* `EntryAfter` — what a fetch may make of the entry of an id.

## Main results

* `find?_fetchQueue` — the entries of a map after the loop and the erasure.
* `fetch_spec` — **the specification of a fetch**, from any state of the sender.
-/

namespace AndrenBoost.Multiplex

/-! ### One queue -/

/-- The entries of a map after the loop and the erasure. -/
theorem find?_fetchQueue {need : ℕ} (hneed : 0 < need) (map : SortedMap UInt64 (List Bytes))
    (id : UInt64) : (fetchQueue need map).2.find? id
      = if id ∈ (scan need 0 map.entries).dropList then none
        else (map.find? id).map fun que =>
          if id ∈ servedIds need map.entries then que.tail else que := by
  have hlookup := lookup_scan id map.entries 0 hneed
  rw [Nat.sub_zero] at hlookup
  simp only [fetchQueue]
  rw [SortedMap.find?_eraseAll, SortedMap.find?_withEntries, hlookup]
  rfl

/-- Only empty deques are erased. -/
theorem find?_of_mem_dropList {need : ℕ} {map : SortedMap UInt64 (List Bytes)} {id : UInt64}
    (h : id ∈ (scan need 0 map.entries).dropList) : map.find? id = some [] :=
  SortedMap.find?_eq_some_iff.mpr (mem_of_mem_dropList map.entries 0 h).1

/-! ### All queues -/

/-- What a fetch may make of the entry of an id: a deque that is served loses its
front, a deque that is not empty and not served stays, and an empty one stays or is
removed. -/
structure EntryAfter (m m' : MultiplexManager) (first : List UInt64) (q : QueueNum)
    (id : UInt64) : Prop where
  served : id ∈ first → (m'.readySend q).find? id = some (m.pending (q, id)).tail
  kept : id ∈ busyIds m q → id ∉ first → (m'.readySend q).find? id = (m.readySend q).find? id
  idle : id ∉ busyIds m q → (m'.readySend q).find? id = (m.readySend q).find? id
    ∨ ((m.readySend q).find? id = some [] ∧ (m'.readySend q).find? id = none)

/-- The deque of a busy id. -/
theorem find?_of_mem_busyIds {m : MultiplexManager} {q : QueueNum} {id : UInt64}
    (h : id ∈ busyIds m q) : (m.readySend q).find? id = some (m.pending (q, id)) := by
  have hne : m.pending (q, id) ≠ [] := h
  rw [MultiplexManager.pending, SortedMap.getD] at hne ⊢
  cases hfind : (m.readySend q).find? id with
  | none =>
    rw [hfind] at hne
    exact absurd rfl hne
  | some que => rfl

/-- The entries of a queue's map after a fetch. -/
theorem find?_fetchSomeDataToSend (m : MultiplexManager) (q : QueueNum) (id : UInt64) :
    ((fetchSomeDataToSend m).2.readySend q).find? id
      = if id ∈ (scan (queConcurrentMap q) 0 (m.readySend q).entries).dropList then none
        else ((m.readySend q).find? id).map fun que =>
          if id ∈ servedIds (queConcurrentMap q) (m.readySend q).entries then que.tail
          else que := by
  rw [fetchSomeDataToSend, (fetchQueues_spec m QueueNum.nodup_all).2,
    if_pos (QueueNum.mem_all q), find?_fetchQueue (queConcurrentMap_pos q)]

theorem entryAfter_fetch (m : MultiplexManager) (q : QueueNum) (id : UInt64) :
    EntryAfter m (fetchSomeDataToSend m).2
      (servedIds (queConcurrentMap q) (m.readySend q).entries) q id := by
  have hfind := find?_fetchSomeDataToSend m q id
  -- an erased entry belongs to an id that was not busy
  have hbusy : id ∈ busyIds m q →
      id ∉ (scan (queConcurrentMap q) 0 (m.readySend q).entries).dropList := by
    intro hid hdrop
    have hentry := find?_of_mem_busyIds hid
    rw [find?_of_mem_dropList hdrop, Option.some.injEq] at hentry
    exact hid hentry.symm
  constructor
  · intro hserved
    have hid : id ∈ busyIds m q := (isFirst_servedIds m q _).subset id hserved
    rw [hfind, if_neg (hbusy hid), find?_of_mem_busyIds hid, Option.map_some, if_pos hserved]
  · intro hid hserved
    rw [hfind, if_neg (hbusy hid), find?_of_mem_busyIds hid, Option.map_some, if_neg hserved]
  · intro hid
    have hserved : id ∉ servedIds (queConcurrentMap q) (m.readySend q).entries :=
      fun h => hid ((isFirst_servedIds m q _).subset id h)
    by_cases hdrop : id ∈ (scan (queConcurrentMap q) 0 (m.readySend q).entries).dropList
    · exact Or.inr ⟨find?_of_mem_dropList hdrop, by rw [hfind, if_pos hdrop]⟩
    · refine Or.inl ?_
      rw [hfind, if_neg hdrop]
      simp [hserved]

/-- The packages of one queue are the fronts of the ids that are served. -/
theorem map_some_head {m : MultiplexManager} {q : QueueNum} {ids : List UInt64}
    (h : ∀ id ∈ ids, id ∈ busyIds m q) :
    (ids.flatMap fun id => (m.pending (q, id)).head?.toList).map some
      = ids.map fun id => (m.pending (q, id)).head? := by
  induction ids with
  | nil => rfl
  | cons id ids ih =>
    rw [List.forall_mem_cons] at h
    obtain ⟨front, que, hcons⟩ :=
      List.exists_cons_of_ne_nil (show m.pending (q, id) ≠ [] from h.1)
    rw [List.flatMap_cons, List.map_append, ih h.2, List.map_cons, hcons]
    rfl

/-- **The specification of a fetch.**  From any state, every queue in turn gives the
front packages of its first busy ids, as many as its limit allows; and exactly these
deques have lost their front, while of the others only empty ones are removed. -/
theorem fetch_spec (m : MultiplexManager) :
    ∃ first : QueueNum → List UInt64,
      (∀ q, Priority.IsFirst (queConcurrentMap q) (busyIds m q) (first q)) ∧
      (fetchSomeDataToSend m).1.map some
        = QueueNum.all.flatMap (fun q => (first q).map fun id => (m.pending (q, id)).head?) ∧
      ∀ q id, EntryAfter m (fetchSomeDataToSend m).2 (first q) q id := by
  refine ⟨fun q => servedIds (queConcurrentMap q) (m.readySend q).entries,
    fun q => isFirst_servedIds m q _, ?_, entryAfter_fetch m⟩
  rw [fst_fetchSomeDataToSend, Fifo.serveOut, served, List.flatMap_assoc, List.map_flatMap]
  refine List.flatMap_congr fun q _ => ?_
  rw [List.flatMap_map]
  exact map_some_head (isFirst_servedIds m q _).subset

end AndrenBoost.Multiplex
