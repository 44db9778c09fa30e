import AndrenBoost.Lib.Priority
import AndrenBoost.Multiplex.Conservation

/-!
# Tasks in progress

The sender does not record which tasks it has begun to send.  Each fetch scans a
queue from its smallest id on, and it follows from that alone that a task once
begun gets a package out with every fetch until it is finished, that no more
tasks are in progress than the queue's limit allows, and that tasks begin in the
order of their ids.

## Main definitions

* `busyIds` — the ids of a queue that have something pending.
* `addThenFetch` — tasks are added, and then only fetched.
* `startedIds` — the ids of a queue that have a package in a stream.

## Main results

* `mem_servedIds_iff` — a fetch serves the first few busy ids.
* `startedIds_fetches` — the ids started are those that had a turn.
* `bounded_concurrency` — **the law of the tasks in progress**.
-/

namespace AndrenBoost.Multiplex

/-! ### Whose turn it is -/

/-- The ids of a queue that have something pending. -/
def busyIds (m : MultiplexManager) (q : QueueNum) : Set UInt64 := {id | m.pending (q, id) ≠ []}

/-- The ids of the deques that are not empty, in the order of the map. -/
theorem sorted_filter (m : MultiplexManager) (q : QueueNum) :
    (((m.readySend q).entries.filter fun e => e.2 ≠ []).map Prod.fst).Pairwise (· < ·) :=
  List.pairwise_map.mpr ((m.readySend q).sorted.filter _)

theorem setOf_mem_filter (m : MultiplexManager) (q : QueueNum) :
    {id | id ∈ ((m.readySend q).entries.filter fun e => e.2 ≠ []).map Prod.fst}
      = busyIds m q := Set.ext fun _ => pending_ne_nil_iff.symm

/-- A fetch serves the first few busy ids. -/
theorem mem_servedIds_iff {m : MultiplexManager} {q : QueueNum} {id : UInt64} {n : ℕ} :
    id ∈ servedIds n (m.readySend q).entries ↔ id ∈ Priority.turn n (busyIds m q) := by
  rw [servedIds, List.map_take, Priority.mem_take_iff (sorted_filter m q), setOf_mem_filter]

/-- A fetch serves them in ascending order. -/
theorem isFirst_servedIds (m : MultiplexManager) (q : QueueNum) (n : ℕ) :
    Priority.IsFirst n (busyIds m q) (servedIds n (m.readySend q).entries) := by
  rw [servedIds, List.map_take, ← setOf_mem_filter]
  exact Priority.isFirst_take (sorted_filter m q) n

theorem mem_served_iff {m : MultiplexManager} {q : QueueNum} {id : UInt64} :
    (q, id) ∈ served m QueueNum.all
      ↔ id ∈ Priority.turn (queConcurrentMap q) (busyIds m q) := by
  rw [mem_served, mem_servedIds_iff]

/-- Fetching makes no id busy. -/
theorem busyIds_fetch_subset (m : MultiplexManager) (q : QueueNum) :
    busyIds (fetchSomeDataToSend m).2 q ⊆ busyIds m q := by
  intro id hid hnil
  refine hid ?_
  rw [pending_fetchSomeDataToSend, Fifo.serveNext, hnil]
  split_ifs <;> rfl

/-! ### The strings of one fetch -/

/-- A task that has its turn gets one package out. -/
theorem length_fetchedFor_fetch {m : MultiplexManager} (htag : Fifo.Tagged keyOf m.pending)
    {q : QueueNum} {id : UInt64}
    (hturn : id ∈ Priority.turn (queConcurrentMap q) (busyIds m q)) :
    (fetchedFor (q, id) (fetchSomeDataToSend m).1).length = 1 := by
  rw [fetchedFor, fst_fetchSomeDataToSend, Fifo.sent_serveOut htag _ (nodup_served m),
    if_pos (mem_served_iff.mpr hturn)]
  obtain ⟨front, que, hcons⟩ :=
    List.exists_cons_of_ne_nil (show m.pending (q, id) ≠ [] from hturn.1)
  rw [hcons]
  rfl

/-- The others get none. -/
theorem fetchedFor_fetch_eq_nil {m : MultiplexManager} (htag : Fifo.Tagged keyOf m.pending)
    {q : QueueNum} {id : UInt64}
    (hturn : id ∉ Priority.turn (queConcurrentMap q) (busyIds m q)) :
    fetchedFor (q, id) (fetchSomeDataToSend m).1 = [] := by
  rw [fetchedFor, fst_fetchSomeDataToSend, Fifo.sent_serveOut htag _ (nodup_served m),
    if_neg fun hserved => hturn (mem_served_iff.mp hserved)]

/-- The ids of a queue that have a package in a stream. -/
def startedIds (q : QueueNum) (out : List Bytes) : Set UInt64 := {id | fetchedFor (q, id) out ≠ []}

theorem startedIds_append (q : QueueNum) (out out' : List Bytes) :
    startedIds q (out ++ out') = startedIds q out ∪ startedIds q out' := by
  ext id
  simp only [startedIds, fetchedFor, Fifo.sent_append, Set.mem_ofPred_eq, Set.mem_union, ne_eq,
    List.append_eq_nil_iff, not_and_or]

theorem startedIds_fetch {m : MultiplexManager} (htag : Fifo.Tagged keyOf m.pending)
    (q : QueueNum) : startedIds q (fetchSomeDataToSend m).1
      = Priority.turn (queConcurrentMap q) (busyIds m q) := by
  ext id
  constructor
  · intro h
    by_contra hturn
    exact h (fetchedFor_fetch_eq_nil htag hturn)
  · intro hturn hnil
    have hlen := length_fetchedFor_fetch htag hturn
    rw [hnil] at hlen
    exact absurd hlen (by decide)

/-- Within one fetch the ids of a queue come in ascending order. -/
theorem pairwise_served (m : MultiplexManager) :
    (served m QueueNum.all).Pairwise fun k k' => k.1 = k'.1 → k.2 < k'.2 := by
  rw [served, List.pairwise_flatMap]
  constructor
  · intro q _
    have hsorted := (isFirst_servedIds m q (queConcurrentMap q)).sorted
    refine List.pairwise_map.mpr (hsorted.imp fun {id id'} hlt => ?_)
    intro _
    exact hlt
  · refine QueueNum.nodup_all.imp fun {q q'} hne => ?_
    intro k hk k' hk' heq
    obtain ⟨id, -, rfl⟩ := List.mem_map.mp hk
    obtain ⟨id', -, rfl⟩ := List.mem_map.mp hk'
    exact absurd heq hne

/-- The keys of the strings of one fetch are those it serves. -/
theorem map_keyOf_fetch {m : MultiplexManager} (htag : Fifo.Tagged keyOf m.pending) :
    (fetchSomeDataToSend m).1.map keyOf = (served m QueueNum.all).map some := by
  have key : ∀ ks : List TaskKey, (∀ k ∈ ks, m.pending k ≠ []) →
      (Fifo.serveOut m.pending ks).map keyOf = ks.map some := by
    intro ks
    induction ks with
    | nil => intro _; rfl
    | cons k ks ih =>
      intro hks
      rw [List.forall_mem_cons] at hks
      obtain ⟨front, que, hcons⟩ := List.exists_cons_of_ne_nil hks.1
      have hfront : keyOf front = some k := htag k front (hcons ▸ List.mem_cons_self)
      have hrest := ih hks.2
      rw [Fifo.serveOut] at hrest ⊢
      rw [List.flatMap_cons, hcons, List.map_append, hrest, List.map_cons, ← hfront]
      rfl
  rw [fst_fetchSomeDataToSend]
  exact key _ fun k hk => (mem_served_iff.mp hk).1

/-! ### Fetch after fetch -/

/-- The state after `n` fetches. -/
def afterFetches (m : MultiplexManager) (n : ℕ) : MultiplexManager :=
  (runOps m (List.replicate n .fetch)).2

theorem runOps_fetches_succ (m : MultiplexManager) (n : ℕ) :
    runOps m (List.replicate (n + 1) .fetch)
      = ((runOps m (List.replicate n .fetch)).1 ++ (fetchSomeDataToSend (afterFetches m n)).1,
        (fetchSomeDataToSend (afterFetches m n)).2) := by
  rw [List.replicate_succ', runOps_append]
  simp only [runOps, stepOp, List.append_nil]
  rfl

theorem afterFetches_succ (m : MultiplexManager) (n : ℕ) :
    afterFetches m (n + 1) = (fetchSomeDataToSend (afterFetches m n)).2 := by
  rw [afterFetches, runOps_fetches_succ]

theorem decreasing_busyIds (m : MultiplexManager) (q : QueueNum) :
    Priority.Decreasing fun n => busyIds (afterFetches m n) q := by
  intro i j hij
  induction j, hij using Nat.le_induction with
  | base => exact fun _ hid => hid
  | succ j _ ih =>
    intro id (hid : id ∈ busyIds (afterFetches m (j + 1)) q)
    rw [afterFetches_succ] at hid
    exact ih (busyIds_fetch_subset _ q hid)

section Fetches

variable {m : MultiplexManager} (htag : Fifo.Tagged keyOf m.pending)

include htag

theorem tagged_afterFetches (n : ℕ) : Fifo.Tagged keyOf (afterFetches m n).pending := by
  have h := Fifo.tagged_run htag (actsOf_ok (List.replicate n .fetch) m)
  rw [run_pending] at h
  exact h

/-- The ids started are those that had a turn. -/
theorem startedIds_fetches (q : QueueNum) (n : ℕ) :
    startedIds q (runOps m (List.replicate n .fetch)).1
      = Priority.started (queConcurrentMap q) (fun i => busyIds (afterFetches m i) q) n := by
  induction n with
  | zero =>
    rw [Priority.started_zero]
    exact Set.eq_empty_of_forall_notMem fun id h => h rfl
  | succ n ih =>
    rw [runOps_fetches_succ, startedIds_append, ih, startedIds_fetch (tagged_afterFetches htag n),
      Priority.started_succ]

/-- The first string of an id comes when every id begun before it is smaller. -/
theorem lt_of_first_fetched {q : QueueNum} {id id' : UInt64} {x : Bytes}
    (hx : keyOf x = some (q, id)) : ∀ {n : ℕ} {pre post : List Bytes},
      (runOps m (List.replicate n .fetch)).1 = pre ++ x :: post →
        id ∉ startedIds q pre → id' ∈ startedIds q pre → id' < id := by
  intro n
  induction n with
  | zero => intro pre post h _ _; simp [runOps] at h
  | succ n ih =>
    intro pre post h hnot hid'
    rw [runOps_fetches_succ] at h
    rcases Fifo.exists_of_append_eq_append_cons h with ⟨mid, rfl, hmid⟩ | ⟨mid, hout, -⟩
    · -- the string is one of the last fetch
      rw [startedIds_append, Set.mem_union, not_or] at hnot
      rw [startedIds_append, Set.mem_union] at hid'
      have htag' := tagged_afterFetches htag n
      have hserved := map_keyOf_fetch htag'
      rw [hmid, List.map_append, List.map_cons, hx] at hserved
      obtain ⟨before, rest, hsplit, hbefore, hrest⟩ := List.map_eq_append_iff.mp hserved.symm
      obtain ⟨k, after, rfl, hk, -⟩ := List.map_eq_cons_iff.mp hrest
      obtain rfl := Option.some.inj hk
      rcases hid' with hid' | hid'
      · -- begun by an earlier fetch, which would have served a smaller busy id as well
        have hbusy : id ∈ busyIds (afterFetches m n) q :=
          (mem_served_iff.mp (hsplit ▸ by simp : (q, id) ∈ served _ _)).1
        rw [startedIds_fetches htag] at hnot hid'
        exact Priority.lt_of_mem_started (decreasing_busyIds m q) hid' hbusy hnot.1
      · -- begun by the same fetch, which goes through the ids in ascending order
        obtain ⟨y, hy⟩ := List.exists_mem_of_ne_nil _ (show fetchedFor (q, id') mid ≠ [] from hid')
        obtain ⟨hmem, hkey⟩ := List.mem_filter.mp hy
        have hkey' : some (q, id') ∈ before.map some := by
          rw [hbefore, ← of_decide_eq_true hkey]
          exact List.mem_map_of_mem hmem
        have hmem' : (q, id') ∈ before := by simpa using hkey'
        have hpair := pairwise_served (afterFetches m n)
        rw [hsplit] at hpair
        exact (List.pairwise_append.mp hpair).2.2 _ hmem' _ List.mem_cons_self rfl
    · exact ih hout hnot hid'

end Fetches

/-! ### The law of the tasks in progress -/

/-- The calls: tasks are added, and then only fetched, `n` times. -/
def addThenFetch (tasks : List (UInt64 × QueueNum × Bytes)) (n : ℕ) : List SendOp :=
  (tasks.map fun t => .add t.1 t.2.1 t.2.2) ++ List.replicate n .fetch

theorem runOps_adds (tasks : List (UInt64 × QueueNum × Bytes)) : ∀ m : MultiplexManager,
    (runOps m (tasks.map fun t => .add t.1 t.2.1 t.2.2)).1 = [] := by
  induction tasks with
  | nil => intro m; rfl
  | cons t tasks ih => intro m; exact ih _

/-- A run that adds tasks and then fetches is a run of fetches. -/
theorem exists_runOps_addThenFetch (tasks : List (UInt64 × QueueNum × Bytes)) :
    ∃ m : MultiplexManager, Fifo.Tagged keyOf m.pending ∧ ∀ n,
      runOps .new (addThenFetch tasks n) = runOps m (List.replicate n .fetch) := by
  refine ⟨(runOps .new (tasks.map fun t => .add t.1 t.2.1 t.2.2)).2, tagged_runOps _, fun n => ?_⟩
  rw [addThenFetch, runOps_append, runOps_adds, List.nil_append]

/-- **The law of the tasks in progress.**  Tasks are added and then only fetched.
In every queue and after any number of fetches, no more ids have been started and
still have something pending than the queue's limit allows; the next fetch takes
one package of each of them; and an id gets its first package out when every id
started before it is smaller. -/
theorem bounded_concurrency (tasks : List (UInt64 × QueueNum × Bytes)) (n : ℕ) (q : QueueNum) :
    let r := runOps .new (addThenFetch tasks n)
    (startedIds q r.1 ∩ {id | r.2.pending (q, id) ≠ []}).encard ≤ queConcurrentMap q ∧
    (∀ id ∈ startedIds q r.1, r.2.pending (q, id) ≠ [] →
      (fetchedFor (q, id) (fetchSomeDataToSend r.2).1).length = 1) ∧
    (∀ pre x post id, r.1 = pre ++ x :: post → keyOf x = some (q, id) → id ∉ startedIds q pre →
      ∀ id' ∈ startedIds q pre, id' < id) := by
  obtain ⟨m, htag, hrun⟩ := exists_runOps_addThenFetch tasks
  have hbusy := decreasing_busyIds m q
  dsimp only
  rw [hrun]
  refine ⟨?_, fun id hid hpend => ?_, fun pre x post id hout hx hnot id' hid' => ?_⟩
  · rw [startedIds_fetches htag]
    exact Priority.encard_started_inter_le hbusy n
  · rw [startedIds_fetches htag] at hid
    exact length_fetchedFor_fetch (tagged_afterFetches htag n)
      (Priority.started_inter_subset_turn hbusy n ⟨hid, hpend⟩)
  · exact lt_of_first_fetched htag hx hout hnot hid'

end AndrenBoost.Multiplex
