import AndrenBoost.Lib.Fifo
import AndrenBoost.Multiplex.Sender
import Mathlib.Algebra.BigOperators.Group.List.Basic

/-!
# What a fetch does

The scan of one queue, with its count, its early exit and its deferred
erasure, is specified by the ids it serves: the first few, in ascending order,
whose deque is not empty.  In terms of the pending deques alone the whole sender
is then a family of queues in the sense of `Lib.Fifo`: adding a task is a put,
and a fetch serves the chosen ids of the eight queues.

## Main definitions

* `MultiplexManager.pending` — the deque of each task, empty when there is none.
* `servedIds`, `served` — the ids one fetch takes a package from.
* `actOf`, `actsOf` — calls as actions on the family of queues.
* `pendingCount` — how many packages are waiting.

## Main results

* `lookup_scan`, `taken_scan` — the specification of the scan.
* `step_pending`, `run_pending` — **the sender refines the family of queues.**
* `fetch_eq_nil_iff` — a fetch comes back empty only when nothing is waiting.
* `fetchUntilEmpty_spec` — the emptying loop ends, and what it fetched.
-/

namespace AndrenBoost.Multiplex

/-! ### The scan of one queue -/

/-- The ids a scan takes a package from: the first `n` with a deque that is not
empty. -/
def servedIds (n : ℕ) (entries : List (UInt64 × List Bytes)) : List UInt64 :=
  ((entries.filter fun e => e.2 ≠ []).take n).map Prod.fst

theorem servedIds_empty_cons (n : ℕ) (id : UInt64) (rest : List (UInt64 × List Bytes)) :
    servedIds n ((id, []) :: rest) = servedIds n rest := by simp [servedIds]

theorem servedIds_cons (n : ℕ) (id : UInt64) (front : Bytes) (que : List Bytes)
    (rest : List (UInt64 × List Bytes)) :
    servedIds (n + 1) ((id, front :: que) :: rest) = id :: servedIds n rest := by
  simp [servedIds]

@[simp] theorem servedIds_zero (entries : List (UInt64 × List Bytes)) :
    servedIds 0 entries = [] := by simp [servedIds]

/-- After the scan each deque has lost its front if its id was served, and is
the same otherwise. -/
theorem lookup_scan {need : ℕ} (id : UInt64) : ∀ (entries : List (UInt64 × List Bytes))
    (count : ℕ), count < need → (scan need count entries).entries.lookup id
      = (entries.lookup id).map fun que =>
          if id ∈ servedIds (need - count) entries then que.tail else que := by
  intro entries
  induction entries with
  | nil => intro count _; rfl
  | cons e rest ih =>
    intro count hcount
    obtain ⟨id', que⟩ := e
    cases que with
    | nil =>
      rw [scan, if_neg (by omega), servedIds_empty_cons, SortedMap.lookup_cons,
        SortedMap.lookup_cons]
      by_cases h : id = id'
      · simp [h]
      · rw [if_neg h, if_neg h, ih count hcount]
    | cons front que =>
      obtain ⟨n, hn⟩ : ∃ n, need - count = n + 1 := ⟨need - count - 1, by omega⟩
      rw [scan, hn, servedIds_cons, SortedMap.lookup_cons]
      by_cases hlast : count + 1 ≥ need
      · -- the limit is reached: the rest of the map is not visited
        have hn0 : n = 0 := by omega
        rw [if_pos hlast, hn0, servedIds_zero, SortedMap.lookup_cons]
        by_cases h : id = id' <;> simp [h]
      · rw [if_neg hlast, SortedMap.lookup_cons]
        by_cases h : id = id'
        · simp [h]
        · rw [if_neg h, if_neg h, ih (count + 1) (by omega), show need - (count + 1) = n by omega]
          simp [h]

/-- What a scan takes: the front of each served deque, in order. -/
theorem taken_scan {need : ℕ} : ∀ (entries : List (UInt64 × List Bytes)) (count : ℕ),
    count < need → (scan need count entries).taken
      = ((entries.filter fun e => e.2 ≠ []).take (need - count)).flatMap
          fun e => e.2.head?.toList := by
  intro entries
  induction entries with
  | nil => intro count _; simp [scan]
  | cons e rest ih =>
    intro count hcount
    obtain ⟨id', que⟩ := e
    cases que with
    | nil =>
      rw [scan, if_neg (by omega)]
      simpa using ih count hcount
    | cons front que =>
      obtain ⟨n, hn⟩ : ∃ n, need - count = n + 1 := ⟨need - count - 1, by omega⟩
      rw [scan, hn, List.filter_cons_of_pos (by simp), List.take_succ_cons, List.flatMap_cons]
      by_cases hlast : count + 1 ≥ need
      · have hn0 : n = 0 := by omega
        rw [if_pos hlast, hn0]
        simp
      · rw [if_neg hlast]
        have := ih (count + 1) (by omega)
        rw [show need - (count + 1) = n by omega] at this
        simp [this]

/-- Only ids whose deque was empty are dropped, and the scan has left it so. -/
theorem mem_of_mem_dropList {need : ℕ} {id : UInt64} :
    ∀ (entries : List (UInt64 × List Bytes)) (count : ℕ),
      id ∈ (scan need count entries).dropList →
        (id, []) ∈ entries ∧ (id, []) ∈ (scan need count entries).entries := by
  intro entries
  induction entries with
  | nil => intro count h; simp [scan] at h
  | cons e rest ih =>
    intro count h
    obtain ⟨id', que⟩ := e
    cases que with
    | nil =>
      rw [scan] at h ⊢
      split_ifs at h ⊢
      · rw [List.mem_singleton.mp h]
        exact ⟨List.mem_cons_self, List.mem_cons_self⟩
      · rcases List.mem_cons.mp h with rfl | h
        · exact ⟨List.mem_cons_self, List.mem_cons_self⟩
        · exact (ih count h).imp (List.mem_cons_of_mem _) (List.mem_cons_of_mem _)
    | cons front que =>
      rw [scan] at h ⊢
      split_ifs at h ⊢
      · simp at h
      · exact (ih (count + 1) h).imp (List.mem_cons_of_mem _) (List.mem_cons_of_mem _)

/-- The deques after `fetchQueue`. -/
theorem getD_fetchQueue {need : ℕ} (hneed : 0 < need) (map : SortedMap UInt64 (List Bytes))
    (id : UInt64) : (fetchQueue need map).2.getD id []
      = if id ∈ servedIds need map.entries then (map.getD id []).tail else map.getD id [] := by
  have hlookup := lookup_scan id map.entries 0 hneed
  rw [Nat.sub_zero] at hlookup
  have hgetD : ((scan need 0 map.entries).entries.lookup id).getD []
      = if id ∈ servedIds need map.entries then (map.getD id []).tail else map.getD id [] := by
    rw [hlookup, SortedMap.getD, SortedMap.find?]
    cases map.entries.lookup id <;> simp
  -- the erasure after the scan does not show in what is pending
  rw [← hgetD]
  simp only [fetchQueue]
  rw [SortedMap.getD, SortedMap.find?_eraseAll, SortedMap.find?_withEntries]
  split_ifs with hdrop
  · -- a dropped id had an empty deque, and still has one as far as `pending` goes
    have hnil : map.find? id = some [] :=
      SortedMap.find?_eq_some_iff.mpr (mem_of_mem_dropList map.entries 0 hdrop).1
    rw [SortedMap.find?] at hnil
    rw [hlookup, hnil]
    simp
  · rfl

/-- What `fetchQueue` takes. -/
theorem fst_fetchQueue {need : ℕ} (hneed : 0 < need) (map : SortedMap UInt64 (List Bytes)) :
    (fetchQueue need map).1
      = (servedIds need map.entries).flatMap fun id => (map.getD id []).head?.toList := by
  have htaken := taken_scan map.entries 0 hneed
  rw [Nat.sub_zero] at htaken
  rw [fetchQueue, htaken, servedIds, List.flatMap_map]
  refine List.flatMap_congr fun e he => ?_
  have hmem : e ∈ map.entries := List.mem_of_mem_filter (List.mem_of_mem_take he)
  have hfind : map.find? e.1 = some e.2 := SortedMap.find?_eq_some_iff.mpr hmem
  rw [SortedMap.getD, hfind]
  rfl

theorem nodup_servedIds (need : ℕ) (map : SortedMap UInt64 (List Bytes)) :
    (servedIds need map.entries).Nodup := by
  have hkeys : (map.entries.map Prod.fst).Pairwise (· < ·) := List.pairwise_map.mpr map.sorted
  have hsub : (servedIds need map.entries).Sublist (map.entries.map Prod.fst) :=
    ((List.take_sublist _ _).trans List.filter_sublist).map Prod.fst
  exact (hkeys.sublist hsub).imp fun h => h.ne

/-! ### The loop over the queues -/

/-- The deque of a task, empty when the sender has no entry for it. -/
def MultiplexManager.pending (m : MultiplexManager) : Fifo.Queues TaskKey Bytes :=
  fun k => (m.readySend k.1).getD k.2 []

/-- The tasks a fetch takes a package from, in order. -/
def served (m : MultiplexManager) (qs : List QueueNum) : List TaskKey :=
  qs.flatMap fun q => (servedIds (queConcurrentMap q) (m.readySend q).entries).map fun id => (q, id)

/-- Each queue is fetched on its own. -/
theorem fetchQueues_spec : ∀ {qs : List QueueNum} (m : MultiplexManager), qs.Nodup →
    (fetchQueues qs m).1
        = qs.flatMap (fun q => (fetchQueue (queConcurrentMap q) (m.readySend q)).1) ∧
      ∀ q, (fetchQueues qs m).2.readySend q
        = if q ∈ qs then (fetchQueue (queConcurrentMap q) (m.readySend q)).2
          else m.readySend q := by
  intro qs
  induction qs with
  | nil => intro m _; exact ⟨rfl, fun q => by simp [fetchQueues]⟩
  | cons q qs ih =>
    intro m hqs
    rw [List.nodup_cons] at hqs
    have hrest := ih { m with readySend := Function.update m.readySend q
                                (fetchQueue (queConcurrentMap q) (m.readySend q)).2 } hqs.2
    obtain ⟨hout, hnext⟩ := hrest
    dsimp only at hout hnext
    -- the queues still to come are those the fetch began with, for each is visited once
    simp only [fetchQueues]
    refine ⟨?_, fun q' => ?_⟩
    · rw [hout, List.flatMap_cons]
      congr 1
      refine List.flatMap_congr fun q' hq' => ?_
      have hne : q' ≠ q := fun h => hqs.1 (h ▸ hq')
      rw [Function.update_of_ne hne]
    · rw [hnext]
      by_cases h : q' = q
      · subst h
        rw [if_neg hqs.1, if_pos List.mem_cons_self, Function.update_self]
      · simp only [List.mem_cons, h, false_or, Function.update_of_ne h]

/-- An id has something pending if it is the key of a deque that is not empty. -/
theorem pending_ne_nil_iff {m : MultiplexManager} {q : QueueNum} {id : UInt64} :
    m.pending (q, id) ≠ []
      ↔ id ∈ ((m.readySend q).entries.filter fun e => e.2 ≠ []).map Prod.fst := by
  rw [List.mem_map]
  constructor
  · intro hne
    rw [MultiplexManager.pending, SortedMap.getD] at hne
    cases hfind : (m.readySend q).find? id with
    | none =>
      rw [hfind] at hne
      exact absurd rfl hne
    | some que =>
      rw [hfind] at hne
      refine ⟨(id, que), List.mem_filter.mpr ⟨SortedMap.find?_eq_some_iff.mp hfind, ?_⟩, rfl⟩
      simpa using hne
  · rintro ⟨e, he, rfl⟩
    obtain ⟨hmem, hne⟩ := List.mem_filter.mp he
    rw [MultiplexManager.pending, SortedMap.getD,
      SortedMap.find?_eq_some_iff.mpr (show (e.1, e.2) ∈ _ from hmem)]
    simpa using hne

theorem pending_ne_nil_of_mem_servedIds {m : MultiplexManager} {q : QueueNum} {id : UInt64}
    {n : ℕ} (h : id ∈ servedIds n (m.readySend q).entries) : m.pending (q, id) ≠ [] :=
  pending_ne_nil_iff.mpr (((List.take_sublist _ _).map Prod.fst).subset h)

/-- Where something is pending, an id is served. -/
theorem servedIds_eq_nil_iff {m : MultiplexManager} {q : QueueNum} :
    servedIds (queConcurrentMap q) (m.readySend q).entries = []
      ↔ ∀ id, m.pending (q, id) = [] := by
  have hlimit := queConcurrentMap_pos q
  rw [servedIds, List.map_eq_nil_iff, List.take_eq_nil_iff,
    or_iff_right (by omega : queConcurrentMap q ≠ 0), ← List.map_eq_nil_iff (f := Prod.fst),
    List.eq_nil_iff_forall_not_mem]
  exact forall_congr' fun id => (not_congr pending_ne_nil_iff).symm.trans Classical.not_not

theorem mem_served {m : MultiplexManager} {k : TaskKey} : k ∈ served m QueueNum.all ↔
    k.2 ∈ servedIds (queConcurrentMap k.1) (m.readySend k.1).entries := by
  simp only [served, List.mem_flatMap, List.mem_map]
  constructor
  · rintro ⟨q, -, id, hid, rfl⟩
    exact hid
  · intro h
    exact ⟨k.1, QueueNum.mem_all k.1, k.2, h, rfl⟩

theorem nodup_served (m : MultiplexManager) : (served m QueueNum.all).Nodup := by
  rw [served, List.nodup_flatMap]
  refine ⟨fun q _ => (nodup_servedIds _ _).map fun _ _ h => (Prod.mk.inj h).2, ?_⟩
  refine QueueNum.nodup_all.imp fun {q q'} hne => ?_
  apply List.disjoint_left.2
  intro k hk hk'
  obtain ⟨id, -, rfl⟩ := List.mem_map.mp hk
  obtain ⟨id', -, heq⟩ := List.mem_map.mp hk'
  exact hne (Prod.mk.inj heq).1.symm

theorem fst_fetchSomeDataToSend (m : MultiplexManager) :
    (fetchSomeDataToSend m).1 = Fifo.serveOut m.pending (served m QueueNum.all) := by
  rw [fetchSomeDataToSend, (fetchQueues_spec m QueueNum.nodup_all).1, Fifo.serveOut, served,
    List.flatMap_assoc]
  refine List.flatMap_congr fun q _ => ?_
  rw [fst_fetchQueue (queConcurrentMap_pos q), List.flatMap_map]
  rfl

theorem pending_fetchSomeDataToSend (m : MultiplexManager) :
    (fetchSomeDataToSend m).2.pending = Fifo.serveNext m.pending (served m QueueNum.all) := by
  funext k
  rw [Fifo.serveNext, MultiplexManager.pending, fetchSomeDataToSend,
    (fetchQueues_spec m QueueNum.nodup_all).2, if_pos (QueueNum.mem_all k.1),
    getD_fetchQueue (queConcurrentMap_pos k.1)]
  simp only [mem_served]
  rfl

theorem pending_addDataTaskToSend (m : MultiplexManager) (id : UInt64) (queueNo : QueueNum)
    (data : Bytes) : (addDataTaskToSend m id queueNo data).pending
      = Function.update m.pending (queueNo, id) (dataList id queueNo data) := by
  funext k
  obtain ⟨q, id'⟩ := k
  simp only [MultiplexManager.pending, addDataTaskToSend]
  by_cases hq : q = queueNo
  · subst hq
    rw [Function.update_self, SortedMap.getD_set]
    by_cases hid : id' = id
    · subst hid
      rw [if_pos rfl, Function.update_self]
    · rw [if_neg hid, Function.update_of_ne (by simpa using hid)]
      rfl
  · rw [Function.update_of_ne hq, Function.update_of_ne (by simp [hq])]
    rfl

/-! ### The refinement -/

/-- A call as an action on the family of pending deques. -/
def actOf (m : MultiplexManager) : SendOp → Fifo.Act TaskKey Bytes
  | .add id queueNo data => .put (queueNo, id) (dataList id queueNo data)
  | .fetch => .serve (served m QueueNum.all)

/-- A sequence of calls as a sequence of actions. -/
def actsOf (m : MultiplexManager) : List SendOp → List (Fifo.Act TaskKey Bytes)
  | [] => []
  | op :: ops => actOf m op :: actsOf (stepOp m op).2 ops

theorem actOf_ok (m : MultiplexManager) (op : SendOp) : (actOf m op).Ok keyOf := by
  cases op with
  | add id queueNo data => exact fun raw h => keyOf_of_mem_dataList h
  | fetch => exact nodup_served m

theorem actsOf_ok : ∀ (ops : List SendOp) (m : MultiplexManager),
    ∀ a ∈ actsOf m ops, a.Ok keyOf := by
  intro ops
  induction ops with
  | nil => intro m a ha; simp [actsOf] at ha
  | cons op ops ih =>
    intro m a ha
    rcases List.mem_cons.mp ha with rfl | ha
    · exact actOf_ok m op
    · exact ih _ a ha

/-- One call is one action. -/
theorem step_pending (m : MultiplexManager) (op : SendOp) :
    Fifo.step m.pending (actOf m op) = ((stepOp m op).1, (stepOp m op).2.pending) := by
  cases op with
  | add id queueNo data =>
    rw [stepOp, pending_addDataTaskToSend]
    rfl
  | fetch =>
    rw [stepOp, fst_fetchSomeDataToSend, pending_fetchSomeDataToSend]
    rfl

/-- **The sender refines the family of queues.**  Its calls fetch what the
actions send out, and leave the deques the actions leave. -/
theorem run_pending : ∀ (ops : List SendOp) (m : MultiplexManager),
    Fifo.run m.pending (actsOf m ops) = ((runOps m ops).1, (runOps m ops).2.pending) := by
  intro ops
  induction ops with
  | nil => intro m; rfl
  | cons op ops ih =>
    intro m
    rw [actsOf, Fifo.run_cons, step_pending, ih]
    rfl

theorem runOps_append (ops₁ ops₂ : List SendOp) : ∀ m : MultiplexManager,
    runOps m (ops₁ ++ ops₂) = ((runOps m ops₁).1 ++ (runOps (runOps m ops₁).2 ops₂).1,
      (runOps (runOps m ops₁).2 ops₂).2) := by
  induction ops₁ with
  | nil => intro m; rfl
  | cons op ops₁ ih =>
    intro m
    simp only [List.cons_append, runOps, ih, List.append_assoc]

theorem pending_new : MultiplexManager.new.pending = fun _ => [] := rfl

theorem tagged_new : Fifo.Tagged keyOf MultiplexManager.new.pending := by
  intro k raw h
  simp [pending_new] at h

/-- In every reachable state each pending package carries the key it is filed
under. -/
theorem tagged_runOps (ops : List SendOp) :
    Fifo.Tagged keyOf (runOps .new ops).2.pending := by
  have h := Fifo.tagged_run tagged_new (actsOf_ok ops .new)
  rw [run_pending] at h
  exact h

/-! ### Emptying the sender -/

/-- How many packages a map holds. -/
def packageCount (map : SortedMap UInt64 (List Bytes)) : ℕ :=
  (map.entries.map fun e => e.2.length).sum

/-- How many packages are waiting in the eight queues. -/
def pendingCount (m : MultiplexManager) : ℕ :=
  (QueueNum.all.map fun q => packageCount (m.readySend q)).sum

/-- A scan takes out of the map what it returns. -/
theorem sum_length_scan (need : ℕ) : ∀ (entries : List (UInt64 × List Bytes)) (count : ℕ),
    ((scan need count entries).entries.map fun e => e.2.length).sum
        + (scan need count entries).taken.length
      = (entries.map fun e => e.2.length).sum := by
  intro entries
  induction entries with
  | nil => intro count; rfl
  | cons e rest ih =>
    intro count
    obtain ⟨id, que⟩ := e
    cases que with
    | nil =>
      rw [scan]
      split_ifs
      · simp
      · simpa using ih count
    | cons front que =>
      have := ih (count + 1)
      rw [scan]
      split_ifs
      · simp only [List.map_cons, List.sum_cons, List.length_cons, List.length_nil]
        omega
      · simp only [List.map_cons, List.sum_cons, List.length_cons]
        omega

/-- Dropping an empty deque drops no package. -/
theorem packageCount_erase {map : SortedMap UInt64 (List Bytes)} {id : UInt64}
    (h : (id, []) ∈ map.entries) : packageCount (map.erase id) = packageCount map := by
  have hempty : ∀ e ∈ map.entries, e.1 = id → e.2 = [] := by
    intro e he hid
    have h1 := SortedMap.find?_eq_some_iff.mpr h
    have h2 : map.find? e.1 = some e.2 := SortedMap.find?_eq_some_iff.mpr he
    rw [hid, h1] at h2
    exact (Option.some.inj h2).symm
  have key : ∀ l : List (UInt64 × List Bytes), (∀ e ∈ l, e.1 = id → e.2 = []) →
      ((l.filter fun e => e.1 ≠ id).map fun e => e.2.length).sum
        = (l.map fun e => e.2.length).sum := by
    intro l
    induction l with
    | nil => intro _; rfl
    | cons e l ih =>
      intro hl
      rw [List.forall_mem_cons] at hl
      by_cases he : e.1 = id
      · simp [he, hl.1 he, ← ih hl.2]
      · simp [he, ← ih hl.2]
  exact key map.entries hempty

theorem packageCount_eraseAll : ∀ {ids : List UInt64} {map : SortedMap UInt64 (List Bytes)},
    (∀ id ∈ ids, (id, []) ∈ map.entries ∨ map.find? id = none) →
      packageCount (map.eraseAll ids) = packageCount map := by
  intro ids
  induction ids with
  | nil => intro map _; rfl
  | cons id ids ih =>
    intro map h
    rw [List.forall_mem_cons] at h
    have hfirst : packageCount (map.erase id) = packageCount map := by
      rcases h.1 with hid | hid
      · exact packageCount_erase hid
      · have hall : map.erase id = map := by
          obtain ⟨entries, sorted⟩ := map
          have hne : ∀ e ∈ entries, e.1 ≠ id := by
            rintro e he rfl
            rw [SortedMap.find?, List.lookup_eq_none_iff] at hid
            simpa using hid e he
          simp only [SortedMap.erase, SortedMap.mk.injEq, List.filter_eq_self]
          exact fun e he => by simpa using hne e he
        rw [hall]
    have hrest := @ih (map.erase id) fun id' hid' => by
      by_cases heq : id' = id
      · exact Or.inr (by rw [SortedMap.find?_erase, if_pos heq])
      · rcases h.2 id' hid' with h' | h'
        · exact Or.inl (List.mem_filter.mpr ⟨h', by simpa using heq⟩)
        · exact Or.inr (by rw [SortedMap.find?_erase, if_neg heq, h'])
    rw [SortedMap.eraseAll] at hrest ⊢
    rw [List.foldl_cons, hrest, hfirst]

theorem packageCount_fetchQueue (need : ℕ) (map : SortedMap UInt64 (List Bytes)) :
    packageCount (fetchQueue need map).2 + (fetchQueue need map).1.length
      = packageCount map := by
  have hscan := sum_length_scan need map.entries 0
  -- only empty deques are dropped, and these hold no package
  have hdrop : packageCount (fetchQueue need map).2
      = ((scan need 0 map.entries).entries.map fun e => e.2.length).sum :=
    packageCount_eraseAll fun id hid => Or.inl (mem_of_mem_dropList map.entries 0 hid).2
  rw [hdrop]
  exact hscan

/-- Every string a fetch returns is one that was waiting. -/
theorem pendingCount_fetchSomeDataToSend (m : MultiplexManager) :
    pendingCount (fetchSomeDataToSend m).2 + (fetchSomeDataToSend m).1.length
      = pendingCount m := by
  obtain ⟨hout, hnext⟩ := fetchQueues_spec m QueueNum.nodup_all
  have hq := fun q => packageCount_fetchQueue (queConcurrentMap q) (m.readySend q)
  have hnext' : ∀ q, (fetchSomeDataToSend m).2.readySend q
      = (fetchQueue (queConcurrentMap q) (m.readySend q)).2 := fun q => by
    rw [fetchSomeDataToSend, hnext, if_pos (QueueNum.mem_all q)]
  rw [pendingCount, pendingCount, fetchSomeDataToSend, hout, ← fetchSomeDataToSend]
  simp only [hnext', List.length_flatMap]
  rw [← List.sum_map_add]
  exact congrArg List.sum (List.map_congr_left fun q _ => hq q)

/-- **A fetch comes back empty only when nothing is waiting.**  Entries whose
deque is empty are passed over and do not count, so they cannot use up a queue's
limit. -/
theorem fetch_eq_nil_iff (m : MultiplexManager) :
    (fetchSomeDataToSend m).1 = [] ↔ ∀ k, m.pending k = [] := by
  rw [fst_fetchSomeDataToSend, Fifo.serveOut, List.flatMap_eq_nil_iff]
  constructor
  · intro h k
    by_contra hne
    -- then its queue has an id to serve, and a package of that id is fetched
    have hids := mt servedIds_eq_nil_iff.mp fun hnil => hne (hnil k.2)
    obtain ⟨id, hid⟩ := List.exists_mem_of_ne_nil _ hids
    have hhead := h (k.1, id) (mem_served.mpr hid)
    obtain ⟨front, que, hcons⟩ :=
      List.exists_cons_of_ne_nil (pending_ne_nil_of_mem_servedIds hid)
    rw [hcons] at hhead
    exact absurd hhead (by simp)
  · intro h k _
    rw [h k]
    rfl

/-- The emptying loop, given one call more than there are packages, ends; it
leaves nothing behind, and has fetched of each task what was pending, in
order. -/
theorem fetchUntilEmpty_spec : ∀ {calls : ℕ} {m : MultiplexManager},
    Fifo.Tagged keyOf m.pending → pendingCount m < calls →
      ∃ out m', fetchUntilEmpty calls m = some (out, m') ∧ (∀ k, m'.pending k = []) ∧
        ∀ k, Fifo.sent keyOf k out.flatten = m.pending k := by
  intro calls
  induction calls with
  | zero => intro m _ h; omega
  | succ calls ih =>
    intro m htag hcalls
    -- one call moves fronts to the outlet and loses none
    have hmove := fun k => Fifo.sent_serveOut_append htag (nodup_served m) k
    rw [← fst_fetchSomeDataToSend, ← pending_fetchSomeDataToSend] at hmove
    rw [fetchUntilEmpty]
    by_cases hnil : (fetchSomeDataToSend m).1 = []
    · have hall := (fetch_eq_nil_iff m).mp hnil
      refine ⟨[], (fetchSomeDataToSend m).2, by simp [hnil], fun k => ?_, fun k => ?_⟩
      · have := hmove k
        rw [hnil, hall k] at this
        simpa using this
      · rw [hall k]
        rfl
    · have hcount := pendingCount_fetchSomeDataToSend m
      have hpos : 0 < (fetchSomeDataToSend m).1.length := List.length_pos_iff.mpr hnil
      have htag' : Fifo.Tagged keyOf (fetchSomeDataToSend m).2.pending := by
        have h := Fifo.tagged_step htag (actOf_ok m .fetch)
        rw [step_pending] at h
        exact h
      obtain ⟨out, m', hrun, hleft, hsent⟩ := ih htag' (by omega)
      refine ⟨(fetchSomeDataToSend m).1 :: out, m', by simp [hnil, hrun], hleft, fun k => ?_⟩
      rw [List.flatten_cons, Fifo.sent_append, hsent k]
      exact hmove k

/-- The emptying loop is a run of fetches. -/
theorem runOps_of_fetchUntilEmpty : ∀ {calls : ℕ} {m m' : MultiplexManager}
    {out : List (List Bytes)}, fetchUntilEmpty calls m = some (out, m') →
      runOps m (List.replicate (out.length + 1) .fetch) = (out.flatten, m') := by
  intro calls
  induction calls with
  | zero => intro m m' out h; simp [fetchUntilEmpty] at h
  | succ calls ih =>
    intro m m' out h
    rw [fetchUntilEmpty] at h
    split_ifs at h with hnil
    · simp only [Option.some.injEq, Prod.mk.injEq] at h
      obtain ⟨rfl, rfl⟩ := h
      simp [runOps, stepOp, hnil]
    · obtain ⟨rest, hrest, heq⟩ := Option.map_eq_some_iff.mp h
      simp only [Prod.mk.injEq] at heq
      obtain ⟨rfl, rfl⟩ := heq
      rw [List.length_cons, List.replicate_succ]
      simp only [runOps, stepOp, ih hrest, List.flatten_cons]

end AndrenBoost.Multiplex
