import AndrenBoost.Lib.Workload
import AndrenBoost.Multiplex.Concurrency
import AndrenBoost.Multiplex.Transfer

/-!
# How long a task takes

A fetch serves the smallest ids of a queue first and remembers nothing, so a task waits
while the smaller ids of its queue have packages, and for nothing else.  How many
fetches that can take follows from the number of packages waiting or added under
smaller ids, whatever happens in the other queues and under larger ids; without a bound
on these a task may wait for ever, unless its id is so small that it never waits.

## Main definitions

* `fetchCount` — the number of fetches in a run.
* `aheadOf`, `addedAhead` — the packages under smaller ids of the queue: waiting, and
  added in a run.

## Main results

* `drained_within` — **how many fetches finish a task**.
* `starved_iff` — **which ids can wait for ever**.
-/

namespace AndrenBoost.Multiplex

/-- The number of fetches in a run. -/
def fetchCount : List SendOp → ℕ
  | [] => 0
  | .add _ _ _ :: ops => fetchCount ops
  | .fetch :: ops => fetchCount ops + 1

/-- The packages waiting under smaller ids of the queue. -/
def aheadOf (m : MultiplexManager) (k : TaskKey) : ℕ :=
  (((m.readySend k.1).entries.filter fun e => e.1 < k.2).map fun e => e.2.length).sum

/-- The packages added under smaller ids of the queue. -/
def addedAhead (k : TaskKey) : List SendOp → ℕ
  | [] => 0
  | .add id queueNo data :: ops =>
      if queueNo = k.1 ∧ id < k.2 then (dataList id queueNo data).length + addedAhead k ops
      else addedAhead k ops
  | .fetch :: ops => addedAhead k ops

/-- The number of packages waiting under each id of a queue. -/
def load (m : MultiplexManager) (q : QueueNum) (id : UInt64) : ℕ := (m.pending (q, id)).length

theorem load_ne_zero_iff {m : MultiplexManager} {q : QueueNum} {id : UInt64} :
    load m q id ≠ 0 ↔ m.pending (q, id) ≠ [] := not_congr List.length_eq_zero_iff

/-- A fetch is a round in every queue. -/
theorem round_fetch (m : MultiplexManager) (q : QueueNum) :
    Priority.Round (queConcurrentMap q) (load m q) (load (fetchSomeDataToSend m).2 q)
      (servedIds (queConcurrentMap q) (m.readySend q).entries) := by
  have hload : ∀ id, load (fetchSomeDataToSend m).2 q id
      = if id ∈ servedIds (queConcurrentMap q) (m.readySend q).entries then load m q id - 1
        else load m q id := by
    intro id
    simp only [load, pending_fetchSomeDataToSend, Fifo.serveNext, mem_served]
    split_ifs
    · rw [List.length_tail]
    · rfl
  have hbusy : {id | load m q id ≠ 0} = busyIds m q := Set.ext fun id => load_ne_zero_iff
  constructor
  · rw [hbusy]
    exact isFirst_servedIds m q _
  · intro id hid
    have hpos := load_ne_zero_iff.mpr (pending_ne_nil_of_mem_servedIds hid)
    rw [hload, if_pos hid]
    omega
  · intro id hid
    rw [hload, if_neg hid]

/-- An addition sets the load of its own id. -/
theorem load_addDataTaskToSend (m : MultiplexManager) (id : UInt64) (queueNo : QueueNum)
    (data : Bytes) (q : QueueNum) : load (addDataTaskToSend m id queueNo data) q
      = if queueNo = q then
          Function.update (load m q) id (dataList id queueNo data).length
        else load m q := by
  funext id'
  rw [load, pending_addDataTaskToSend]
  split_ifs with hq
  · subst hq
    by_cases hid : id' = id
    · subst hid
      rw [Function.update_self, Function.update_self]
    · rw [Function.update_of_ne hid, Function.update_of_ne (by simpa using hid), load]
  · rw [Function.update_of_ne fun h => hq (Prod.mk.inj h).1.symm, load]

/-! ### A task that is not added again -/

/-- The run adds nothing under the key. -/
def NotAdded (k : TaskKey) (ops : List SendOp) : Prop := ∀ data, SendOp.add k.2 k.1 data ∉ ops

theorem NotAdded.of_cons {k : TaskKey} {op : SendOp} {ops : List SendOp}
    (h : NotAdded k (op :: ops)) : NotAdded k ops :=
  fun data hmem => h data (List.mem_cons_of_mem _ hmem)

theorem NotAdded.key_ne {k : TaskKey} {id : UInt64} {queueNo : QueueNum} {data : Bytes}
    {ops : List SendOp} (h : NotAdded k (.add id queueNo data :: ops)) : k ≠ (queueNo, id) := by
  rintro rfl
  exact h data List.mem_cons_self

/-- Such a task has no more packages after a call than before. -/
theorem pending_stepOp_of_notAdded {k : TaskKey} {op : SendOp} {ops : List SendOp}
    (h : NotAdded k (op :: ops)) (m : MultiplexManager) :
    (stepOp m op).2.pending k = m.pending k ∨ (stepOp m op).2.pending k = (m.pending k).tail := by
  cases op with
  | add id queueNo data =>
    rw [stepOp, pending_addDataTaskToSend, Function.update_of_ne h.key_ne]
    exact Or.inl rfl
  | fetch =>
    rw [stepOp, pending_fetchSomeDataToSend, Fifo.serveNext]
    split_ifs
    · exact Or.inr rfl
    · exact Or.inl rfl

theorem pending_runOps_eq_nil {k : TaskKey} : ∀ {ops : List SendOp} {m : MultiplexManager},
    NotAdded k ops → m.pending k = [] → (runOps m ops).2.pending k = [] := by
  intro ops
  induction ops with
  | nil => intro m _ h; exact h
  | cons op ops ih =>
    intro m hnot h
    refine ih hnot.of_cons ?_
    rcases pending_stepOp_of_notAdded hnot m with hstep | hstep
    · rw [hstep, h]
    · rw [hstep, h, List.tail_nil]

/-! ### The bound -/

/-- The work of a run: as long as the task is not finished, every fetch lowers the
potential by the limit of the queue, and only additions under smaller ids raise it. -/
theorem potential_runOps {k : TaskKey} {s : Finset UInt64} : ∀ {ops : List SendOp}
    {m : MultiplexManager}, NotAdded k ops →
      (∀ id, m.pending (k.1, id) ≠ [] → id < k.2 → id ∈ s) →
      (∀ id data, SendOp.add id k.1 data ∈ ops → id < k.2 → id ∈ s) →
      (runOps m ops).2.pending k ≠ [] →
        queConcurrentMap k.1 * load (runOps m ops).2 k.1 k.2
            + queConcurrentMap k.1 * fetchCount ops
          ≤ Priority.workBefore s k.2 (load m k.1) + queConcurrentMap k.1 * load m k.1 k.2
            + addedAhead k ops := by
  intro ops
  induction ops with
  | nil =>
    intro m _ _ _ _
    simp only [runOps, fetchCount, addedAhead]
    omega
  | cons op ops ih =>
    intro m hnot hm hadd hend
    -- the task is not finished before the call either
    have hstart : m.pending k ≠ [] := fun h => hend (pending_runOps_eq_nil hnot h)
    have hadd' : ∀ id data, SendOp.add id k.1 data ∈ ops → id < k.2 → id ∈ s :=
      fun id data hmem => hadd id data (List.mem_cons_of_mem _ hmem)
    cases op with
    | add id queueNo data =>
      have hself : load (addDataTaskToSend m id queueNo data) k.1 k.2 = load m k.1 k.2 := by
        rw [load, pending_addDataTaskToSend, Function.update_of_ne hnot.key_ne, load]
      have hkeys : ∀ id', (addDataTaskToSend m id queueNo data).pending (k.1, id') ≠ [] →
          id' < k.2 → id' ∈ s := by
        intro id' hne hlt
        rw [pending_addDataTaskToSend] at hne
        by_cases hkey : (k.1, id') = (queueNo, id)
        · obtain ⟨hq, rfl⟩ := Prod.mk.inj hkey
          exact hadd id' data (hq ▸ List.mem_cons_self) hlt
        · rw [Function.update_of_ne hkey] at hne
          exact hm id' hne hlt
      have hrest := ih hnot.of_cons hkeys hadd' hend
      have hwork : Priority.workBefore s k.2 (load (addDataTaskToSend m id queueNo data) k.1)
          + addedAhead k ops
            ≤ Priority.workBefore s k.2 (load m k.1) + addedAhead k (.add id queueNo data :: ops) := by
        rw [load_addDataTaskToSend, addedAhead]
        by_cases hq : queueNo = k.1
        · rw [if_pos hq]
          by_cases hlt : id < k.2
          · have := @Priority.workBefore_update_le _ _ (load m k.1) k.2 id s
              (dataList id queueNo data).length
            rw [if_pos ⟨hq, hlt⟩]
            omega
          · rw [if_neg fun h => hlt h.2, Priority.workBefore_update_of_not_lt hlt]
        · rw [if_neg hq, if_neg fun h => hq h.1]
      simp only [runOps, stepOp, fetchCount] at hrest ⊢
      rw [hself] at hrest
      omega
    | fetch =>
      have hround := round_fetch m k.1
      have hstep := hround.potential_le (fun id hne => hm id (load_ne_zero_iff.mp hne))
        (load_ne_zero_iff.mpr hstart)
      have hkeys : ∀ id, (fetchSomeDataToSend m).2.pending (k.1, id) ≠ [] → id < k.2 → id ∈ s :=
        fun id hne => hm id (busyIds_fetch_subset m k.1 hne)
      have hrest := ih hnot.of_cons hkeys hadd' hend
      simp only [runOps, stepOp, fetchCount, addedAhead, Nat.mul_add, Nat.mul_one] at hrest ⊢
      omega

/-- The ids a queue holds entries for, and those a run adds to it. -/
def idsOf (m : MultiplexManager) (q : QueueNum) (ops : List SendOp) : Finset UInt64 :=
  ((m.readySend q).entries.map Prod.fst ++ addedIds ops).toFinset

theorem mem_idsOf_of_pending {m : MultiplexManager} {q : QueueNum} {id : UInt64}
    (h : m.pending (q, id) ≠ []) (ops : List SendOp) : id ∈ idsOf m q ops := by
  obtain ⟨e, he, rfl⟩ := List.mem_map.mp (pending_ne_nil_iff.mp h)
  rw [idsOf, List.mem_toFinset]
  exact List.mem_append_left _ (List.mem_map_of_mem (List.mem_of_mem_filter he))

theorem mem_idsOf_of_add {q : QueueNum} {id : UInt64} {data : Bytes} {ops : List SendOp}
    (h : SendOp.add id q data ∈ ops) (m : MultiplexManager) : id ∈ idsOf m q ops := by
  rw [idsOf, List.mem_toFinset]
  exact List.mem_append_right _ (mem_addedIds h)

/-- The packages ahead of a task, entry by entry and id by id. -/
theorem aheadOf_eq (m : MultiplexManager) (k : TaskKey) (ops : List SendOp) :
    aheadOf m k = Priority.workBefore (idsOf m k.1 ops) k.2 (load m k.1) := by
  have hnodup : (((m.readySend k.1).entries.filter fun e => e.1 < k.2).map Prod.fst).Nodup :=
    (List.pairwise_map.mpr (((m.readySend k.1).sorted.filter _))).imp fun h => h.ne
  have hload : ∀ e ∈ (m.readySend k.1).entries, load m k.1 e.1 = e.2.length := by
    intro e he
    rw [load, MultiplexManager.pending, SortedMap.getD, SortedMap.find?_eq_some_iff.mpr he]
    rfl
  calc aheadOf m k
      = ((((m.readySend k.1).entries.filter fun e => e.1 < k.2).map Prod.fst).map
          (load m k.1)).sum := by
        rw [aheadOf, List.map_map]
        congr 1
        exact List.map_congr_left fun e he => (hload e (List.mem_of_mem_filter he)).symm
    _ = ∑ id ∈ (((m.readySend k.1).entries.filter fun e => e.1 < k.2).map Prod.fst).toFinset,
          load m k.1 id := (List.sum_toFinset _ hnodup).symm
    _ = Priority.workBefore (idsOf m k.1 ops) k.2 (load m k.1) := by
        refine Finset.sum_subset (fun id hid => ?_) fun id hid hnot => ?_
        · obtain ⟨e, he, rfl⟩ := List.mem_map.mp (List.mem_toFinset.mp hid)
          obtain ⟨hmem, hlt⟩ := List.mem_filter.mp he
          refine Finset.mem_filter.mpr ⟨?_, by simpa using hlt⟩
          rw [idsOf, List.mem_toFinset]
          exact List.mem_append_left _ (List.mem_map_of_mem hmem)
        · -- an id without an entry has nothing waiting
          by_contra hne
          obtain ⟨e, he, rfl⟩ := List.mem_map.mp
            (pending_ne_nil_iff.mp (load_ne_zero_iff.mp hne))
          refine hnot (List.mem_toFinset.mpr (List.mem_map_of_mem (List.mem_filter.mpr ⟨?_, ?_⟩)))
          · exact List.mem_of_mem_filter he
          · simpa using (Finset.mem_filter.mp hid).2

/-- **How many fetches finish a task.**  From any state of the sender, and in any run that
does not add the task again, a task has been fetched to its end when there have been as
many fetches as it has packages and, for each full round of the queue's limit among the
packages that were waiting or have been added under smaller ids, one more; whatever
was added to other queues or under larger ids. -/
theorem drained_within {m : MultiplexManager} {k : TaskKey} {ops : List SendOp}
    (hnot : NotAdded k ops)
    (hcount : (m.pending k).length
        + (aheadOf m k + addedAhead k ops) / queConcurrentMap k.1 ≤ fetchCount ops) :
    (runOps m ops).2.pending k = [] := by
  by_contra hne
  have hpot := potential_runOps hnot (fun id hid _ => mem_idsOf_of_pending hid ops)
    (fun id data hadd _ => mem_idsOf_of_add hadd m) hne
  rw [← aheadOf_eq] at hpot
  -- the task still has a package, so the potential is at least one more round
  have hend : 1 ≤ load (runOps m ops).2 k.1 k.2 :=
    Nat.one_le_iff_ne_zero.mpr (load_ne_zero_iff.mpr hne)
  have hstart : load m k.1 k.2 = (m.pending k).length := rfl
  rw [hstart] at hpot
  have hdiv := Nat.lt_mul_div_succ (aheadOf m k + addedAhead k ops) (queConcurrentMap_pos k.1)
  have hmul := Nat.mul_le_mul_left (queConcurrentMap k.1) hcount
  have hmul' := Nat.mul_le_mul_left (queConcurrentMap k.1) hend
  rw [Nat.mul_add] at hmul
  rw [Nat.mul_add] at hdiv
  omega

/-- A task of two packages in a queue of limit one, with a task of two packages before it and
another one added before it in between. -/
theorem drained_within_three :
    (runOps (runOps .new [.add 5 .que7 [1], .add 3 .que7 [2]]).2
      [.fetch, .add 4 .que7 [4], .fetch, .add 5 .que0 [3], .fetch, .fetch, .fetch,
        .fetch]).2.pending (.que7, 5) = [] := by
  refine drained_within (fun data h => ?_) (by decide +kernel)
  simp at h

/-! ### Waiting for ever -/

/-- The smallest ids of a queue, as many as its limit allows, are added once more. -/
def crowd (q : QueueNum) (n : ℕ) : List SendOp :=
  (List.range n).map fun i => .add (UInt64.ofNat i) q []

/-- Time and again the smallest ids are added, and then there is a fetch. -/
def crowded (q : QueueNum) : ℕ → List SendOp
  | 0 => []
  | n + 1 => crowd q (queConcurrentMap q) ++ .fetch :: crowded q n

theorem runOps_crowd (q : QueueNum) (m : MultiplexManager) : ∀ n : ℕ,
    (∀ i < n, (runOps m (crowd q n)).2.pending (q, UInt64.ofNat i) ≠ []) ∧
      ∀ k : TaskKey, (∀ i < n, k ≠ (q, UInt64.ofNat i)) →
        (runOps m (crowd q n)).2.pending k = m.pending k := by
  intro n
  induction n with
  | zero => exact ⟨fun i hi => absurd hi (Nat.not_lt_zero i), fun k _ => rfl⟩
  | succ n ih =>
    have hrun : (runOps m (crowd q (n + 1))).2.pending
        = Function.update (runOps m (crowd q n)).2.pending (q, UInt64.ofNat n)
            (dataList (UInt64.ofNat n) q []) := by
      rw [crowd, List.range_succ, List.map_append, runOps_append, List.map_singleton]
      exact pending_addDataTaskToSend _ _ _ _
    rw [hrun]
    refine ⟨fun i hi => ?_, fun k hk => ?_⟩
    · by_cases hkey : (q, UInt64.ofNat i) = (q, UInt64.ofNat n)
      · rw [hkey, Function.update_self]
        exact List.cons_ne_nil _ _
      · rw [Function.update_of_ne hkey]
        refine ih.1 i ?_
        rcases Nat.lt_succ_iff_lt_or_eq.mp hi with hlt | rfl
        · exact hlt
        · exact absurd rfl hkey
    · rw [Function.update_of_ne (hk n (Nat.lt_succ_self n))]
      exact ih.2 k fun i hi => hk i (by omega)

/-- The ids below a number. -/
theorem encard_lt (id : UInt64) : {id' : UInt64 | id' < id}.encard = id.toNat := by
  have himage : {id' : UInt64 | id' < id} = UInt64.ofNat '' (↑(Finset.range id.toNat) : Set ℕ) := by
    ext id'
    simp only [Set.mem_ofPred_eq, Set.mem_image, Finset.coe_range, Set.mem_Iio]
    constructor
    · intro h
      exact ⟨id'.toNat, UInt64.lt_iff_toNat_lt.mp h, UInt64.ofNat_toNat⟩
    · rintro ⟨n, hn, rfl⟩
      rw [UInt64.lt_iff_toNat_lt, UInt64.toNat_ofNat_of_lt' (hn.trans id.toNat_lt)]
      exact hn
  have hinj : Set.InjOn UInt64.ofNat (↑(Finset.range id.toNat) : Set ℕ) := by
    intro a ha b hb h
    rw [Finset.coe_range, Set.mem_Iio] at ha hb
    rwa [← UInt64.toNat_inj, UInt64.toNat_ofNat_of_lt' (ha.trans id.toNat_lt),
      UInt64.toNat_ofNat_of_lt' (hb.trans id.toNat_lt)] at h
  rw [himage, hinj.encard_image, Set.encard_coe_eq_coe_finsetCard, Finset.card_range]

/-- Behind such a crowd an id has no turn. -/
theorem notMem_turn_of_crowd {m : MultiplexManager} {q : QueueNum} {id : UInt64}
    (hcrowd : ∀ i < queConcurrentMap q, m.pending (q, UInt64.ofNat i) ≠ [])
    (hid : queConcurrentMap q ≤ id.toNat) :
    id ∉ Priority.turn (queConcurrentMap q) (busyIds m q) := by
  rintro ⟨-, hlt⟩
  refine absurd hlt (not_lt.mpr ?_)
  have hle : queConcurrentMap q < 2 ^ 64 := hid.trans_lt id.toNat_lt
  have hcard := encard_lt (UInt64.ofNat (queConcurrentMap q))
  rw [UInt64.toNat_ofNat_of_lt' hle] at hcard
  rw [← hcard]
  refine Set.encard_le_encard fun id' (hid' : id' < _) => ?_
  rw [UInt64.lt_iff_toNat_lt, UInt64.toNat_ofNat_of_lt' hle] at hid'
  refine ⟨?_, UInt64.lt_iff_toNat_lt.mpr (hid'.trans_le hid)⟩
  have := hcrowd id'.toNat hid'
  rwa [UInt64.ofNat_toNat] at this

theorem notAdded_crowded {q : QueueNum} {id : UInt64} (hid : queConcurrentMap q ≤ id.toNat) :
    ∀ n : ℕ, NotAdded (q, id) (crowded q n) := by
  intro n
  induction n with
  | zero => intro data h; exact absurd h List.not_mem_nil
  | succ n ih =>
    intro data h
    rcases List.mem_append.mp h with h | h
    · obtain ⟨i, hi, heq⟩ := List.mem_map.mp h
      rw [List.mem_range] at hi
      have hid' : (UInt64.ofNat i).toNat = id.toNat := congrArg UInt64.toNat (SendOp.add.inj heq).1
      rw [UInt64.toNat_ofNat_of_lt' ((hi.trans_le hid).trans id.toNat_lt)] at hid'
      omega
    · rcases List.mem_cons.mp h with h | h
      · simp at h
      · exact ih data h

theorem fetchCount_append (ops ops' : List SendOp) :
    fetchCount (ops ++ ops') = fetchCount ops + fetchCount ops' := by
  induction ops with
  | nil => rw [List.nil_append, fetchCount, Nat.zero_add]
  | cons op ops ih =>
    cases op with
    | add id q data => exact ih
    | fetch =>
      rw [List.cons_append, fetchCount, fetchCount, ih]
      omega

theorem fetchCount_crowd (q : QueueNum) (n : ℕ) : fetchCount (crowd q n) = 0 := by
  rw [crowd]
  induction List.range n with
  | nil => rfl
  | cons i l ih => exact ih

theorem fetchCount_crowded (q : QueueNum) (n : ℕ) : fetchCount (crowded q n) = n := by
  induction n with
  | zero => rfl
  | succ n ih => rw [crowded, fetchCount_append, fetchCount_crowd, fetchCount, ih, Nat.zero_add]

/-- Behind the crowds nothing of the task is fetched. -/
theorem pending_crowded {q : QueueNum} {id : UInt64} (hid : queConcurrentMap q ≤ id.toNat) :
    ∀ (n : ℕ) (m : MultiplexManager),
      (runOps m (crowded q n)).2.pending (q, id) = m.pending (q, id) := by
  intro n
  induction n with
  | zero => intro m; rfl
  | succ n ih =>
    intro m
    obtain ⟨hcrowd, hother⟩ := runOps_crowd q m (queConcurrentMap q)
    have hself := hother (q, id) fun i hi heq => by
      have hid' := congrArg UInt64.toNat (Prod.mk.inj heq).2
      rw [UInt64.toNat_ofNat_of_lt' ((hi.trans_le hid).trans id.toNat_lt)] at hid'
      omega
    rw [crowded, runOps_append]
    simp only [runOps, stepOp]
    rw [ih, pending_fetchSomeDataToSend, Fifo.serveNext, if_neg, hself]
    exact fun h => notMem_turn_of_crowd hcrowd hid (mem_served_iff.mp h)

/-- An id with fewer ids below it than the limit has its turn at every fetch. -/
theorem pending_runOps_of_lt {k : TaskKey} (hid : k.2.toNat < queConcurrentMap k.1) :
    ∀ {ops : List SendOp} (m : MultiplexManager), NotAdded k ops →
      (runOps m ops).2.pending k = (m.pending k).drop (fetchCount ops) := by
  intro ops
  induction ops with
  | nil => intro m _; rfl
  | cons op ops ih =>
    intro m hnot
    have hrest := ih (stepOp m op).2 hnot.of_cons
    cases op with
    | add id queueNo data =>
      have hself : (addDataTaskToSend m id queueNo data).pending k = m.pending k := by
        rw [pending_addDataTaskToSend, Function.update_of_ne hnot.key_ne]
      simp only [runOps, stepOp, fetchCount] at hrest ⊢
      rw [hrest, hself]
    | fetch =>
      have hturn : k ∈ served m QueueNum.all ∨ m.pending k = [] := by
        by_cases hnil : m.pending k = []
        · exact Or.inr hnil
        · refine Or.inl (mem_served_iff.mpr ⟨hnil, ?_⟩)
          have hsub : Priority.ahead (busyIds m k.1) k.2 ⊆ {id' | id' < k.2} := fun _ h => h.2
          have hcard := Set.encard_le_encard hsub
          rw [encard_lt] at hcard
          exact hcard.trans_lt (by exact_mod_cast hid)
      have htail : (fetchSomeDataToSend m).2.pending k = (m.pending k).drop 1 := by
        rw [pending_fetchSomeDataToSend, Fifo.serveNext, List.drop_one]
        rcases hturn with hserved | hnil
        · rw [if_pos hserved]
        · rw [hnil]
          split_ifs <;> rfl
      simp only [runOps, stepOp, fetchCount] at hrest ⊢
      rw [hrest, htail, List.drop_drop, Nat.add_comm 1]

/-- **Which ids can wait for ever.**  From any state in which a task has packages waiting,
the calls can go on so that nothing of it is fetched, for as many fetches as one likes
and without adding it again, exactly when there are at least as many smaller ids as its
queue's limit.  The few ids below that have their turn at every fetch. -/
theorem starved_iff {m : MultiplexManager} {k : TaskKey} (hbusy : m.pending k ≠ []) :
    ((∀ n, ∃ ops, NotAdded k ops ∧ fetchCount ops = n ∧
        (runOps m ops).2.pending k = m.pending k) ↔ queConcurrentMap k.1 ≤ k.2.toNat)
      ∧ (k.2.toNat < queConcurrentMap k.1 → ∀ ops, NotAdded k ops →
        (runOps m ops).2.pending k = (m.pending k).drop (fetchCount ops)) := by
  refine ⟨⟨fun h => ?_, fun hid n => ?_⟩, fun hid ops hnot => pending_runOps_of_lt hid m hnot⟩
  · by_contra hlt
    -- one fetch takes a package of it
    obtain ⟨ops, hnot, hcount, hsame⟩ := h 1
    have hlen := congrArg List.length (pending_runOps_of_lt (not_le.mp hlt) m hnot)
    rw [hsame, hcount, List.length_drop] at hlen
    have := List.length_pos_iff.mpr hbusy
    omega
  · exact ⟨crowded k.1 n, notAdded_crowded hid n, fetchCount_crowded k.1 n,
      pending_crowded hid n m⟩

/-- In a queue of limit one every id but zero can wait for ever. -/
theorem starved_iff_one :
    (∀ n, ∃ ops, NotAdded (.que7, 1) ops ∧ fetchCount ops = n ∧
      (runOps (addDataTaskToSend .new 1 .que7 [97]) ops).2.pending (.que7, 1)
        = (addDataTaskToSend .new 1 .que7 [97]).pending (.que7, 1))
      ∧ (runOps (addDataTaskToSend .new 0 .que7 [97])
        [.add 1 .que7 [98], .fetch, .fetch]).2.pending (.que7, 0) = [] := by
  refine ⟨(starved_iff (by decide +kernel)).1.mpr (by decide), ?_⟩
  have hdrop := (@starved_iff (addDataTaskToSend .new 0 .que7 [97]) (.que7, 0)
    (by decide +kernel)).2 (by decide) [.add 1 .que7 [98], .fetch, .fetch]
    (fun data h => by simp at h)
  rw [hdrop]
  decide +kernel

end AndrenBoost.Multiplex
