import AndrenBoost.Multiplex.Conservation
import AndrenBoost.Multiplex.Receiver
import Mathlib.Algebra.Order.BigOperators.Group.List

/-!
# From the sender to the receiver

The whole transfer: tasks are added and fetched in any order, the sender is
emptied, every string fetched is parsed by a fresh receiver in the order it was
fetched, and the receiver is asked for a task's data.

## Main definitions

* `transmitted` — every string a run fetches, the emptying loop included.
* `transfer` — what the receiver has for an id after all of them.
* `mergeRounds` — two lists taken from in turns.

## Main results

* `received_eq` — the receiver holds the segments of a task, less those of eight
  bytes: a data package of that length is as long as an announcement.
* `transfer_iff` — **tasks with distinct ids all arrive exactly when none of them
  leaves a segment of eight bytes.**
* `two_queues_merge` — two tasks that share an id arrive merged round by round.
-/

namespace AndrenBoost.Multiplex

/-- The ids of the tasks added, in call order. -/
def addedIds : List SendOp → List UInt64
  | [] => []
  | .add id _ _ :: ops => id :: addedIds ops
  | .fetch :: ops => addedIds ops

/-- Every string fetched: by the calls of `ops`, then by the loop that empties
the sender. -/
def transmitted (ops : List SendOp) : Option (List Bytes) :=
  let r := runOps .new ops
  (fetchUntilEmpty (pendingCount r.2 + 1) r.2).map fun d => r.1 ++ d.1.flatten

/-- What `take_out_recv_in_advance(id)` returns on a fresh receiver that has
parsed every string transmitted; `none` if the loop does not end or a read leaves
a string. -/
def transfer (ops : List SendOp) (id : UInt64) : Option (Bool × Bytes) :=
  (transmitted ops).bind fun raws =>
    match receiveAll .new raws with
    | .error _ => none
    | .ok m => some (takeOutRecvInAdvance m id).1

/-! ### The strings transmitted -/

/-- Further fetches add nothing under any key. -/
theorem addsFor_append_fetches (k : TaskKey) (n : ℕ) : ∀ ops : List SendOp,
    addsFor k (ops ++ List.replicate n .fetch) = addsFor k ops := by
  intro ops
  induction ops with
  | nil =>
    induction n with
    | zero => rfl
    | succ n ih => exact ih
  | cons op ops ih =>
    cases op with
    | add id queueNo data => simp only [List.cons_append, addsFor, ih]
    | fetch => exact ih

/-- The strings transmitted are the strings of a run that adds the same tasks
and leaves nothing pending. -/
theorem transmitted_eq (ops : List SendOp) : ∃ ops', (∀ k, addsFor k ops' = addsFor k ops) ∧
    transmitted ops = some (runOps .new ops').1 ∧ ∀ k, (runOps .new ops').2.pending k = [] := by
  obtain ⟨out, m', hloop, hleft, -⟩ :=
    fetchUntilEmpty_spec (tagged_runOps ops) (Nat.lt_succ_self _)
  have hrun := runOps_of_fetchUntilEmpty hloop
  refine ⟨ops ++ List.replicate (out.length + 1) .fetch, fun k => addsFor_append_fetches k _ ops,
    ?_, ?_⟩
  · rw [transmitted, hloop, runOps_append, hrun]
    rfl
  · rw [runOps_append, hrun]
    exact hleft

/-- Nothing of a key is fetched when nothing is added under it. -/
theorem fetchedFor_of_addsFor_nil {ops : List SendOp} {k : TaskKey} (h : addsFor k ops = []) :
    fetchedFor k (runOps .new ops).1 = [] := by
  obtain ⟨kept, hlen, hzip, hflat⟩ := runOps_ledger ops k
  rw [h] at hlen hzip
  obtain ⟨first, rfl⟩ := List.length_eq_one_iff.mp (hlen : kept.length = 1)
  have hdisc : discardedFor k .new ops = [] := by
    rw [← List.length_eq_zero_iff, length_discardedFor, h, List.length_nil]
  rw [hdisc] at hzip
  have hfirst : first = [] := by simpa using (List.append_eq_nil_iff.mp (List.cons.inj hzip).1).1
  rw [hflat, hfirst]
  rfl

/-- All of a task's strings are fetched, in order, when it is the only one added
under its key and nothing of it is pending. -/
theorem fetchedFor_of_addsFor_singleton {ops : List SendOp} {k : TaskKey} {block : List Bytes}
    (h : addsFor k ops = [block]) (hpend : (runOps .new ops).2.pending k = []) :
    fetchedFor k (runOps .new ops).1 = block := by
  obtain ⟨kept, hlen, hzip, hflat⟩ := runOps_ledger ops k
  rw [h] at hlen hzip
  obtain ⟨first, second, rfl⟩ := List.length_eq_two.mp (hlen : kept.length = 2)
  obtain ⟨d, hdisc⟩ : ∃ d, discardedFor k .new ops = [d] := by
    rw [← List.length_eq_one_iff, length_discardedFor, h]
    rfl
  rw [hdisc, hpend] at hzip
  simp only [List.cons_append, List.nil_append, List.zipWith_cons_cons, List.zipWith_nil_left,
    List.append_nil, List.cons.injEq, List.append_eq_nil_iff, and_true] at hzip
  rw [hflat, hzip.1.1, ← hzip.2]
  simp

/-- Every string fetched is a string of some added task. -/
theorem exists_dataList_of_mem {ops : List SendOp} {raw : Bytes}
    (h : raw ∈ (runOps .new ops).1) :
    ∃ (k : TaskKey) (data : Bytes),
      SendOp.add k.2 k.1 data ∈ ops ∧ raw ∈ dataList k.2 k.1 data := by
  have hok := actsOf_ok ops .new
  have htag := Fifo.exists_tag_of_mem_run tagged_new hok raw (by rw [run_pending]; exact h)
  obtain ⟨k, hk⟩ := htag
  obtain ⟨kept, hlen, hzip, hflat⟩ := runOps_ledger ops k
  have hmem : raw ∈ fetchedFor k (runOps .new ops).1 :=
    List.mem_filter.mpr ⟨h, by simpa using hk⟩
  rw [hflat] at hmem
  obtain ⟨part, hpart, hraw⟩ := List.mem_flatten.mp hmem
  obtain ⟨block, hblock, hpre⟩ := exists_block_of_mem_kept hlen hzip hpart
  have hmem' := hpre.subset hraw
  rcases List.mem_cons.mp hblock with rfl | hadds
  · simp at hmem'
  · obtain ⟨data, hadd, rfl⟩ := exists_of_mem_addsFor hadds
    exact ⟨k, data, hadd, hmem'⟩

/-! ### What the receiver makes of a task's strings -/

theorem length_packageOf (id : UInt64) (queueNo : QueueNum) (payload : Bytes) :
    (packageOf id queueNo payload).length = sizeofPackageMeta + payload.length := by
  rw [packageOf, List.length_append, MultiplexPackageMeta.length_toBytes]

/-- A data package is taken for one unless it is as long as an announcement. -/
theorem takenAsPackage_packageOf_iff (id : UInt64) (queueNo : QueueNum) (payload : Bytes) :
    TakenAsPackage (packageOf id queueNo payload) ↔ payload.length ≠ 8 := by
  have hdata := isDataPackage_packageOf id queueNo payload
  rw [TakenAsPackage, length_packageOf, sizeofMeta, sizeofPackageMeta]
  constructor
  · rintro ⟨h, -, -⟩
    omega
  · intro h
    exact ⟨by omega, by omega, hdata⟩

theorem not_takenAsPackage_metaData (id : UInt64) (queueNo : QueueNum) (data : Bytes) :
    ¬ TakenAsPackage (metaData id queueNo data) := by
  rw [metaData_eq]
  exact fun h => h.1 (MultiplexMeta.length_toBytes _)

theorem wellFormed_of_mem_dataList {id : UInt64} {queueNo : QueueNum} {data raw : Bytes}
    (h : raw ∈ dataList id queueNo data) : WellFormed raw := by
  have hs := queSizeMap_pos queueNo
  intro ht
  rw [dataList_eq] at h
  rcases List.mem_cons.mp h with rfl | h
  · exact absurd ht (not_takenAsPackage_metaData id queueNo data)
  · obtain ⟨payload, hmem, rfl⟩ := List.mem_map.mp h
    rw [sizeField_packageOf id queueNo (length_le_of_mem_segments hs hmem), length_packageOf]

/-- What the receiver stores for a segment: the segment, unless it has eight
bytes. -/
theorem payloadFor_packageOf (id : UInt64) (queueNo : QueueNum) {payload : Bytes}
    (h : payload.length ≤ queSizeMap queueNo) :
    payloadFor id (packageOf id queueNo payload)
      = if payload.length ≠ 8 then some payload else none := by
  have hid : (MultiplexPackageMeta.ofBytes (packageOf id queueNo payload)).id = id := by
    rw [packageOf, MultiplexPackageMeta.ofBytes_toBytes_append]
  have hslice : slice sizeofPackageMeta payload.length (packageOf id queueNo payload)
      = payload := by
    rw [packageOf, slice_append_right (k := 0) _ _ (by simp), slice, List.drop_zero,
      List.take_length]
  rw [payloadFor, hid, sizeField_packageOf id queueNo h, hslice]
  simp only [takenAsPackage_packageOf_iff, and_true]

/-- What the receiver stores of a task. -/
theorem filterMap_payloadFor_dataList (id : UInt64) (queueNo : QueueNum) (data : Bytes) :
    (dataList id queueNo data).filterMap (payloadFor id)
      = (segments (queSizeMap queueNo) data).filter fun seg => seg.length ≠ 8 := by
  have hs := queSizeMap_pos queueNo
  have hnone : payloadFor id (metaData id queueNo data) = none := by
    rw [payloadFor, if_neg fun h => not_takenAsPackage_metaData id queueNo data h.1]
  rw [dataList_eq, List.filterMap_cons_none hnone, List.filterMap_map, ← List.filterMap_eq_filter]
  refine List.filterMap_congr fun seg hseg => ?_
  rw [Function.comp_apply, payloadFor_packageOf id queueNo (length_le_of_mem_segments hs hseg)]
  by_cases h : seg.length = 8 <;> simp [h, Option.guard]

/-- A string stored for `id` carries a key with that id. -/
theorem exists_keyOf_of_payloadFor {id : UInt64} {queueNo : QueueNum} {id' : UInt64}
    {raw : Bytes} (hkey : keyOf raw = some (queueNo, id')) (h : payloadFor id raw ≠ none) :
    id' = id := by
  rw [payloadFor] at h
  split_ifs at h with hc
  · rw [keyOf, if_neg hc.1.2.2.not_isAnnouncement, if_pos hc.1.2.2] at hkey
    obtain ⟨q, -, hq⟩ := Option.map_eq_some_iff.mp hkey
    rw [← (Prod.mk.inj hq).2, hc.2]
  · exact absurd rfl h

/-- What taking out the strings `payloads` returns. -/
def takenOut (payloads : List Bytes) : Bool × Bytes :=
  if payloads = [] then (false, []) else (true, payloads.flatten)

/-- A transfer gives what the strings of some drained run store for the id. -/
theorem transfer_eq (ops : List SendOp) : ∃ ops', (∀ k, addsFor k ops' = addsFor k ops) ∧
    transmitted ops = some (runOps .new ops').1 ∧ (∀ k, (runOps .new ops').2.pending k = []) ∧
      ∀ id, transfer ops id
        = some (takenOut ((runOps .new ops').1.filterMap (payloadFor id))) := by
  obtain ⟨ops', hadds, htrans, hleft⟩ := transmitted_eq ops
  refine ⟨ops', hadds, htrans, hleft, fun id => ?_⟩
  have hwell : ∀ raw ∈ (runOps .new ops').1, WellFormed raw := fun raw hraw => by
    obtain ⟨k, data, -, hmem⟩ := exists_dataList_of_mem hraw
    exact wellFormed_of_mem_dataList hmem
  obtain ⟨m', hrecv, hfind⟩ := @receiveAll_spec _ .new hwell
  rw [transfer, htrans, Option.bind_some, hrecv, takenOut]
  have hnew : MultiplexManager.new.readyRecv.find? id = none := rfl
  have hid := hfind id
  rw [hnew, SortedMap.getD, hnew] at hid
  split_ifs at hid ⊢ with hnil
  · simp only [fst_takeOutRecvInAdvance_of_none hid]
  · simp only [fst_takeOutRecvInAdvance_of_some hid]
    rfl

/-- When only one queue has strings of the id, what is stored for it comes from
there. -/
theorem filterMap_payloadFor_eq {id : UInt64} {queueNo : QueueNum} {raws : List Bytes}
    (h : ∀ raw ∈ raws, payloadFor id raw ≠ none → keyOf raw = some (queueNo, id)) :
    raws.filterMap (payloadFor id)
      = (fetchedFor (queueNo, id) raws).filterMap (payloadFor id) := by
  rw [fetchedFor, Fifo.sent, List.filterMap_filter]
  refine List.filterMap_congr fun raw hraw => ?_
  by_cases hp : payloadFor id raw = none
  · simp [hp]
  · simp [h raw hraw hp]

/-- What a task alone with its id arrives as: its segments, less those of eight
bytes. -/
theorem received_eq {ops : List SendOp} {id : UInt64} {queueNo : QueueNum} {data : Bytes}
    (hself : addsFor (queueNo, id) ops = [dataList id queueNo data])
    (hother : ∀ q, q ≠ queueNo → addsFor (q, id) ops = []) :
    transfer ops id = some (takenOut
      ((segments (queSizeMap queueNo) data).filter fun seg => seg.length ≠ 8)) := by
  obtain ⟨ops', hadds, -, hleft, htransfer⟩ := transfer_eq ops
  -- the receiver sees the id only, but no other queue has strings of it
  have hall := fetchedFor_of_addsFor_singleton ((hadds _).trans hself) (hleft _)
  have honly : ∀ raw ∈ (runOps .new ops').1, payloadFor id raw ≠ none →
      keyOf raw = some (queueNo, id) := fun raw hraw hp => by
    obtain ⟨⟨q, id'⟩, data', -, hmem⟩ := exists_dataList_of_mem hraw
    have hkey := keyOf_of_mem_dataList hmem
    obtain rfl : id' = id := exists_keyOf_of_payloadFor hkey hp
    by_cases hq : q = queueNo
    · rw [hkey, hq]
    · -- the other queues have no strings of the id
      have hnone := fetchedFor_of_addsFor_nil ((hadds _).trans (hother q hq))
      have hmem' : raw ∈ fetchedFor (q, id') (runOps .new ops').1 :=
        List.mem_filter.mpr ⟨hraw, by simpa using hkey⟩
      rw [hnone] at hmem'
      simp at hmem'
  rw [htransfer, filterMap_payloadFor_eq honly, hall, filterMap_payloadFor_dataList]

/-! ### Tasks with distinct ids -/

theorem addsFor_of_not_mem {id : UInt64} (queueNo : QueueNum) : ∀ {ops : List SendOp},
    id ∉ addedIds ops → addsFor (queueNo, id) ops = [] := by
  intro ops
  induction ops with
  | nil => intro _; rfl
  | cons op ops ih =>
    intro h
    cases op with
    | add id' queueNo' data =>
      rw [addedIds, List.mem_cons, not_or] at h
      rw [addsFor, if_neg fun hk => h.1 (Prod.mk.inj hk).2.symm, ih h.2]
    | fetch => exact ih h

theorem mem_addedIds {id : UInt64} {queueNo : QueueNum} {data : Bytes} : ∀ {ops : List SendOp},
    SendOp.add id queueNo data ∈ ops → id ∈ addedIds ops := by
  intro ops
  induction ops with
  | nil => intro h; simp at h
  | cons op ops ih =>
    intro h
    rcases List.mem_cons.mp h with rfl | hmem
    · exact List.mem_cons_self
    · cases op with
      | add id' queueNo' data' => exact List.mem_cons_of_mem _ (ih hmem)
      | fetch => exact ih hmem

/-- With distinct ids a task is the only one added with its id. -/
theorem addsFor_of_nodup {id : UInt64} {queueNo : QueueNum} {data : Bytes} :
    ∀ {ops : List SendOp}, (addedIds ops).Nodup → SendOp.add id queueNo data ∈ ops →
      addsFor (queueNo, id) ops = [dataList id queueNo data] ∧
        ∀ q, q ≠ queueNo → addsFor (q, id) ops = [] := by
  intro ops
  induction ops with
  | nil => intro _ h; simp at h
  | cons op ops ih =>
    intro hnodup h
    cases op with
    | add id' queueNo' data' =>
      rw [addedIds, List.nodup_cons] at hnodup
      rcases List.mem_cons.mp h with heq | h
      · obtain ⟨rfl, rfl, rfl⟩ := SendOp.add.inj heq
        refine ⟨by rw [addsFor, if_pos rfl, addsFor_of_not_mem queueNo hnodup.1], fun q hq => ?_⟩
        rw [addsFor, if_neg fun hk => hq (Prod.mk.inj hk).1.symm, addsFor_of_not_mem q hnodup.1]
      · have hne : id' ≠ id := fun hid => hnodup.1 (hid ▸ mem_addedIds h)
        obtain ⟨h1, h2⟩ := ih hnodup.2 h
        refine ⟨?_, fun q hq => ?_⟩
        · rw [addsFor, if_neg fun hk => hne (Prod.mk.inj hk).2, h1]
        · rw [addsFor, if_neg fun hk => hne (Prod.mk.inj hk).2, h2 q hq]
    | fetch =>
      rcases List.mem_cons.mp h with heq | h
      · simp at heq
      · exact ih hnodup h

/-- Leaving out a non-empty piece shortens the whole. -/
theorem length_flatten_filter_lt {p : Bytes → Bool} : ∀ {l : List Bytes} {x : Bytes}, x ∈ l →
    p x = false → x ≠ [] → (l.filter p).flatten.length < l.flatten.length := by
  intro l
  induction l with
  | nil => intro x h; simp at h
  | cons y l ih =>
    intro x hx hp hne
    have hle : (l.filter p).flatten.length ≤ l.flatten.length := by
      rw [List.length_flatten, List.length_flatten]
      exact (List.filter_sublist.map _).sum_le_sum fun _ _ => Nat.zero_le _
    rcases List.mem_cons.mp hx with rfl | hx
    · have := List.length_pos_iff.mpr hne
      rw [List.filter_cons_of_neg (by simp [hp]), List.flatten_cons, List.length_append]
      omega
    · have := ih hx hp hne
      by_cases hy : p y = true
      · rw [List.filter_cons_of_pos hy, List.flatten_cons, List.flatten_cons, List.length_append,
          List.length_append]
        omega
      · rw [List.filter_cons_of_neg hy, List.flatten_cons, List.length_append]
        omega

/-- Taking out the segments that are not of eight bytes gives the data exactly
when there is none of eight bytes. -/
theorem takenOut_segments_iff {s : ℕ} (hs : 8 < s) (data : Bytes) :
    takenOut ((segments s data).filter fun seg => seg.length ≠ 8) = (true, data) ↔
      data.length % s ≠ 8 := by
  rw [Ne, ← exists_length_eq_iff (by decide : 0 < 8) hs data]
  have hflat := flatten_segments (by omega : 0 < s) data
  constructor
  · rintro h ⟨seg, hseg, hlen⟩
    have hne : seg ≠ [] := by
      rintro rfl
      simp at hlen
    have hlt := length_flatten_filter_lt (p := fun seg : Bytes => decide (seg.length ≠ 8)) hseg
      (by simp [hlen]) hne
    rw [takenOut] at h
    split_ifs at h with hnil
    · simp at h
    · rw [(Prod.mk.inj h).2, hflat] at hlt
      omega
  · intro h
    have hall : ((segments s data).filter fun seg => seg.length ≠ 8) = segments s data :=
      List.filter_eq_self.mpr fun seg hseg => by
        simpa using fun hlen => h ⟨seg, hseg, hlen⟩
    rw [hall, takenOut, if_neg (segments_ne_nil s data), hflat]

/-- **Transfer.**  Tasks with distinct ids, added and fetched in any order and
then fetched to the end, all arrive with their data exactly when no task leaves a
last segment of eight bytes. -/
theorem transfer_iff (ops : List SendOp) (hids : (addedIds ops).Nodup) :
    (∀ id queueNo data, SendOp.add id queueNo data ∈ ops →
      transfer ops id = some (true, data)) ↔
    ∀ id queueNo data, SendOp.add id queueNo data ∈ ops →
      data.length % queSizeMap queueNo ≠ 8 := by
  -- with distinct ids each task can be looked at on its own
  have htask : ∀ id queueNo data, SendOp.add id queueNo data ∈ ops →
      (transfer ops id = some (true, data) ↔ data.length % queSizeMap queueNo ≠ 8) := by
    intro id queueNo data hadd
    obtain ⟨hself, hother⟩ := addsFor_of_nodup hids hadd
    have hs := queSizeMap_ge queueNo
    rw [received_eq hself hother, Option.some.injEq]
    exact takenOut_segments_iff (by omega) data
  exact forall_congr' fun id => forall_congr' fun queueNo => forall_congr' fun data =>
    forall_congr' fun hadd => htask id queueNo data hadd

/-- Two tasks of one and of three bytes arrive. -/
theorem transfer_iff_two_tasks :
    transfer [.add 1 .que0 [97], .fetch, .add 2 .que5 [98, 99, 100]] 2
      = some (true, [98, 99, 100]) := by
  refine (transfer_iff [.add 1 .que0 [97], .fetch, .add 2 .que5 [98, 99, 100]] (by decide)).mpr
    ?_ 2 .que5 [98, 99, 100] (by simp)
  intro id queueNo data h
  simp only [List.mem_cons, SendOp.add.injEq, reduceCtorEq, List.not_mem_nil, or_false,
    false_or] at h
  rcases h with ⟨-, rfl, rfl⟩ | ⟨-, rfl, rfl⟩ <;> decide

/-- A task of eight bytes does not arrive: its data package is as long as an
announcement. -/
theorem eight_bytes_lost :
    ¬ transfer [.add 1 .que0 (ascii "12345678")] 1 = some (true, ascii "12345678") := by
  decide +kernel

/-! ### Tasks that share an id -/

/-- Two lists taken from in turns, the first list first; when one runs out the
other follows. -/
def mergeRounds {α : Type*} : List α → List α → List α
  | [], l => l
  | l, [] => l
  | a :: l, b :: l' => a :: b :: mergeRounds l l'

@[simp] theorem mergeRounds_nil_left {α : Type*} (l : List α) : mergeRounds [] l = l := by
  cases l <;> rfl

@[simp] theorem mergeRounds_nil_right {α : Type*} (l : List α) : mergeRounds l [] = l := by
  cases l <;> rfl

@[simp] theorem mergeRounds_cons_cons {α : Type*} (a b : α) (l l' : List α) :
    mergeRounds (a :: l) (b :: l') = a :: b :: mergeRounds l l' := rfl

/-- One round of a merge takes the front of each list. -/
theorem mergeRounds_eq {α : Type*} (l l' : List α) :
    mergeRounds l l' = l.head?.toList ++ l'.head?.toList ++ mergeRounds l.tail l'.tail := by
  cases l <;> cases l' <;> simp

/-- Decoding a merge of encoded lists. -/
theorem filterMap_mergeRounds {α β : Type*} {f : β → Option α} {g g' : α → β} :
    ∀ {l l' : List α}, (∀ x ∈ l, f (g x) = some x) → (∀ x ∈ l', f (g' x) = some x) →
      (mergeRounds (l.map g) (l'.map g')).filterMap f = mergeRounds l l' := by
  have hmap : ∀ {g : α → β} {l : List α}, (∀ x ∈ l, f (g x) = some x) →
      (l.map g).filterMap f = l := by
    intro g l hl
    rw [List.filterMap_map]
    calc l.filterMap (f ∘ g) = l.filterMap some := List.filterMap_congr fun x hx => hl x hx
      _ = l := List.filterMap_some
  intro l
  induction l with
  | nil => intro l' _ hl'; simpa using hmap hl'
  | cons a l ih =>
    intro l' hl hl'
    cases l' with
    | nil => simpa using hmap hl
    | cons b l' =>
      rw [List.forall_mem_cons] at hl hl'
      simp only [List.map_cons, mergeRounds_cons_cons,
        List.filterMap_cons_some hl.1, List.filterMap_cons_some hl'.1, ih hl.2 hl'.2]

/-- The queues with one before another picked out. -/
theorem QueueNum.exists_split {q₁ q₂ : QueueNum} (h : q₁.toUInt8 < q₂.toUInt8) :
    ∃ a b c, QueueNum.all = a ++ q₁ :: (b ++ q₂ :: c) := by
  have h₁ := List.append_of_mem (QueueNum.mem_all q₁)
  obtain ⟨a, rest, ha⟩ := h₁
  have hord : QueueNum.all.Pairwise fun q q' => q.toUInt8 < q'.toUInt8 := by decide
  have hmem : q₂ ∈ rest := by
    have hall := QueueNum.mem_all q₂
    rw [ha] at hall hord
    rcases List.mem_append.mp hall with hq | hq
    · exact absurd ((List.pairwise_append.mp hord).2.2 q₂ hq q₁ List.mem_cons_self)
        (UInt8.lt_asymm h)
    · rcases List.mem_cons.mp hq with rfl | hq
      · exact absurd h (UInt8.lt_irrefl _)
      · exact hq
  obtain ⟨b, c, hb⟩ := List.append_of_mem hmem
  exact ⟨a, b, c, by rw [ha, hb]⟩

/-- Only tasks of this id are waiting. -/
def OnlyId (id : UInt64) (m : MultiplexManager) : Prop := ∀ k : TaskKey, k.2 ≠ id → m.pending k = []

/-- With one id waiting, a queue's limit never matters: the id is served whenever
it has something to serve. -/
theorem servedIds_of_onlyId {id : UInt64} {m : MultiplexManager} (h : OnlyId id m)
    (q : QueueNum) : servedIds (queConcurrentMap q) (m.readySend q).entries
      = if m.pending (q, id) = [] then [] else [id] := by
  have hids : ∀ id' ∈ servedIds (queConcurrentMap q) (m.readySend q).entries,
      id' = id ∧ m.pending (q, id') ≠ [] := by
    intro id' hid'
    have hne := pending_ne_nil_of_mem_servedIds hid'
    exact ⟨by_contra fun hid => hne (h (q, id') hid), hne⟩
  have hnodup := nodup_servedIds (queConcurrentMap q) (m.readySend q)
  cases hl : servedIds (queConcurrentMap q) (m.readySend q).entries with
  | nil => rw [if_pos (servedIds_eq_nil_iff.mp hl id)]
  | cons id' rest =>
    rw [hl] at hids hnodup
    rw [List.forall_mem_cons] at hids
    obtain ⟨⟨rfl, hne⟩, hrest⟩ := hids
    have hnil : rest = [] := List.eq_nil_iff_forall_not_mem.mpr fun x hx =>
      (List.nodup_cons.mp hnodup).1 ((hrest x hx).1 ▸ hx)
    rw [hnil, if_neg hne]

theorem fst_fetchSomeDataToSend_of_onlyId {id : UInt64} {m : MultiplexManager}
    (h : OnlyId id m) : (fetchSomeDataToSend m).1
      = QueueNum.all.flatMap fun q => (m.pending (q, id)).head?.toList := by
  rw [fst_fetchSomeDataToSend, Fifo.serveOut, served, List.flatMap_assoc]
  refine List.flatMap_congr fun q _ => ?_
  rw [servedIds_of_onlyId h]
  split_ifs with hnil
  · rw [hnil]
    rfl
  · simp

theorem pending_fetchSomeDataToSend_of_onlyId {id : UInt64} {m : MultiplexManager}
    (h : OnlyId id m) (k : TaskKey) :
    (fetchSomeDataToSend m).2.pending k = (m.pending k).tail := by
  rw [pending_fetchSomeDataToSend, Fifo.serveNext]
  split_ifs with hk
  · rfl
  · rw [mem_served, servedIds_of_onlyId h] at hk
    by_cases hid : k.2 = id
    · rw [← hid] at hk
      split_ifs at hk with hnil
      · rw [hnil]
        rfl
      · simp at hk
    · rw [h k hid]
      rfl

/-- The emptying loop with one id waiting in two queues: the two deques in turns,
the lower queue first. -/
theorem fetchUntilEmpty_of_onlyId {id : UInt64} {q₁ q₂ : QueueNum}
    (hq : q₁.toUInt8 < q₂.toUInt8) : ∀ {calls : ℕ} {m m' : MultiplexManager}
    {out : List (List Bytes)}, OnlyId id m → (∀ q, q ≠ q₁ → q ≠ q₂ → m.pending (q, id) = []) →
      fetchUntilEmpty calls m = some (out, m') →
        out.flatten = mergeRounds (m.pending (q₁, id)) (m.pending (q₂, id)) := by
  intro calls
  induction calls with
  | zero => intro m m' out _ _ h; simp [fetchUntilEmpty] at h
  | succ calls ih =>
    intro m m' out honly hother h
    rw [fetchUntilEmpty] at h
    -- one call takes the front of each of the two deques
    have hround : (fetchSomeDataToSend m).1
        = (m.pending (q₁, id)).head?.toList ++ (m.pending (q₂, id)).head?.toList := by
      obtain ⟨a, b, c, hall⟩ := QueueNum.exists_split hq
      have hnodup := QueueNum.nodup_all
      rw [hall] at hnodup
      have hnone : ∀ l : List QueueNum, q₁ ∉ l → q₂ ∉ l →
          (l.flatMap fun q => (m.pending (q, id)).head?.toList) = [] := fun l h₁ h₂ =>
        List.flatMap_eq_nil_iff.mpr fun q hmem => by
          rw [hother q (fun h => h₁ (h ▸ hmem)) fun h => h₂ (h ▸ hmem)]
          rfl
      simp only [List.nodup_append, List.nodup_cons, List.mem_append, List.mem_cons,
        not_or] at hnodup
      rw [fst_fetchSomeDataToSend_of_onlyId honly, hall]
      simp only [List.flatMap_append, List.flatMap_cons]
      rw [hnone a (by grind) (by grind), hnone b (by grind) (by grind),
        hnone c (by grind) (by grind)]
      simp
    split_ifs at h with hnil
    · have hempty := (fetch_eq_nil_iff m).mp hnil
      simp only [Option.some.injEq, Prod.mk.injEq] at h
      rw [← h.1, hempty, hempty]
      rfl
    · obtain ⟨rest, hrest, heq⟩ := Option.map_eq_some_iff.mp h
      simp only [Prod.mk.injEq] at heq
      have hnext := pending_fetchSomeDataToSend_of_onlyId honly
      have := ih (fun k hk => by rw [hnext, honly k hk]; rfl)
        (fun q h₁ h₂ => by rw [hnext, hother q h₁ h₂]; rfl) hrest
      rw [← heq.1, List.flatten_cons, this, hnext, hnext, hround, ← mergeRounds_eq]

/-- A list that fits in one segment is its one segment. -/
theorem segments_eq_singleton {s : ℕ} (hs : 0 < s) {data : Bytes} (h : data.length ≤ s) :
    segments s data = [data] := by
  obtain ⟨seg, hseg⟩ := List.length_eq_one_iff.mp ((length_segments_eq_one_iff hs data).mpr h)
  have hflat := flatten_segments hs data
  rw [hseg, List.flatten_singleton] at hflat
  rw [hseg, hflat]

/-- Merging with a single first element, or with a single empty last one, does
not mix. -/
theorem flatten_mergeRounds {segs₁ segs₂ : List Bytes} (hne₂ : segs₂ ≠ [])
    (h : segs₁.length = 1 ∨ segs₂ = [[]]) :
    (mergeRounds segs₁ segs₂).flatten = segs₁.flatten ++ segs₂.flatten := by
  rcases h with h | rfl
  · obtain ⟨seg, rfl⟩ := List.length_eq_one_iff.mp h
    obtain ⟨b, l, rfl⟩ := List.exists_cons_of_ne_nil hne₂
    simp
  · cases segs₁ <;> simp

/-- What is waiting after two tasks with one id have been added to two queues. -/
theorem pending_add_add {id : UInt64} {q₁ q₂ : QueueNum} {data₁ data₂ : Bytes}
    {ops : List SendOp} (hne : q₁ ≠ q₂)
    (hops : ops = [.add id q₁ data₁, .add id q₂ data₂] ∨
      ops = [.add id q₂ data₂, .add id q₁ data₁]) :
    (runOps .new ops).1 = [] ∧ ∀ k, (runOps .new ops).2.pending k
      = if k = (q₁, id) then dataList id q₁ data₁
        else if k = (q₂, id) then dataList id q₂ data₂ else [] := by
  have hkey : (q₁, id) ≠ (q₂, id) := fun h => hne (Prod.mk.inj h).1
  rcases hops with rfl | rfl
  · refine ⟨rfl, fun k => ?_⟩
    simp only [runOps, stepOp, pending_addDataTaskToSend, pending_new, Function.update_apply]
    by_cases h : k = (q₁, id)
    · rw [h, if_neg hkey, if_pos rfl, if_pos rfl]
    · rw [if_neg h, if_neg h]
  · refine ⟨rfl, fun k => ?_⟩
    simp only [runOps, stepOp, pending_addDataTaskToSend, pending_new, Function.update_apply]

/-- The strings two such tasks put on the wire. -/
theorem transmitted_two_queues {id : UInt64} {q₁ q₂ : QueueNum} {data₁ data₂ : Bytes}
    {ops : List SendOp} (hq : q₁.toUInt8 < q₂.toUInt8)
    (hops : ops = [.add id q₁ data₁, .add id q₂ data₂] ∨
      ops = [.add id q₂ data₂, .add id q₁ data₁]) :
    transmitted ops = some (mergeRounds (dataList id q₁ data₁) (dataList id q₂ data₂)) := by
  have hne : q₁ ≠ q₂ := by
    rintro rfl
    exact UInt8.lt_irrefl _ hq
  obtain ⟨hout, hpend⟩ := pending_add_add hne hops
  obtain ⟨out, m', hloop, -, -⟩ := fetchUntilEmpty_spec (tagged_runOps ops) (Nat.lt_succ_self _)
  have honly : OnlyId id (runOps .new ops).2 := fun k hk => by
    rw [hpend, if_neg fun h => hk (congrArg Prod.snd h),
      if_neg fun h => hk (congrArg Prod.snd h)]
  have hother : ∀ q, q ≠ q₁ → q ≠ q₂ → (runOps .new ops).2.pending (q, id) = [] :=
    fun q h₁ h₂ => by
      rw [hpend, if_neg fun h => h₁ (congrArg Prod.fst h),
        if_neg fun h => h₂ (congrArg Prod.fst h)]
  have hflat := fetchUntilEmpty_of_onlyId hq honly hother hloop
  rw [hpend, hpend, if_pos rfl, if_neg fun h => hne (congrArg Prod.fst h).symm, if_pos rfl] at hflat
  rw [transmitted, hloop, Option.map_some, hout, hflat, List.nil_append]

/-- **Two tasks under one id.**  Added to two queues of a fresh sender, in either
order, and with no segment of eight bytes, two tasks that share an id arrive as
the merge of their segments round by round, the lower queue's first.  That is the
one's data followed by the other's if the lower queue's task is a single segment
or the other is empty. -/
theorem two_queues_merge {id : UInt64} {q₁ q₂ : QueueNum} {data₁ data₂ : Bytes}
    {ops : List SendOp} (hq : q₁.toUInt8 < q₂.toUInt8)
    (hops : ops = [.add id q₁ data₁, .add id q₂ data₂] ∨
      ops = [.add id q₂ data₂, .add id q₁ data₁])
    (h₁ : ∀ seg ∈ segments (queSizeMap q₁) data₁, seg.length ≠ 8)
    (h₂ : ∀ seg ∈ segments (queSizeMap q₂) data₂, seg.length ≠ 8) :
    transfer ops id = some (true,
      (mergeRounds (segments (queSizeMap q₁) data₁) (segments (queSizeMap q₂) data₂)).flatten) ∧
    (data₁.length ≤ queSizeMap q₁ ∨ data₂ = [] →
      transfer ops id = some (true, data₁ ++ data₂)) := by
  have hs₁ := queSizeMap_pos q₁
  have hs₂ := queSizeMap_pos q₂
  obtain ⟨ops', -, htrans, -, htransfer⟩ := transfer_eq ops
  rw [transmitted_two_queues hq hops, Option.some.injEq] at htrans
  -- each segment is stored as it is
  have hdecode : ∀ {q : QueueNum} {data : Bytes},
      (∀ seg ∈ segments (queSizeMap q) data, seg.length ≠ 8) →
      ∀ seg ∈ segments (queSizeMap q) data, payloadFor id (packageOf id q seg) = some seg := by
    intro q data h seg hseg
    have hs := queSizeMap_pos q
    rw [payloadFor_packageOf id q (length_le_of_mem_segments hs hseg), if_pos (h seg hseg)]
  have hmeta : ∀ (q : QueueNum) (data : Bytes), payloadFor id (metaData id q data) = none :=
    fun q data => by rw [payloadFor, if_neg fun h => not_takenAsPackage_metaData id q data h.1]
  have hmerge : transfer ops id = some (true,
      (mergeRounds (segments (queSizeMap q₁) data₁)
        (segments (queSizeMap q₂) data₂)).flatten) := by
    rw [htransfer, ← htrans, dataList_eq, dataList_eq, mergeRounds_cons_cons,
      List.filterMap_cons_none (hmeta _ _), List.filterMap_cons_none (hmeta _ _),
      filterMap_mergeRounds (hdecode h₁) (hdecode h₂), takenOut, if_neg]
    intro hnil
    obtain ⟨a, l, ha⟩ := List.exists_cons_of_ne_nil (segments_ne_nil (queSizeMap q₁) data₁)
    rw [mergeRounds_eq, ha] at hnil
    simp at hnil
  refine ⟨hmerge, fun h => ?_⟩
  rw [hmerge, flatten_mergeRounds (segments_ne_nil _ data₂), flatten_segments hs₁,
    flatten_segments hs₂]
  rcases h with h | rfl
  · exact Or.inl ((length_segments_eq_one_iff hs₁ data₁).mpr h)
  · exact Or.inr (segments_eq_singleton hs₂ (Nat.zero_le _))

/-- A task of one and one of two bytes under one id arrive one after the
other. -/
theorem two_queues_merge_short :
    transfer [.add 9 .que3 [98, 99], .add 9 .que0 [97]] 9 = some (true, [97, 98, 99]) :=
  (@two_queues_merge 9 .que0 .que3 [97] [98, 99] [.add 9 .que3 [98, 99], .add 9 .que0 [97]]
    (by decide) (Or.inr rfl) (by decide) (by decide)).2 (Or.inl (by decide))

/-- Two tasks under one id need not arrive one after the other: a task of two
segments on queue 0 has a byte of queue 1 between its segments. -/
theorem two_queues_mix :
    ¬ ∀ (id : UInt64) (q₁ q₂ : QueueNum) (data₁ data₂ : Bytes), q₁ ≠ q₂ →
      (∀ seg ∈ segments (queSizeMap q₁) data₁, seg.length ≠ 8) →
      (∀ seg ∈ segments (queSizeMap q₂) data₂, seg.length ≠ 8) →
        transfer [.add id q₁ data₁, .add id q₂ data₂] id = some (true, data₁ ++ data₂) ∨
          transfer [.add id q₁ data₁, .add id q₂ data₂] id = some (true, data₂ ++ data₁) := by
  intro h
  have hmix := h 1 .que0 .que1 (List.replicate 64 97 ++ [99]) [98] (by decide) (by decide)
    (by decide)
  revert hmix
  decide +kernel

end AndrenBoost.Multiplex
