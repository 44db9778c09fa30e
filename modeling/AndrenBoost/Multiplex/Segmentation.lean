import AndrenBoost.Multiplex.Sender

/-!
# The strings of a task

The three copy loops of `add_data_task_to_send` cut the data as the reference
cutting does.  What is filed under the task's queue and id is read back here as a
receiver would read it: by the fields of the headers, and by the bytes behind them.

## Main definitions

* `Announces raw id queueNo n` — an announcement of `n` bytes.
* `Carries raw id queueNo` — a data package, with the payload `payloadOf raw`.

## Main results

* `find?_addDataTaskToSend` — the entries after a task was added.
* `segmentation_law` — **the law of the packages of a task.**
-/

namespace AndrenBoost.Multiplex

/-! ### Reading the strings -/

/-- The bytes behind the header of a data package. -/
def payloadOf (raw : Bytes) : Bytes := raw.drop sizeofPackageMeta

/-- The string is an announcement of `n` bytes. -/
structure Announces (raw : Bytes) (id : UInt64) (queueNo : QueueNum) (n : ℕ) : Prop where
  length : raw.length = sizeofMeta
  magicNum : IsAnnouncement raw
  id : (MultiplexMeta.ofBytes raw).id = id
  queNo : (MultiplexMeta.ofBytes raw).queNo = queueNo.toUInt8
  allSize : allSizeField raw = n

/-- The string is a data package, and its size field tells the length of its
payload. -/
structure Carries (raw : Bytes) (id : UInt64) (queueNo : QueueNum) : Prop where
  magicNum : IsDataPackage raw
  id : (MultiplexPackageMeta.ofBytes raw).id = id
  queNo : (MultiplexPackageMeta.ofBytes raw).queNo = queueNo.toUInt8
  size : sizeField raw = (payloadOf raw).length

@[simp] theorem payloadOf_packageOf (id : UInt64) (queueNo : QueueNum) (payload : Bytes) :
    payloadOf (packageOf id queueNo payload) = payload := by
  rw [payloadOf, packageOf, ← MultiplexPackageMeta.length_toBytes, List.drop_left]

theorem announces_metaData (id : UInt64) (queueNo : QueueNum) {data : Bytes}
    (h : data.length < 2 ^ 64) : Announces (metaData id queueNo data) id queueNo data.length := by
  have hread := MultiplexMeta.ofBytes_toBytes_append
    { id := id, extention := 0, queNo := queueNo.toUInt8,
      allSize := UInt64.ofNat data.length } []
  rw [List.append_nil, ← metaData_eq] at hread
  constructor
  · rw [metaData_eq, MultiplexMeta.length_toBytes]
  · exact isAnnouncement_metaData id queueNo data
  · rw [hread]
  · rw [hread]
  · exact allSizeField_metaData id queueNo h

theorem carries_packageOf (id : UInt64) (queueNo : QueueNum) {payload : Bytes}
    (h : payload.length ≤ queSizeMap queueNo) :
    Carries (packageOf id queueNo payload) id queueNo := by
  constructor
  · exact isDataPackage_packageOf id queueNo payload
  · rw [packageOf, MultiplexPackageMeta.ofBytes_toBytes_append]
  · rw [packageOf, MultiplexPackageMeta.ofBytes_toBytes_append]
  · rw [payloadOf_packageOf, sizeField_packageOf id queueNo h]

/-! ### What a task is filed as -/

/-- The entries after a task was added. -/
theorem find?_addDataTaskToSend (m : MultiplexManager) (id : UInt64) (queueNo : QueueNum)
    (data : Bytes) (q : QueueNum) (id' : UInt64) :
    ((addDataTaskToSend m id queueNo data).readySend q).find? id'
      = if (q, id') = (queueNo, id) then some (dataList id queueNo data)
        else (m.readySend q).find? id' := by
  rw [addDataTaskToSend]
  dsimp only
  by_cases hq : q = queueNo
  · subst hq
    rw [Function.update_self, SortedMap.find?_set]
    by_cases hid : id' = id <;> simp [hid]
  · rw [Function.update_of_ne hq, if_neg (by simp [hq])]

/-- **The law of the packages of a task.**  Under the queue and the id there is an
announcement of the length of the data, and behind it one data package for each full
segment and one for the last one, which is empty for no data only; their payloads are
the data, and every other entry is the same. -/
theorem segmentation_law (m : MultiplexManager) (id : UInt64) (queueNo : QueueNum)
    {data : Bytes} (hlen : data.length < 2 ^ 64) :
    let s := queSizeMap queueNo
    let m' := addDataTaskToSend m id queueNo data
    (∃ announcement init last, (m'.readySend queueNo).find? id
          = some (announcement :: (init ++ [last]))
        ∧ Announces announcement id queueNo data.length
        ∧ (init ++ [last]).length = max 1 ((data.length + s - 1) / s)
        ∧ (∀ package ∈ init ++ [last], Carries package id queueNo)
        ∧ (∀ package ∈ init, (payloadOf package).length = s)
        ∧ (payloadOf last).length ≤ s
        ∧ ((payloadOf last).length = 0 ↔ data.length = 0)
        ∧ ((init ++ [last]).map payloadOf).flatten = data)
      ∧ ∀ q id', (q, id') ≠ (queueNo, id) →
          (m'.readySend q).find? id' = (m.readySend q).find? id' := by
  dsimp only
  have hs := queSizeMap_pos queueNo
  obtain ⟨init, last, hseg, hinit, hle, hzero⟩ := exists_segments_eq_append hs data
  refine ⟨⟨metaData id queueNo data, init.map (packageOf id queueNo), packageOf id queueNo last,
    ?_, announces_metaData id queueNo hlen, ?_, ?_, ?_, ?_, ?_, ?_⟩, ?_⟩
  · rw [find?_addDataTaskToSend, if_pos rfl, dataList_eq, hseg, List.map_append,
      List.map_singleton]
  · have hcount := length_segments (queSizeMap queueNo) data
    rw [hseg, segmentCount] at hcount
    simpa using hcount
  · intro package hpackage
    have hmem : package ∈ (segments (queSizeMap queueNo) data).map (packageOf id queueNo) := by
      rwa [hseg, List.map_append, List.map_singleton]
    obtain ⟨payload, hpayload, rfl⟩ := List.mem_map.mp hmem
    exact carries_packageOf id queueNo (length_le_of_mem_segments hs hpayload)
  · intro package hpackage
    obtain ⟨payload, hpayload, rfl⟩ := List.mem_map.mp hpackage
    rw [payloadOf_packageOf, hinit payload hpayload]
  · rwa [payloadOf_packageOf]
  · rwa [payloadOf_packageOf]
  · -- the payloads are the segments again
    have hback : (init.map (packageOf id queueNo) ++ [packageOf id queueNo last]).map payloadOf
        = segments (queSizeMap queueNo) data := by
      rw [hseg, List.map_append, List.map_map, List.map_singleton, payloadOf_packageOf]
      simp [Function.comp_def]
    rw [hback, flatten_segments hs]
  · intro q id' hne
    rw [find?_addDataTaskToSend, if_neg hne]

/-- A task of 65 bytes on the first queue. -/
theorem segmentation_law_65 :
    ∃ announcement init last,
      ((addDataTaskToSend .new 7 .que0 (List.replicate 65 1)).readySend .que0).find? 7
        = some (announcement :: (init ++ [last])) ∧ (init ++ [last]).length = 2 := by
  obtain ⟨announcement, init, last, hfind, -, hcount, -⟩ :=
    (@segmentation_law .new 7 .que0 (List.replicate 65 1) (by decide)).1
  exact ⟨announcement, init, last, hfind, hcount.trans (by decide)⟩

end AndrenBoost.Multiplex
