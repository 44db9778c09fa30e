import AndrenBoost.Lib.Segments
import AndrenBoost.Lib.SortedMap
import AndrenBoost.Multiplex.Wire

/-!
# The multiplex sender

`add_data_task_to_send` cuts a task into packages and files them under the
task's queue and id; `fetch_some_data_to_send` takes one package from each of
the first few unfinished tasks of every queue.

## Main definitions

* `MultiplexManager` — the state behind a manager, sending and receiving side.
* `dataList` — the strings an added task is turned into.
* `addDataTaskToSend`, `fetchSomeDataToSend` — the two operations.
* `SendOp`, `runOps` — a sequence of calls, and everything it fetched.
* `fetchUntilEmpty` — the loop that empties the sender.

## Main results

* `dataList_eq` — **segmentation**: the announcement, then one data package for
  each segment of the data.

## References

`add_data_task_to_send` and `fetch_some_data_to_send` in
`src/multiplex/multiplex.cpp`.
-/

namespace AndrenBoost.Multiplex

/-- `multiplex_manager::_Private`, less its two callbacks: what these are told
is a result of `parseRawData`. -/
structure MultiplexManager where
  readySend : QueueNum → SortedMap UInt64 (List Bytes)
  readyRecv : SortedMap UInt64 (List Bytes)

/-- A manager just constructed. -/
def MultiplexManager.new : MultiplexManager := ⟨fun _ => .empty, .empty⟩

/-! ### Cutting a task -/

/-- A string of `n` zero bytes. -/
def blank (n : ℕ) : Bytes := List.replicate n 0

/-- Writing a header over the front of a string. -/
def overlay (header s : Bytes) : Bytes := header ++ s.drop header.length

/-- The copy loop: `n` bytes of `data` from `position` on, written from
`first_byte` on. -/
def copyLoop (packageData data : Bytes) (position n : ℕ) : Bytes :=
  (List.range n).foldl
    (fun p i => p.set (sizeofPackageMeta + i) (data.getD (position + i) 0)) packageData

/-- One data package with room for `n` bytes, and `size` in its header. -/
def packageData (id : UInt64) (queueNo : QueueNum) (size : UInt16) (data : Bytes)
    (position n : ℕ) : Bytes :=
  copyLoop
    (overlay
      (MultiplexPackageMeta.toBytes
        { id := id, extention := 0, size := size, queNo := queueNo.toUInt8 })
      (blank (sizeofPackageMeta + n)))
    data position n

/-- The announcement of a task. -/
def metaData (id : UInt64) (queueNo : QueueNum) (data : Bytes) : Bytes :=
  overlay
    (MultiplexMeta.toBytes
      { id := id, extention := 0, queNo := queueNo.toUInt8,
        allSize := UInt64.ofNat data.length })
    (blank sizeofMeta)

/-- The loop over the full packages: the list so far, and `data_position`. -/
def fullPackages (id : UInt64) (queueNo : QueueNum) (data : Bytes) (queSize times : ℕ) :
    List Bytes × ℕ :=
  (List.range times).foldl
    (fun acc _ =>
      (acc.1 ++ [packageData id queueNo (UInt16.ofNat queSize) data acc.2 queSize],
        acc.2 + queSize))
    ([], 0)

/-- The data packages of a task. -/
def dataPackages (id : UInt64) (queueNo : QueueNum) (data : Bytes) : List Bytes :=
  let queSize := queSizeMap queueNo
  let times := data.length / queSize
  -- less than one full package: all the data goes into one, which is empty for no data
  if times = 0 then
    [packageData id queueNo (UInt16.ofNat data.length) data 0 data.length]
  else
    let full := fullPackages id queueNo data queSize times
    let freeSize := data.length % queSize
    -- what is left over fills a shorter package
    if freeSize > 0 then
      full.1 ++ [packageData id queueNo (UInt16.ofNat freeSize) data full.2 freeSize]
    else full.1

/-- `dataList` of `add_data_task_to_send`: the announcement, then the data
packages. -/
def dataList (id : UInt64) (queueNo : QueueNum) (data : Bytes) : List Bytes :=
  metaData id queueNo data :: dataPackages id queueNo data

/-- `multiplex_manager::add_data_task_to_send` -/
def addDataTaskToSend (m : MultiplexManager) (id : UInt64) (queueNo : QueueNum)
    (data : Bytes) : MultiplexManager :=
  { m with
    readySend := Function.update m.readySend queueNo
      ((m.readySend queueNo).set id (dataList id queueNo data)) }

/-! ### Fetching -/

/-- What the scan of one queue leaves behind. -/
structure Scan where
  /-- What was appended to `data_list`. -/
  taken : List Bytes
  /-- The entries of the map after the scan. -/
  entries : List (UInt64 × List Bytes)
  /-- `drop_list` -/
  dropList : List UInt64

/-- The scan of one queue: the loop over its map from the entry list on, with
`count` packages taken already. -/
def scan (need : ℕ) : ℕ → List (UInt64 × List Bytes) → Scan
  | _, [] => ⟨[], [], []⟩
  -- an empty deque takes no part in the count, but the limit is tested after it too
  | count, (id, []) :: rest =>
      if count ≥ need then ⟨[], (id, []) :: rest, [id]⟩
      else
        let r := scan need count rest
        ⟨r.taken, (id, []) :: r.entries, id :: r.dropList⟩
  -- the front is moved out, and the deque stays even if that was its last package
  | count, (id, front :: que) :: rest =>
      if count + 1 ≥ need then ⟨[front], (id, que) :: rest, []⟩
      else
        let r := scan need (count + 1) rest
        ⟨front :: r.taken, (id, que) :: r.entries, r.dropList⟩

/-- The scan keeps every key of the map. -/
theorem map_fst_scan (need : ℕ) : ∀ (entries : List (UInt64 × List Bytes)) (count : ℕ),
    (scan need count entries).entries.map Prod.fst = entries.map Prod.fst := by
  intro entries
  induction entries with
  | nil => intro count; rfl
  | cons e rest ih =>
    intro count
    obtain ⟨id, que⟩ := e
    cases que with
    | nil =>
      rw [scan]
      split_ifs
      · rfl
      · rw [List.map_cons, List.map_cons, ih]
    | cons front que =>
      rw [scan]
      split_ifs
      · rfl
      · rw [List.map_cons, List.map_cons, ih]

/-- One round of the outer loop: scan the queue, then drop what it found
empty. -/
def fetchQueue (need : ℕ) (map : SortedMap UInt64 (List Bytes)) :
    List Bytes × SortedMap UInt64 (List Bytes) :=
  let r := scan need 0 map.entries
  (r.taken, (map.withEntries r.entries (map_fst_scan need map.entries 0)).eraseAll r.dropList)

/-- The loop over `que_index`, from a list of queues on. -/
def fetchQueues : List QueueNum → MultiplexManager → List Bytes × MultiplexManager
  | [], m => ([], m)
  | q :: qs, m =>
      let r := fetchQueue (queConcurrentMap q) (m.readySend q)
      let rest := fetchQueues qs { m with readySend := Function.update m.readySend q r.2 }
      (r.1 ++ rest.1, rest.2)

/-- `multiplex_manager::fetch_some_data_to_send` -/
def fetchSomeDataToSend (m : MultiplexManager) : List Bytes × MultiplexManager :=
  fetchQueues QueueNum.all m

/-! ### Runs -/

/-- A call on the sending side. -/
inductive SendOp
  /-- `add_data_task_to_send(id, queueNo, data)` -/
  | add (id : UInt64) (queueNo : QueueNum) (data : Bytes)
  /-- `fetch_some_data_to_send()` -/
  | fetch

/-- One call: what it returned for the wire, and the manager after it. -/
def stepOp (m : MultiplexManager) : SendOp → List Bytes × MultiplexManager
  | .add id queueNo data => ([], addDataTaskToSend m id queueNo data)
  | .fetch => fetchSomeDataToSend m

/-- A sequence of calls: every string fetched, in order, and the manager after
it. -/
def runOps (m : MultiplexManager) : List SendOp → List Bytes × MultiplexManager
  | [] => ([], m)
  | op :: ops =>
      let r := stepOp m op
      let rest := runOps r.2 ops
      (r.1 ++ rest.1, rest.2)

/-- The loop `do { l = fetch_some_data_to_send(); … } while (!l.empty())` with a
limit on the number of calls: what each call returned, or `none` when the limit
is reached with the loop still going. -/
def fetchUntilEmpty : ℕ → MultiplexManager → Option (List (List Bytes) × MultiplexManager)
  | 0, _ => none
  | calls + 1, m =>
      let r := fetchSomeDataToSend m
      if r.1 = [] then some ([], r.2)
      else (fetchUntilEmpty calls r.2).map fun rest => (r.1 :: rest.1, rest.2)

/-! ### Segmentation -/

theorem overlay_blank (header : Bytes) (n : ℕ) :
    overlay header (blank (header.length + n)) = header ++ blank n := by
  rw [overlay, blank, blank, List.drop_replicate, Nat.add_sub_cancel_left]

/-- The copy loop leaves the header alone and fills the room behind it with the
slice of the data. -/
theorem copyLoop_eq {header data : Bytes} (hheader : header.length = sizeofPackageMeta)
    {position n : ℕ} (h : position + n ≤ data.length) :
    copyLoop (header ++ blank n) data position n = header ++ slice position n data := by
  -- after `k` steps the first `k` bytes are copied and the rest is still blank
  have key : ∀ k, k ≤ n → (List.range k).foldl
      (fun p i => p.set (sizeofPackageMeta + i) (data.getD (position + i) 0)) (header ++ blank n)
        = header ++ (slice position k data ++ blank (n - k)) := by
    intro k
    induction k with
    | zero => intro _; rfl
    | succ k ih =>
      intro hk
      have hlen : (slice position k data).length = k := length_slice (by omega)
      have hblank : blank (n - k) = 0 :: blank (n - (k + 1)) := by
        rw [blank, blank, ← List.replicate_succ]
        congr 1
        omega
      have hslice : slice position (k + 1) data
          = slice position k data ++ [data.getD (position + k) 0] := by
        have hget : (data.drop position)[k]? = some (data.getD (position + k) 0) := by
          rw [List.getElem?_drop, List.getD_eq_getElem?_getD,
            List.getElem?_eq_getElem (by omega)]
          rfl
        rw [slice, slice, List.take_add_one, hget]
        rfl
      rw [List.range_succ, List.foldl_append, ih (by omega), List.foldl_cons, List.foldl_nil,
        List.set_append_right _ _ (by omega), hheader, Nat.add_sub_cancel_left,
        List.set_append_right _ _ (by omega), hlen, Nat.sub_self, hblank, List.set_cons_zero,
        hslice, List.append_assoc]
      rfl
  have := key n le_rfl
  rw [copyLoop, this, Nat.sub_self]
  simp [blank]

/-- The data package of a payload. -/
def packageOf (id : UInt64) (queueNo : QueueNum) (payload : Bytes) : Bytes :=
  MultiplexPackageMeta.toBytes
    { id := id, extention := 0, size := UInt16.ofNat payload.length,
      queNo := queueNo.toUInt8 } ++ payload

/-- A package built from a part of the data is the package of that part. -/
theorem packageData_eq (id : UInt64) (queueNo : QueueNum) {data : Bytes} {position n : ℕ}
    (h : position + n ≤ data.length) :
    packageData id queueNo (UInt16.ofNat n) data position n
      = packageOf id queueNo (slice position n data) := by
  have hover := overlay_blank (MultiplexPackageMeta.toBytes
    { id := id, extention := 0, size := UInt16.ofNat n, queNo := queueNo.toUInt8 }) n
  rw [MultiplexPackageMeta.length_toBytes] at hover
  rw [packageData, hover, copyLoop_eq (MultiplexPackageMeta.length_toBytes _) h, packageOf,
    length_slice h]

theorem metaData_eq (id : UInt64) (queueNo : QueueNum) (data : Bytes) :
    metaData id queueNo data = MultiplexMeta.toBytes
      { id := id, extention := 0, queNo := queueNo.toUInt8,
        allSize := UInt64.ofNat data.length } := by
  have hover := overlay_blank (MultiplexMeta.toBytes
    { id := id, extention := 0, queNo := queueNo.toUInt8,
      allSize := UInt64.ofNat data.length }) 0
  rw [MultiplexMeta.length_toBytes, Nat.add_zero] at hover
  rw [metaData, hover, blank, List.replicate_zero, List.append_nil]

/-- The loop over the full packages has cut the data up to `data_position`. -/
theorem fullPackages_eq (id : UInt64) (queueNo : QueueNum) {data : Bytes} {queSize : ℕ} :
    ∀ {times : ℕ}, times * queSize ≤ data.length →
      fullPackages id queueNo data queSize times
        = ((List.range times).map fun i =>
            packageOf id queueNo (slice (i * queSize) queSize data), times * queSize) := by
  intro times
  induction times with
  | zero => intro _; simp [fullPackages]
  | succ times ih =>
    intro h
    rw [Nat.add_mul, Nat.one_mul] at h
    -- `data_position` is the number of bytes in the packages cut so far
    have hprev := ih (by omega)
    rw [fullPackages] at hprev ⊢
    rw [List.range_succ, List.foldl_append, hprev, List.foldl_cons, List.foldl_nil,
      packageData_eq id queueNo h, List.map_append, List.map_singleton, Nat.add_mul, Nat.one_mul]

/-- The three loops together cut the data into its segments. -/
theorem dataPackages_eq (id : UInt64) (queueNo : QueueNum) (data : Bytes) :
    dataPackages id queueNo data
      = (segments (queSizeMap queueNo) data).map (packageOf id queueNo) := by
  have hs := queSizeMap_pos queueNo
  have hdiv := Nat.div_add_mod' data.length (queSizeMap queueNo)
  have hmod := Nat.mod_lt data.length hs
  rw [segments, List.map_map]
  simp only [dataPackages]
  split_ifs with htimes hfree
  · -- a single package takes it all
    have hlt : data.length < queSizeMap queueNo := by
      rw [Nat.div_eq_zero_iff] at htimes
      omega
    rw [segmentCount_of_lt hlt, packageData_eq id queueNo (by omega)]
    simp [slice, List.take_of_length_le hlt.le]
  · -- full packages and a remainder
    have hge : queSizeMap queueNo ≤ data.length := by
      by_contra hlt
      exact htimes (Nat.div_eq_of_lt (by omega))
    rw [fullPackages_eq id queueNo (by omega), packageData_eq id queueNo (by omega),
      segmentCount_of_ge hs hge, if_pos hfree, List.range_succ, List.map_append,
      List.map_singleton]
    have hrest : slice (data.length / queSizeMap queueNo * queSizeMap queueNo)
        (data.length % queSizeMap queueNo) data
          = (data.drop (data.length / queSizeMap queueNo * queSizeMap queueNo)).take
            (queSizeMap queueNo) := by
      rw [slice, List.take_of_length_le (by rw [List.length_drop]; omega),
        List.take_of_length_le (by rw [List.length_drop]; omega)]
    rw [hrest]
    rfl
  · -- full packages only
    have hge : queSizeMap queueNo ≤ data.length := by
      by_contra hlt
      exact htimes (Nat.div_eq_of_lt (by omega))
    rw [fullPackages_eq id queueNo (by omega), segmentCount_of_ge hs hge, if_neg hfree,
      Nat.add_zero]
    rfl

/-- **Segmentation.**  A task becomes its announcement followed by the data
packages of its segments. -/
theorem dataList_eq (id : UInt64) (queueNo : QueueNum) (data : Bytes) :
    dataList id queueNo data
      = metaData id queueNo data ::
        (segments (queSizeMap queueNo) data).map (packageOf id queueNo) := by
  rw [dataList, dataPackages_eq]

/-! ### The strings of a task -/

theorem isAnnouncement_metaData (id : UInt64) (queueNo : QueueNum) (data : Bytes) :
    IsAnnouncement (metaData id queueNo data) := by
  rw [metaData_eq]
  exact isAnnouncement_toBytes _ rfl

theorem keyOf_metaData (id : UInt64) (queueNo : QueueNum) (data : Bytes) :
    keyOf (metaData id queueNo data) = some (queueNo, id) := by
  rw [metaData_eq, keyOf_announcement _ rfl, QueueNum.ofUInt8?_toUInt8]
  rfl

theorem allSizeField_metaData (id : UInt64) (queueNo : QueueNum) {data : Bytes}
    (h : data.length < 2 ^ 64) : allSizeField (metaData id queueNo data) = data.length := by
  have hread := MultiplexMeta.ofBytes_toBytes_append
    { id := id, extention := 0, queNo := queueNo.toUInt8,
      allSize := UInt64.ofNat data.length } []
  rw [List.append_nil] at hread
  rw [allSizeField, metaData_eq, hread]
  exact Nat.mod_eq_of_lt h

theorem isDataPackage_packageOf (id : UInt64) (queueNo : QueueNum) (payload : Bytes) :
    IsDataPackage (packageOf id queueNo payload) := isDataPackage_toBytes_append _ _ rfl

theorem keyOf_packageOf (id : UInt64) (queueNo : QueueNum) (payload : Bytes) :
    keyOf (packageOf id queueNo payload) = some (queueNo, id) := by
  rw [packageOf, keyOf_dataPackage _ _ rfl, QueueNum.ofUInt8?_toUInt8]
  rfl

/-- The `size` field of a package is the length of its payload: a payload is
never longer than the largest chunk limit, so the cast to 16 bits is exact. -/
theorem sizeField_packageOf (id : UInt64) (queueNo : QueueNum) {payload : Bytes}
    (h : payload.length ≤ queSizeMap queueNo) :
    sizeField (packageOf id queueNo payload) = payload.length := by
  have hle := queSizeMap_le queueNo
  rw [sizeField, packageOf, MultiplexPackageMeta.ofBytes_toBytes_append]
  exact Nat.mod_eq_of_lt (by omega)

/-- Every string of a task carries its key. -/
theorem keyOf_of_mem_dataList {id : UInt64} {queueNo : QueueNum} {data raw : Bytes}
    (h : raw ∈ dataList id queueNo data) : keyOf raw = some (queueNo, id) := by
  rw [dataList_eq] at h
  rcases List.mem_cons.mp h with rfl | h
  · exact keyOf_metaData id queueNo data
  · obtain ⟨payload, -, rfl⟩ := List.mem_map.mp h
    exact keyOf_packageOf id queueNo payload

end AndrenBoost.Multiplex
