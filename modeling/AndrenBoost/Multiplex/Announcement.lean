import AndrenBoost.Multiplex.Conservation

/-!
# Announcements on the wire

A receiver learns from an announcement how many bytes a task has, and adds up
the `size` fields of its data packages until it has them all.  For that to work
every data package must follow an announcement of its own task, and the sizes
since the last one must not run past what it announced, whatever was added,
replaced and fetched in between.

## Main definitions

* `IsAnnouncementOf`, `IsDataOf` — the strings of one task.
* `sizeSum` — the sum of the `size` fields of a task's data packages.

## Main results

* `announcement_discipline` — **the law of the stream**, for every run.
-/

namespace AndrenBoost.Multiplex

/-- An announcement of the task `k`. -/
def IsAnnouncementOf (k : TaskKey) (raw : Bytes) : Prop :=
  IsAnnouncement raw ∧ keyOf raw = some k

/-- A data package of the task `k`. -/
def IsDataOf (k : TaskKey) (raw : Bytes) : Prop := IsDataPackage raw ∧ keyOf raw = some k

instance (k : TaskKey) : DecidablePred (IsAnnouncementOf k) :=
  fun _ => inferInstanceAs (Decidable (_ ∧ _))

instance (k : TaskKey) : DecidablePred (IsDataOf k) :=
  fun _ => inferInstanceAs (Decidable (_ ∧ _))

/-- What the data packages of `k` in a piece of the stream add up to. -/
def sizeSum (k : TaskKey) (l : List Bytes) : ℕ :=
  ((l.filter fun raw => IsDataOf k raw).map sizeField).sum

/-- Every string handed to the sender has a length that fits in a `size_t`. -/
def SizesFit (ops : List SendOp) : Prop :=
  ∀ id queueNo data, SendOp.add id queueNo data ∈ ops → data.length < 2 ^ 64

/-! ### The blocks of a stream -/

/-- A package list is its announcement and then only data packages. -/
theorem headed_dataList (id : UInt64) (queueNo : QueueNum) (data : Bytes) :
    Fifo.Headed IsAnnouncement (dataList id queueNo data) := by
  refine Or.inr ⟨_, _, dataList_eq id queueNo data, isAnnouncement_metaData id queueNo data, ?_⟩
  intro raw hraw
  obtain ⟨payload, -, rfl⟩ := List.mem_map.mp hraw
  exact (isDataPackage_packageOf id queueNo payload).not_isAnnouncement

theorem headed_of_mem_blocks {k : TaskKey} {ops : List SendOp} {block : List Bytes}
    (h : block ∈ [] :: addsFor k ops) : Fifo.Headed IsAnnouncement block := by
  rcases List.mem_cons.mp h with rfl | h
  · exact Or.inl rfl
  · obtain ⟨data, -, rfl⟩ := exists_of_mem_addsFor h
    exact headed_dataList _ _ data

theorem headed_of_mem_kept {ops : List SendOp} {k : TaskKey} {kept : List (List Bytes)}
    (hlen : kept.length = (addsFor k ops).length + 1)
    (hzip : List.zipWith (· ++ ·) kept
      (discardedFor k .new ops ++ [(runOps .new ops).2.pending k]) = [] :: addsFor k ops) :
    ∀ part ∈ kept, Fifo.Headed IsAnnouncement part := by
  intro part hpart
  obtain ⟨block, hblock, hpre⟩ := exists_block_of_mem_kept hlen hzip hpart
  exact (headed_of_mem_blocks hblock).of_isPrefix hpre

/-- The size fields of some segments' packages add up to the segments'
length. -/
theorem sum_sizeField_packageOf (id : UInt64) (queueNo : QueueNum) : ∀ {segs : List Bytes},
    (∀ seg ∈ segs, seg.length ≤ queSizeMap queueNo) →
      ((segs.map (packageOf id queueNo)).map sizeField).sum = segs.flatten.length := by
  intro segs
  induction segs with
  | nil => intro _; rfl
  | cons seg segs ih =>
    intro h
    rw [List.forall_mem_cons] at h
    simp only [List.map_cons, List.sum_cons, List.flatten_cons, List.length_append,
      sizeField_packageOf id queueNo h.1, ih h.2]

/-- The beginning of a task's packages adds up to at most the data, all of them
to the data exactly. -/
theorem sum_sizeField_of_isPrefix {id : UInt64} {queueNo : QueueNum} {data : Bytes}
    {p : List Bytes} (h : p <+: (segments (queSizeMap queueNo) data).map (packageOf id queueNo)) :
    (p.map sizeField).sum ≤ data.length ∧
      (p = (segments (queSizeMap queueNo) data).map (packageOf id queueNo) →
        (p.map sizeField).sum = data.length) := by
  have hs := queSizeMap_pos queueNo
  have hle : ∀ seg ∈ segments (queSizeMap queueNo) data, seg.length ≤ queSizeMap queueNo :=
    fun seg hseg => length_le_of_mem_segments hs hseg
  have hall := flatten_segments hs data
  constructor
  · rw [List.prefix_iff_eq_take.mp h, ← List.map_take,
      sum_sizeField_packageOf id queueNo fun seg hseg => hle seg (List.mem_of_mem_take hseg)]
    have happ := congrArg List.flatten
      (List.take_append_drop p.length (segments (queSizeMap queueNo) data))
    rw [hall, List.flatten_append] at happ
    have hlen := congrArg List.length happ
    rw [List.length_append] at hlen
    omega
  · rintro rfl
    rw [sum_sizeField_packageOf id queueNo hle, hall]

/-- What a block that starts with the announcement `a` says about the packages
after it. -/
theorem sum_of_block {k : TaskKey} {ops : List SendOp} (hsize : SizesFit ops)
    {block mid : List Bytes} {a : Bytes} (hblock : block ∈ [] :: addsFor k ops)
    (h : a :: mid <+: block) :
    (mid.map sizeField).sum ≤ allSizeField a ∧
      (block = a :: mid → (mid.map sizeField).sum = allSizeField a) ∧
      ∀ x ∈ mid, IsDataPackage x := by
  rcases List.mem_cons.mp hblock with rfl | hblock
  · simp at h
  · obtain ⟨data, hdata, rfl⟩ := exists_of_mem_addsFor hblock
    rw [dataList_eq] at h ⊢
    obtain ⟨rfl, hpre⟩ := List.cons_prefix_cons.mp h
    have hsum := sum_sizeField_of_isPrefix hpre
    rw [allSizeField_metaData _ _ (hsize _ _ _ hdata)]
    refine ⟨hsum.1, fun heq => hsum.2 (List.cons.inj heq).2.symm, fun x hx => ?_⟩
    obtain ⟨payload, -, rfl⟩ := List.mem_map.mp (hpre.subset hx)
    exact isDataPackage_packageOf _ _ payload

/-- In a piece of the stream whose strings of `k` are all data packages, the sum
runs over all its strings of `k`. -/
theorem sizeSum_eq {k : TaskKey} {l : List Bytes}
    (h : ∀ x ∈ fetchedFor k l, IsDataPackage x) :
    sizeSum k l = ((fetchedFor k l).map sizeField).sum := by
  have hfilter : (l.filter fun raw => IsDataOf k raw) = fetchedFor k l := by
    refine List.filter_congr fun raw hraw => ?_
    by_cases hk : keyOf raw = some k
    · have hdata : IsDataPackage raw := h raw (List.mem_filter.mpr ⟨hraw, by simpa using hk⟩)
      simp [IsDataOf, hk, hdata]
    · simp [IsDataOf, hk]
  rw [sizeSum, hfilter]

theorem fetchedFor_cons_self {k : TaskKey} {x : Bytes} (h : keyOf x = some k) (l : List Bytes) :
    fetchedFor k (x :: l) = x :: fetchedFor k l :=
  List.filter_cons_of_pos (p := fun a => keyOf a = some k) (by simpa using h)

/-- The strings of `k` around one of them. -/
theorem fetchedFor_split {k : TaskKey} {out pre post : List Bytes} {x : Bytes}
    (h : out = pre ++ x :: post) (hx : keyOf x = some k) :
    fetchedFor k out = fetchedFor k pre ++ x :: fetchedFor k post := by
  rw [h, fetchedFor, Fifo.sent_append, ← fetchedFor, ← fetchedFor, fetchedFor_cons_self hx]

theorem not_isAnnouncement_of_mem_fetchedFor {k : TaskKey} {mid : List Bytes}
    (h : ∀ x ∈ mid, ¬ IsAnnouncementOf k x) : ∀ x ∈ fetchedFor k mid, ¬ IsAnnouncement x := by
  intro x hx hann
  obtain ⟨hmem, hkey⟩ := List.mem_filter.mp hx
  exact h x hmem ⟨hann, by simpa using hkey⟩

/-! ### The law of the stream -/

/-- A data package follows some announcement of its task. -/
theorem exists_announcement_before {ops : List SendOp} {k : TaskKey} {pre post : List Bytes}
    {d : Bytes} (hout : (runOps .new ops).1 = pre ++ d :: post) (hd : IsDataOf k d) :
    ∃ a ∈ pre, IsAnnouncementOf k a := by
  obtain ⟨kept, hlen, hzip, hflat⟩ := runOps_ledger ops k
  rw [fetchedFor_split hout hd.2] at hflat
  rcases Fifo.exists_head_of_flatten_eq (headed_of_mem_kept hlen hzip) hflat.symm with
    hann | ⟨a, hmem, hann⟩
  · exact absurd hann hd.1.not_isAnnouncement
  · obtain ⟨hmem, hkey⟩ := List.mem_filter.mp hmem
    exact ⟨a, hmem, hann, by simpa using hkey⟩

/-- Up to the next announcement the sizes add up to at most what the last one
said. -/
theorem sizeSum_le_allSizeField {ops : List SendOp} (hsize : SizesFit ops) {k : TaskKey}
    {pre mid post : List Bytes} {a : Bytes}
    (hout : (runOps .new ops).1 = pre ++ a :: (mid ++ post)) (ha : IsAnnouncementOf k a)
    (hmid : ∀ x ∈ mid, ¬ IsAnnouncementOf k x) : sizeSum k mid ≤ allSizeField a := by
  obtain ⟨kept, hlen, hzip, hflat⟩ := runOps_ledger ops k
  rw [fetchedFor_split hout ha.2, fetchedFor, fetchedFor, Fifo.sent_append, ← fetchedFor,
    ← fetchedFor, ← fetchedFor] at hflat
  -- from the announcement on the stream is the beginning of one list that was added
  obtain ⟨part, hpart, hap⟩ := Fifo.headed_infix (headed_of_mem_kept hlen hzip) hflat.symm ha.1
    (not_isAnnouncement_of_mem_fetchedFor hmid)
  obtain ⟨block, hblock, hpre⟩ := exists_block_of_mem_kept hlen hzip hpart
  obtain ⟨hle, -, hdata⟩ := sum_of_block hsize hblock (hap.trans hpre)
  rw [sizeSum_eq hdata]
  exact hle

/-- When nothing is pending, the last list added has been fetched to its end. -/
theorem exists_last_block {ops : List SendOp} {k : TaskKey} {kept : List (List Bytes)}
    (hlen : kept.length = (addsFor k ops).length + 1)
    (hzip : List.zipWith (· ++ ·) kept
      (discardedFor k .new ops ++ [(runOps .new ops).2.pending k]) = [] :: addsFor k ops)
    (hpend : (runOps .new ops).2.pending k = []) : ∃ parts blocks last,
      kept = parts ++ [last] ∧ [] :: addsFor k ops = blocks ++ [last] := by
  rcases List.eq_nil_or_concat' kept with rfl | ⟨parts, last, rfl⟩
  · simp at hlen
  · have hparts : parts.length = (discardedFor k .new ops).length := by
      rw [length_discardedFor]
      simpa using hlen
    rw [hpend, List.zipWith_append hparts] at hzip
    exact ⟨parts, _, last, rfl, by simpa using hzip.symm⟩

/-- A list added is not empty, so the last block is empty only if there is no
other. -/
theorem addsFor_eq_nil_of_last {ops : List SendOp} {k : TaskKey} {blocks : List (List Bytes)}
    (h : [] :: addsFor k ops = blocks ++ [[]]) : addsFor k ops = [] := by
  rcases List.eq_nil_or_concat' (addsFor k ops) with hnil | ⟨front, block, hadds⟩
  · exact hnil
  · rw [hadds, ← List.cons_append] at h
    have hblock : [block] = [[]] := List.append_inj_right' h rfl
    obtain ⟨data, -, hdata⟩ := exists_of_mem_addsFor (hadds ▸ List.mem_concat_self)
    rw [List.singleton_inj.mp hblock, dataList] at hdata
    simp at hdata

/-- When nothing is pending, the sizes since the last announcement add up to what
it said. -/
theorem sizeSum_eq_allSizeField {ops : List SendOp} (hsize : SizesFit ops) {k : TaskKey}
    {pre mid : List Bytes} {a : Bytes} (hout : (runOps .new ops).1 = pre ++ a :: mid)
    (ha : IsAnnouncementOf k a) (hmid : ∀ x ∈ mid, ¬ IsAnnouncementOf k x)
    (hpend : (runOps .new ops).2.pending k = []) : sizeSum k mid = allSizeField a := by
  obtain ⟨kept, hlen, hzip, hflat⟩ := runOps_ledger ops k
  rw [fetchedFor_split hout ha.2] at hflat
  obtain ⟨parts, blocks, last, rfl, hblocks⟩ := exists_last_block hlen hzip hpend
  have hmem : last ∈ [] :: addsFor k ops := hblocks ▸ by simp
  have hne : last ≠ [] := by
    rintro rfl
    -- nothing was added, so nothing was fetched
    have hparts : parts = [] := by simpa [addsFor_eq_nil_of_last hblocks] using hlen
    simp [hparts] at hflat
  have heq := Fifo.headed_suffix (headed_of_mem_blocks hmem) hne hflat.symm ha.1
    (not_isAnnouncement_of_mem_fetchedFor hmid)
  obtain ⟨-, hsum, hdata⟩ := sum_of_block hsize hmem ⟨[], by rw [heq, List.append_nil]⟩
  rw [sizeSum_eq hdata]
  exact hsum heq

/-- **The law of the stream.**  In the concatenation of all fetched strings of
any run, and for every task key: a data package follows some announcement of its
task; at every point the `size` fields since the most recent announcement add up
to at most its `all_size`; and they add up to exactly that when nothing of the
task is pending. -/
theorem announcement_discipline (ops : List SendOp) (hsize : SizesFit ops) (k : TaskKey) :
    (∀ pre d post, (runOps .new ops).1 = pre ++ d :: post → IsDataOf k d →
      ∃ a ∈ pre, IsAnnouncementOf k a) ∧
    (∀ pre a mid post, (runOps .new ops).1 = pre ++ a :: (mid ++ post) →
      IsAnnouncementOf k a → (∀ x ∈ mid, ¬ IsAnnouncementOf k x) →
        sizeSum k mid ≤ allSizeField a) ∧
    (∀ pre a mid, (runOps .new ops).1 = pre ++ a :: mid →
      IsAnnouncementOf k a → (∀ x ∈ mid, ¬ IsAnnouncementOf k x) →
        (runOps .new ops).2.pending k = [] → sizeSum k mid = allSizeField a) := by
  refine ⟨fun pre d post hout hd => ?_, fun pre a mid post hout ha hmid => ?_,
    fun pre a mid hout ha hmid hpend => ?_⟩
  · exact exists_announcement_before hout hd
  · exact sizeSum_le_allSizeField hsize hout ha hmid
  · exact sizeSum_eq_allSizeField hsize hout ha hmid hpend

/-- A task is replaced after 64 of its 70 bytes, while another one is sent. -/
def replacedHalfSent : List SendOp :=
  [.add 1 .que0 (List.replicate 70 97), .add 2 .que0 [99], .fetch, .fetch, .add 1 .que0 [98],
    .fetch, .fetch]

/-- Its strings add up to less than was announced at first, and to what was announced
in the end. -/
theorem announcement_discipline_replaced :
    sizeSum (.que0, 1) [metaData 2 .que0 [99], packageOf 1 .que0 (List.replicate 64 97),
        packageOf 2 .que0 [99]] ≤ allSizeField (metaData 1 .que0 (List.replicate 70 97))
      ∧ sizeSum (.que0, 1) [packageOf 1 .que0 [98]] = allSizeField (metaData 1 .que0 [98])
      ∧ ∃ a ∈ [metaData 1 .que0 (List.replicate 70 97), metaData 2 .que0 [99]],
        IsAnnouncementOf (.que0, 1) a := by
  have hsize : SizesFit replacedHalfSent := by
    intro id queueNo data h
    simp only [replacedHalfSent, List.mem_cons, SendOp.add.injEq, reduceCtorEq, List.not_mem_nil,
      or_false, false_or] at h
    rcases h with ⟨-, -, rfl⟩ | ⟨-, -, rfl⟩ | ⟨-, -, rfl⟩ <;> decide
  obtain ⟨hbefore, hbelow, hexact⟩ := announcement_discipline replacedHalfSent hsize (.que0, 1)
  refine ⟨?_, ?_, ?_⟩
  · exact hbelow [] (metaData 1 .que0 (List.replicate 70 97)) _
      [metaData 1 .que0 [98], packageOf 1 .que0 [98]] (by decide +kernel) (by decide +kernel)
      (by decide +kernel)
  · exact hexact [metaData 1 .que0 (List.replicate 70 97), metaData 2 .que0 [99],
      packageOf 1 .que0 (List.replicate 64 97), packageOf 2 .que0 [99]]
      (metaData 1 .que0 [98]) _ (by decide +kernel) (by decide +kernel) (by decide +kernel)
      (by decide +kernel)
  · exact hbefore _ (packageOf 1 .que0 (List.replicate 64 97))
      [packageOf 2 .que0 [99], metaData 1 .que0 [98], packageOf 1 .que0 [98]]
      (by decide +kernel) (by decide +kernel)

end AndrenBoost.Multiplex
