import AndrenBoost.Lib.Bytes
import Mathlib.Tactic.FinCases

/-!
# The multiplex wire format

The two headers of `multiplex.h` as they lie in memory on the 64-bit
little-endian ABI: an announcement is 32 bytes, of which the last four are
padding, and a data package is a 24-byte header, of which the last byte is
padding, followed by its payload.

## Main definitions

* `QueueNum`, `queSizeMap`, `queConcurrentMap` — the eight queues, their chunk
  limits and their concurrency limits.
* `MultiplexMeta`, `MultiplexPackageMeta` — the headers, with `toBytes` and the
  overlay reading `ofBytes`.
* `IsAnnouncement`, `IsDataPackage`, `keyOf` — what a string on the wire is, by
  its magic number, and which task it belongs to.

## Main results

* `MultiplexMeta.ofBytes_toBytes_append`, `MultiplexPackageMeta.ofBytes_toBytes_append` —
  reading back a written header.

## References

`include/multiplex/multiplex.h`.
-/

namespace AndrenBoost.Multiplex

/-! ### The queues -/

/-- The queue numbers. -/
inductive QueueNum
  | que0
  | que1
  | que2
  | que3
  | que4
  | que5
  | que6
  | que7
  deriving DecidableEq, Repr, Inhabited

namespace QueueNum

/-- The underlying byte of a queue number, also its index in the arrays. -/
def toUInt8 : QueueNum → UInt8
  | que0 => 0
  | que1 => 1
  | que2 => 2
  | que3 => 3
  | que4 => 4
  | que5 => 5
  | que6 => 6
  | que7 => 7

/-- The queues in index order. -/
def all : List QueueNum := [que0, que1, que2, que3, que4, que5, que6, que7]

/-- The queue of an index byte, if it is one. -/
def ofUInt8? (b : UInt8) : Option QueueNum := all.find? fun q => q.toUInt8 = b

theorem mem_all (q : QueueNum) : q ∈ all := by cases q <;> decide

theorem nodup_all : all.Nodup := by decide

@[simp] theorem ofUInt8?_toUInt8 (q : QueueNum) : ofUInt8? q.toUInt8 = some q := by
  cases q <;> rfl

end QueueNum

/-- Chunk limit of each queue. -/
def queSizeMap : QueueNum → ℕ
  | .que0 => 64
  | .que1 => 128
  | .que2 => 256
  | .que3 => 512
  | .que4 => 1024
  | .que5 => 2048
  | .que6 => 4096
  | .que7 => 8192

/-- How many tasks of each queue one fetch may take a package from. -/
def queConcurrentMap : QueueNum → ℕ
  | .que0 => 16
  | .que1 => 8
  | .que2 => 4
  | .que3 => 2
  | .que4 => 2
  | .que5 => 1
  | .que6 => 1
  | .que7 => 1

theorem queSizeMap_ge (q : QueueNum) : 64 ≤ queSizeMap q := by cases q <;> decide

theorem queSizeMap_pos (q : QueueNum) : 0 < queSizeMap q := by
  have := queSizeMap_ge q
  omega

theorem queSizeMap_le (q : QueueNum) : queSizeMap q ≤ 8192 := by cases q <;> decide

theorem queConcurrentMap_pos (q : QueueNum) : 0 < queConcurrentMap q := by cases q <;> decide

/-! ### The headers -/

/-- `MULTIPLEX_META_MAGIC_NUM` -/
def multiplexMetaMagicNum : UInt64 := 0x23aa34bb598ff670

/-- `MULTIPLEX_PAKCAGE_MAGIC_NUM` -/
def multiplexPakcageMagicNum : UInt64 := 0x12ff34aa567cc890

/-- `multiplex_meta_t`, the announcement of a task. -/
structure MultiplexMeta where
  magicNum : UInt64 := multiplexMetaMagicNum
  id : UInt64
  allSize : UInt64
  queNo : UInt8
  extention : BitVec 24
  deriving DecidableEq, Repr

/-- `multiplex_package_meta_t`, the header of a data package. -/
structure MultiplexPackageMeta where
  magicNum : UInt64 := multiplexPakcageMagicNum
  id : UInt64
  extention : UInt32
  size : UInt16
  queNo : UInt8
  deriving DecidableEq, Repr

/-- `sizeof(multiplex_meta_t)` -/
def sizeofMeta : ℕ := 32

/-- `sizeof(multiplex_package_meta_t)`, also the offset of `first_byte` in
`multiplex_package_t`. -/
def sizeofPackageMeta : ℕ := 24

/-- An announcement in memory: the bit field takes the three bytes after the
queue number, four bytes of padding follow. -/
def MultiplexMeta.toBytes (m : MultiplexMeta) : Bytes :=
  leBytes 8 m.magicNum.toNat ++ (leBytes 8 m.id.toNat ++ (leBytes 8 m.allSize.toNat ++
    (leBytes 1 m.queNo.toNat ++ (leBytes 3 m.extention.toNat ++ leBytes 4 0))))

/-- A data package header in memory; the last byte is padding. -/
def MultiplexPackageMeta.toBytes (m : MultiplexPackageMeta) : Bytes :=
  leBytes 8 m.magicNum.toNat ++ (leBytes 8 m.id.toNat ++ (leBytes 4 m.extention.toNat ++
    (leBytes 2 m.size.toNat ++ (leBytes 1 m.queNo.toNat ++ leBytes 1 0))))

/-- Reading `multiplex_meta_t` through a pointer to the string's bytes. -/
def MultiplexMeta.ofBytes (raw : Bytes) : MultiplexMeta where
  magicNum := UInt64.ofNat (leNat (slice 0 8 raw))
  id := UInt64.ofNat (leNat (slice 8 8 raw))
  allSize := UInt64.ofNat (leNat (slice 16 8 raw))
  queNo := UInt8.ofNat (leNat (slice 24 1 raw))
  extention := BitVec.ofNat 24 (leNat (slice 25 3 raw))

/-- Reading `multiplex_package_meta_t` through a pointer to the string's bytes. -/
def MultiplexPackageMeta.ofBytes (raw : Bytes) : MultiplexPackageMeta where
  magicNum := UInt64.ofNat (leNat (slice 0 8 raw))
  id := UInt64.ofNat (leNat (slice 8 8 raw))
  extention := UInt32.ofNat (leNat (slice 16 4 raw))
  size := UInt16.ofNat (leNat (slice 20 2 raw))
  queNo := UInt8.ofNat (leNat (slice 22 1 raw))

@[simp] theorem MultiplexMeta.length_toBytes (m : MultiplexMeta) :
    m.toBytes.length = sizeofMeta := by
  simp [MultiplexMeta.toBytes, sizeofMeta]

@[simp] theorem MultiplexPackageMeta.length_toBytes (m : MultiplexPackageMeta) :
    m.toBytes.length = sizeofPackageMeta := by
  simp [MultiplexPackageMeta.toBytes, sizeofPackageMeta]

/-- The field of a header that lies `k` bytes after its first field. -/
theorem slice_skip (n x : ℕ) (t : Bytes) {off : ℕ} (k : ℕ) (m : ℕ) (h : n + k = off) :
    slice off m (leBytes n x ++ t) = slice k m t :=
  slice_append_right t m (by simpa using h)

/-- Reading the first field of a header. -/
theorem leNat_slice_leBytes {n x : ℕ} (t : Bytes) (h : x < 256 ^ n) :
    leNat (slice 0 n (leBytes n x ++ t)) = x := by
  rw [slice_append_left t (by simp), leNat_leBytes h]

theorem MultiplexMeta.ofBytes_toBytes_append (m : MultiplexMeta) (t : Bytes) :
    MultiplexMeta.ofBytes (m.toBytes ++ t) = m := by
  obtain ⟨magic, id, allSize, queNo, ext⟩ := m
  have h1 : magic.toNat < 256 ^ 8 := magic.toNat_lt
  have h2 : id.toNat < 256 ^ 8 := id.toNat_lt
  have h3 : allSize.toNat < 256 ^ 8 := allSize.toNat_lt
  have h4 : queNo.toNat < 256 ^ 1 := queNo.toNat_lt
  have h5 : ext.toNat < 256 ^ 3 := ext.isLt
  simp only [ofBytes, toBytes, List.append_assoc]
  rw [leNat_slice_leBytes _ h1,
    slice_skip 8 _ _ 0 8 rfl, leNat_slice_leBytes _ h2,
    slice_skip 8 _ _ 8 8 rfl, slice_skip 8 _ _ 0 8 rfl, leNat_slice_leBytes _ h3,
    slice_skip 8 _ _ 16 1 rfl, slice_skip 8 _ _ 8 1 rfl, slice_skip 8 _ _ 0 1 rfl,
    leNat_slice_leBytes _ h4,
    slice_skip 8 _ _ 17 3 rfl, slice_skip 8 _ _ 9 3 rfl, slice_skip 8 _ _ 1 3 rfl,
    slice_skip 1 _ _ 0 3 rfl, leNat_slice_leBytes _ h5]
  simp

theorem MultiplexPackageMeta.ofBytes_toBytes_append (m : MultiplexPackageMeta) (t : Bytes) :
    MultiplexPackageMeta.ofBytes (m.toBytes ++ t) = m := by
  obtain ⟨magic, id, ext, size, queNo⟩ := m
  have h1 : magic.toNat < 256 ^ 8 := magic.toNat_lt
  have h2 : id.toNat < 256 ^ 8 := id.toNat_lt
  have h3 : ext.toNat < 256 ^ 4 := ext.toNat_lt
  have h4 : size.toNat < 256 ^ 2 := size.toNat_lt
  have h5 : queNo.toNat < 256 ^ 1 := queNo.toNat_lt
  simp only [ofBytes, toBytes, List.append_assoc]
  rw [leNat_slice_leBytes _ h1,
    slice_skip 8 _ _ 0 8 rfl, leNat_slice_leBytes _ h2,
    slice_skip 8 _ _ 8 4 rfl, slice_skip 8 _ _ 0 4 rfl, leNat_slice_leBytes _ h3,
    slice_skip 8 _ _ 12 2 rfl, slice_skip 8 _ _ 4 2 rfl, slice_skip 4 _ _ 0 2 rfl,
    leNat_slice_leBytes _ h4,
    slice_skip 8 _ _ 14 1 rfl, slice_skip 8 _ _ 6 1 rfl, slice_skip 4 _ _ 2 1 rfl,
    slice_skip 2 _ _ 0 1 rfl, leNat_slice_leBytes _ h5]
  simp

/-! ### What a string on the wire is -/

/-- A task on the sender's side: its queue and its id. -/
abbrev TaskKey := QueueNum × UInt64

/-- An announcement, by its magic number. -/
def IsAnnouncement (raw : Bytes) : Prop :=
  (MultiplexMeta.ofBytes raw).magicNum = multiplexMetaMagicNum

/-- A data package, by its magic number. -/
def IsDataPackage (raw : Bytes) : Prop :=
  (MultiplexPackageMeta.ofBytes raw).magicNum = multiplexPakcageMagicNum

instance : DecidablePred IsAnnouncement := fun _ => inferInstanceAs (Decidable (_ = _))

instance : DecidablePred IsDataPackage := fun _ => inferInstanceAs (Decidable (_ = _))

/-- The task a string belongs to, read from the header its magic number names. -/
def keyOf (raw : Bytes) : Option TaskKey :=
  if IsAnnouncement raw then
    let m := MultiplexMeta.ofBytes raw
    (QueueNum.ofUInt8? m.queNo).map fun q => (q, m.id)
  else if IsDataPackage raw then
    let m := MultiplexPackageMeta.ofBytes raw
    (QueueNum.ofUInt8? m.queNo).map fun q => (q, m.id)
  else none

/-- The two magic numbers differ, so no string is both. -/
theorem IsDataPackage.not_isAnnouncement {raw : Bytes} (h : IsDataPackage raw) :
    ¬ IsAnnouncement raw := by
  intro ha
  have hmagic : multiplexMetaMagicNum = multiplexPakcageMagicNum := ha.symm.trans h
  exact absurd hmagic (by decide)

/-- The `size` field of a data package. -/
def sizeField (raw : Bytes) : ℕ := (MultiplexPackageMeta.ofBytes raw).size.toNat

/-- The `all_size` field of an announcement. -/
def allSizeField (raw : Bytes) : ℕ := (MultiplexMeta.ofBytes raw).allSize.toNat

section Written

variable (m : MultiplexMeta) (p : MultiplexPackageMeta) (t : Bytes)

theorem isAnnouncement_toBytes (hm : m.magicNum = multiplexMetaMagicNum) :
    IsAnnouncement m.toBytes := by
  rw [← List.append_nil m.toBytes, IsAnnouncement, m.ofBytes_toBytes_append, hm]

theorem isDataPackage_toBytes_append (hp : p.magicNum = multiplexPakcageMagicNum) :
    IsDataPackage (p.toBytes ++ t) := by
  rw [IsDataPackage, p.ofBytes_toBytes_append, hp]

theorem keyOf_announcement (hm : m.magicNum = multiplexMetaMagicNum) :
    keyOf m.toBytes = (QueueNum.ofUInt8? m.queNo).map fun q => (q, m.id) := by
  have h := m.ofBytes_toBytes_append []
  rw [List.append_nil] at h
  rw [keyOf, if_pos (isAnnouncement_toBytes m hm), h]

theorem keyOf_dataPackage (hp : p.magicNum = multiplexPakcageMagicNum) :
    keyOf (p.toBytes ++ t) = (QueueNum.ofUInt8? p.queNo).map fun q => (q, p.id) := by
  have h := isDataPackage_toBytes_append p t hp
  rw [keyOf, if_neg h.not_isAnnouncement, if_pos h, p.ofBytes_toBytes_append]

end Written

end AndrenBoost.Multiplex
