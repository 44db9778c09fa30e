import AndrenBoost.Multiplex.Sender

/-!
# The multiplex receiver

`parse_raw_data` tells an announcement from a data package by the length of the
raw string before it looks at the magic number, and copies as many payload bytes
as the header declares.

## Main definitions

* `Fault` — reading outside the string.
* `parseRawData`, `takeOutRecvInAdvance` — the two operations.
* `TakenAsPackage`, `WellFormed` — the strings `parse_raw_data` stores a payload
  of, and those that hold the payload they declare.
* `receiveAll` — parsing one string after another.

## Main results

* `parseRawData_spec`, `receiveAll_spec` — what is stored, for well-formed
  strings.
* `storesOnlyPresent_iff` — **reads stay inside the string exactly when the
  string is well formed.**

## References

`parse_raw_data` and `take_out_recv_in_advance` in `src/multiplex/multiplex.cpp`.
-/

namespace AndrenBoost.Multiplex

/-- What goes wrong outside the language's guarantees. -/
inductive Fault
  /-- A read beyond the terminating zero of a string's buffer. -/
  | outOfBounds
  deriving DecidableEq, Repr

/-- What a parsed string makes the manager tell its user. -/
inductive Event
  /-- `onNewRequest(*p_meta)` -/
  | newRequest (header : MultiplexMeta)
  /-- `onRecvPackage(p_package->meta)` -/
  | recvPackage (header : MultiplexPackageMeta)
  deriving DecidableEq, Repr

/-- `std::string(p + off, n)` for `p = raw.c_str()`: the buffer is the string's
bytes and a terminating zero. -/
def readBuffer (raw : Bytes) (off n : ℕ) : Except Fault Bytes :=
  if off + n ≤ raw.length + 1 then .ok (slice off n (raw ++ [0])) else .error .outOfBounds

/-- `ready_recv[id].push_back(payload)` -/
def pushRecv (m : MultiplexManager) (id : UInt64) (payload : Bytes) : MultiplexManager :=
  { m with readyRecv := m.readyRecv.set id (m.readyRecv.getD id [] ++ [payload]) }

/-- `multiplex_manager::parse_raw_data` -/
def parseRawData (m : MultiplexManager) (raw : Bytes) :
    Except Fault (MultiplexManager × Option Event) :=
  -- the length alone decides which of the two headers is looked for
  if raw.length = sizeofMeta then
    let pMeta := MultiplexMeta.ofBytes raw
    if pMeta.magicNum = multiplexMetaMagicNum then .ok (m, some (.newRequest pMeta))
    else .ok (m, none)
  else if raw.length ≥ sizeofPackageMeta then
    let pPackage := MultiplexPackageMeta.ofBytes raw
    -- the size the header declares is not compared with the length of the string
    if pPackage.magicNum = multiplexPakcageMagicNum then
      (readBuffer raw sizeofPackageMeta pPackage.size.toNat).map fun payload =>
        (pushRecv m pPackage.id payload, some (.recvPackage pPackage))
    else .ok (m, none)
  else .ok (m, none)

/-- `multiplex_manager::take_out_recv_in_advance`: the entry stays in the map,
with the deque that was moved from. -/
def takeOutRecvInAdvance (m : MultiplexManager) (id : UInt64) :
    (Bool × Bytes) × MultiplexManager :=
  match m.readyRecv.find? id with
  | none => ((false, []), m)
  | some que =>
      ((true, que.foldl (fun data perData => data ++ perData) []),
        { m with readyRecv := m.readyRecv.set id [] })

/-- Parsing strings one after another. -/
def receiveAll (m : MultiplexManager) : List Bytes → Except Fault MultiplexManager
  | [] => .ok m
  | raw :: raws => (parseRawData m raw).bind fun r => receiveAll r.1 raws

/-! ### What is stored -/

/-- The strings the parser stores a payload of. -/
def TakenAsPackage (raw : Bytes) : Prop :=
  raw.length ≠ sizeofMeta ∧ sizeofPackageMeta ≤ raw.length ∧ IsDataPackage raw

instance : DecidablePred TakenAsPackage := fun _ => inferInstanceAs (Decidable (_ ∧ _))

/-- A string that holds the payload its header declares, if it is taken for a
data package at all. -/
def WellFormed (raw : Bytes) : Prop :=
  TakenAsPackage raw → sizeofPackageMeta + sizeField raw ≤ raw.length

/-- The payload a string adds for the id. -/
def payloadFor (id : UInt64) (raw : Bytes) : Option Bytes :=
  if TakenAsPackage raw ∧ (MultiplexPackageMeta.ofBytes raw).id = id then
    some (slice sizeofPackageMeta (sizeField raw) raw)
  else none

theorem parseRawData_of_taken {raw : Bytes} (h : TakenAsPackage raw) (m : MultiplexManager) :
    parseRawData m raw
      = (readBuffer raw sizeofPackageMeta (sizeField raw)).map fun payload =>
          (pushRecv m (MultiplexPackageMeta.ofBytes raw).id payload,
            some (.recvPackage (MultiplexPackageMeta.ofBytes raw))) := by
  obtain ⟨h1, h2, h3⟩ := h
  rw [IsDataPackage] at h3
  simp only [parseRawData, if_neg h1, if_pos h2, if_pos h3]
  rfl

/-- Any other string leaves the manager as it is. -/
theorem parseRawData_of_not_taken {raw : Bytes} (h : ¬ TakenAsPackage raw) :
    ∃ ev, ∀ m : MultiplexManager, parseRawData m raw = .ok (m, ev) := by
  simp only [parseRawData]
  split_ifs with h1 h2 h3 h4
  · exact ⟨_, fun _ => rfl⟩
  · exact ⟨_, fun _ => rfl⟩
  · exact absurd ⟨h1, h3, h4⟩ h
  · exact ⟨_, fun _ => rfl⟩
  · exact ⟨_, fun _ => rfl⟩

/-- Inside the string the buffer is the string. -/
theorem readBuffer_eq {raw : Bytes} {off n : ℕ} (h : off + n ≤ raw.length) :
    readBuffer raw off n = .ok (slice off n raw) := by
  rw [readBuffer, if_pos (by omega), slice, slice, List.drop_append_of_le_length (by omega),
    List.take_append_of_le_length (by rw [List.length_drop]; omega)]

theorem find?_pushRecv (m : MultiplexManager) (id : UInt64) (payload : Bytes) (id' : UInt64) :
    (pushRecv m id payload).readyRecv.find? id'
      = if id' = id then some (m.readyRecv.getD id [] ++ [payload])
        else m.readyRecv.find? id' := by
  rw [pushRecv, SortedMap.find?_set]

/-- **What parsing a well-formed string stores**: the payload it carries, at the
end of the deque of its id, and nothing else. -/
theorem parseRawData_spec {raw : Bytes} (h : WellFormed raw) (m : MultiplexManager) :
    ∃ m' ev, parseRawData m raw = .ok (m', ev) ∧
      ∀ id, m'.readyRecv.find? id = match payloadFor id raw with
        | none => m.readyRecv.find? id
        | some payload => some (m.readyRecv.getD id [] ++ [payload]) := by
  by_cases ht : TakenAsPackage raw
  · refine ⟨_, _, by rw [parseRawData_of_taken ht, readBuffer_eq (h ht)]; rfl, fun id => ?_⟩
    rw [find?_pushRecv, payloadFor]
    by_cases hid : id = (MultiplexPackageMeta.ofBytes raw).id
    · rw [if_pos hid, if_pos ⟨ht, hid.symm⟩, hid]
    · rw [if_neg hid, if_neg fun hc => hid hc.2.symm]
  · obtain ⟨ev, hparse⟩ := parseRawData_of_not_taken ht
    refine ⟨m, ev, hparse m, fun id => ?_⟩
    rw [payloadFor, if_neg fun hc => ht hc.1]

/-- What parsing well-formed strings one after another stores. -/
theorem receiveAll_spec : ∀ {raws : List Bytes} {m : MultiplexManager},
    (∀ raw ∈ raws, WellFormed raw) → ∃ m', receiveAll m raws = .ok m' ∧
      ∀ id, m'.readyRecv.find? id
        = if raws.filterMap (payloadFor id) = [] then m.readyRecv.find? id
          else some (m.readyRecv.getD id [] ++ raws.filterMap (payloadFor id)) := by
  intro raws
  induction raws with
  | nil => intro m _; exact ⟨m, rfl, fun id => by simp⟩
  | cons raw raws ih =>
    intro m h
    rw [List.forall_mem_cons] at h
    obtain ⟨m₁, ev, hparse, hfind⟩ := parseRawData_spec h.1 m
    obtain ⟨m', hrest, hfind'⟩ := ih h.2
    refine ⟨m', by rw [receiveAll, hparse]; exact hrest, fun id => ?_⟩
    -- the deque after the first string is what the rest of them adds to
    rw [hfind' id, SortedMap.getD, hfind id]
    cases hp : payloadFor id raw with
    | none =>
      rw [List.filterMap_cons_none hp]
      rfl
    | some payload =>
      rw [List.filterMap_cons_some hp, if_neg (List.cons_ne_nil _ _)]
      split_ifs with hnil
      · rw [hnil]
      · simp

theorem fst_takeOutRecvInAdvance_of_none {m : MultiplexManager} {id : UInt64}
    (h : m.readyRecv.find? id = none) : (takeOutRecvInAdvance m id).1 = (false, []) := by
  rw [takeOutRecvInAdvance, h]

theorem fst_takeOutRecvInAdvance_of_some {m : MultiplexManager} {id : UInt64}
    {que : List Bytes} (h : m.readyRecv.find? id = some que) :
    (takeOutRecvInAdvance m id).1 = (true, que.flatten) := by
  have hfold : ∀ (l : List Bytes) (acc : Bytes),
      l.foldl (fun data perData => data ++ perData) acc = acc ++ l.flatten := by
    intro l
    induction l with
    | nil => intro acc; simp
    | cons x l ih => intro acc; rw [List.foldl_cons, ih, List.flatten_cons, List.append_assoc]
  simp only [takeOutRecvInAdvance, h]
  rw [hfold, List.nil_append]

/-! ### Staying inside the string -/

/-- Parsing `raw` reads only its bytes: it does not leave the buffer, and a
payload it stores is the declared number of bytes behind the header, all of them
present in `raw`. -/
def StoresOnlyPresent (m : MultiplexManager) (raw : Bytes) : Prop :=
  ∃ m' ev, parseRawData m raw = .ok (m', ev) ∧
    ∀ id, m'.readyRecv.find? id ≠ m.readyRecv.find? id →
      sizeofPackageMeta + sizeField raw ≤ raw.length ∧
        m'.readyRecv.find? id
          = some (m.readyRecv.getD id [] ++ [slice sizeofPackageMeta (sizeField raw) raw])

theorem storesOnlyPresent_of_wellFormed {raw : Bytes} (h : WellFormed raw)
    (m : MultiplexManager) : StoresOnlyPresent m raw := by
  obtain ⟨m', ev, hparse, hfind⟩ := parseRawData_spec h m
  refine ⟨m', ev, hparse, fun id hne => ?_⟩
  rw [hfind id] at hne ⊢
  rw [payloadFor] at hne ⊢
  split_ifs at hne ⊢ with hc
  · exact ⟨h hc.1, rfl⟩
  · exact absurd rfl hne

theorem wellFormed_of_storesOnlyPresent {raw : Bytes} {m : MultiplexManager}
    (h : StoresOnlyPresent m raw) : WellFormed raw := by
  intro ht
  obtain ⟨m', ev, hparse, hstored⟩ := h
  rw [parseRawData_of_taken ht] at hparse
  cases hread : readBuffer raw sizeofPackageMeta (sizeField raw) with
  | error e => rw [hread] at hparse; simp [Except.map] at hparse
  | ok payload =>
    rw [hread] at hparse
    simp only [Except.map, Except.ok.injEq, Prod.mk.injEq] at hparse
    -- the deque of the id has grown, so the stored payload must have been present
    refine (hstored (MultiplexPackageMeta.ofBytes raw).id ?_).1
    rw [← hparse.1, find?_pushRecv, if_pos rfl, SortedMap.getD]
    cases m.readyRecv.find? (MultiplexPackageMeta.ofBytes raw).id <;> simp

/-- **Reads stay inside the string exactly when it is well formed**: it is not
taken for a data package, or the size it declares fits in it. -/
theorem storesOnlyPresent_iff (m : MultiplexManager) (raw : Bytes) :
    StoresOnlyPresent m raw ↔
      (TakenAsPackage raw → sizeofPackageMeta + sizeField raw ≤ raw.length) :=
  ⟨wellFormed_of_storesOnlyPresent, fun h => storesOnlyPresent_of_wellFormed h m⟩

/-- A bare header that declares 100 bytes. -/
def bareHeader : Bytes :=
  MultiplexPackageMeta.toBytes { id := 7, extention := 0, size := 100, queNo := 0 }

/-- The parser copies 100 bytes from behind the end of a bare header. -/
theorem bareHeader_reads_outside :
    ¬ StoresOnlyPresent .new bareHeader ∧
      parseRawData .new bareHeader = .error .outOfBounds := by
  have ht : TakenAsPackage bareHeader := by decide +kernel
  have hsize : sizeField bareHeader = 100 := by decide +kernel
  refine ⟨fun h => ?_, ?_⟩
  · have hfit := wellFormed_of_storesOnlyPresent h ht
    rw [hsize] at hfit
    exact absurd hfit (by decide +kernel)
  · rw [parseRawData_of_taken ht, hsize]
    rfl

end AndrenBoost.Multiplex
