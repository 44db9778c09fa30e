import AndrenBoost.Lib.Component
import AndrenBoost.Lib.StdString
import AndrenBoost.Multiplex.Reception
import AndrenBoost.Multiplex.Transfer
import Mathlib.Data.List.Flatten
import Mathlib.Data.List.Induction

/-!
# A session over the multiplexer

The program that comes with the multiplexer sends a list of tasks to a server.  The
server's two callbacks keep the announced size of every id and the bytes that have
come for it since; when the two agree, the data is taken out and printed.  The
server counts the tasks it has printed, and leaves its loop when it has them all.

## Main definitions

* `Session` — what the two callbacks share with the loop.
* `onNewRequest`, `onRecvPackage` — the callbacks.
* `Session.receive` — one string: parsed, and the callback called.
* `Session.takenFor`, `Session.contentsFor` — what was taken out for an id, and what was
  printed of it.
* `Channel` — what belongs to one id, with the strings that touch it.

## Main results

* `isComponent_channel` — **an id is a component of the session**.
* `channel_dataList` — what the strings of one task make of an id.
* `told_run` — **what is printed is what was taken out**, up to its first zero byte.

## References

The callbacks and the loop of `do_session` in `example/test_multiplex_transfer.cpp`.
-/

namespace AndrenBoost.Multiplex

/-! ### The server -/

/-- A line of the server's output. -/
inductive Line
  /-- `new group, que_no=, id=, all_size=` -/
  | newGroup (queNo : UInt8) (id allSize : UInt64)
  /-- `recv id= done, content = `, where `%s` stops at the first zero byte, and the count
  that is printed after it. -/
  | done (id : UInt64) (content : Bytes) (current : ℕ)
  deriving DecidableEq, Repr

/-- The variables of `do_session`. -/
structure Session where
  multiplex : MultiplexManager
  /-- `already_recv`: the size announced and the size received. -/
  alreadyRecv : SortedMap UInt64 (UInt64 × UInt64)
  serverCount : ℕ
  /-- What has gone to `stdout`, less the lines of the loop itself. -/
  stdout : List Line
  /-- Each `data` that the callback has taken out, with its id. -/
  taken : List (UInt64 × Bytes)

/-- The start of `do_session`. -/
def Session.new : Session := ⟨.new, .empty, 0, [], []⟩

/-- The callback set by `setOnNewRequest`. -/
def onNewRequest (s : Session) (header : MultiplexMeta) : Session :=
  { s with
    stdout := s.stdout ++ [.newGroup header.queNo header.id header.allSize]
    alreadyRecv := s.alreadyRecv.set header.id (header.allSize, 0) }

/-- The callback set by `setOnRecvPackage`. -/
def onRecvPackage (s : Session) (packageMeta : MultiplexPackageMeta) : Session :=
  -- `already_recv[id]` makes a pair of zeros where there is none
  let sizes := s.alreadyRecv.getD packageMeta.id (0, 0)
  let recvSize := sizes.2 + packageMeta.size.toUInt64
  let s := { s with alreadyRecv := s.alreadyRecv.set packageMeta.id (sizes.1, recvSize) }
  if recvSize = sizes.1 then
    let r := takeOutRecvInAdvance s.multiplex packageMeta.id
    let s := { s with multiplex := r.2 }
    if r.1.1 then
      { s with
        serverCount := s.serverCount + 1
        stdout := s.stdout ++
          [.done packageMeta.id (StdString.cString r.1.2) (s.serverCount + 1)]
        taken := s.taken ++ [(packageMeta.id, r.1.2)] }
    else s
  else s

/-- What `parse_raw_data` tells its user. -/
def dispatch (s : Session) : Option Event → Session
  | none => s
  | some (.newRequest header) => onNewRequest s header
  | some (.recvPackage header) => onRecvPackage s header

/-- `multiplex.parse_raw_data(data)`, with the two callbacks set: each is called
when the manager has been changed. -/
def Session.receive (s : Session) (raw : Bytes) : Except Fault Session :=
  (parseRawData s.multiplex raw).map fun r => dispatch { s with multiplex := r.1 } r.2

/-- The id and the content of a line that reports a task. -/
def Line.done? : Line → Option (UInt64 × Bytes)
  | .newGroup _ _ _ => none
  | .done id content _ => some (id, content)

/-- The ids and the contents printed, in order. -/
def Session.done (s : Session) : List (UInt64 × Bytes) := s.stdout.filterMap Line.done?

/-- What was printed for an id. -/
def Session.contentsFor (s : Session) (id : UInt64) : List Bytes :=
  (s.done.filter fun r => r.1 = id).map Prod.snd

/-- What was taken out for an id. -/
def Session.takenFor (s : Session) (id : UInt64) : List Bytes :=
  (s.taken.filter fun r => r.1 = id).map Prod.snd

/-- What is printed of an id and of data taken out for it. -/
def printed (r : UInt64 × Bytes) : UInt64 × Bytes := (r.1, StdString.cString r.2)

/-! ### One id -/

/-- What a session holds for one id: the sizes announced and received, the payloads
stored, and the contents taken out. -/
structure Channel where
  sizes : Option (UInt64 × UInt64)
  stored : Option (List Bytes)
  contents : List Bytes
  deriving DecidableEq

/-- What the session holds for an id. -/
def Session.channel (id : UInt64) (s : Session) : Channel where
  sizes := s.alreadyRecv.find? id
  stored := s.multiplex.readyRecv.find? id
  contents := s.takenFor id

/-- The strings taken for an announcement of the id. -/
def AnnouncementFor (id : UInt64) (raw : Bytes) : Prop :=
  raw.length = sizeofMeta ∧ IsAnnouncement raw ∧ (MultiplexMeta.ofBytes raw).id = id

/-- The strings that touch an id. -/
def StringFor (id : UInt64) (raw : Bytes) : Prop := AnnouncementFor id raw ∨ PackageFor id raw

instance (id : UInt64) : DecidablePred (AnnouncementFor id) :=
  fun _ => inferInstanceAs (Decidable (_ ∧ _))

instance (id : UInt64) : DecidablePred (StringFor id) :=
  fun _ => inferInstanceAs (Decidable (_ ∨ _))

/-- The payload the parser copies: bytes of the string and its terminating zero. -/
def copiedPayload (raw : Bytes) : Bytes := slice sizeofPackageMeta (sizeField raw) (raw ++ [0])

/-- A string that touches the id. -/
def Channel.act (c : Channel) (raw : Bytes) : Channel :=
  if raw.length = sizeofMeta then
    { c with sizes := some ((MultiplexMeta.ofBytes raw).allSize, 0) }
  else
    let sizes := c.sizes.getD (0, 0)
    let recvSize := sizes.2 + (MultiplexPackageMeta.ofBytes raw).size.toUInt64
    let stored := c.stored.getD [] ++ [copiedPayload raw]
    if recvSize = sizes.1 then
      ⟨some (sizes.1, recvSize), some [], c.contents ++ [stored.flatten]⟩
    else ⟨some (sizes.1, recvSize), some stored, c.contents⟩

/-! ### The callbacks on one id -/

theorem takenFor_of_taken_append {s s' : Session} {r : UInt64 × Bytes} (id : UInt64)
    (h : s'.taken = s.taken ++ [r]) :
    s'.takenFor id = s.takenFor id ++ if id = r.1 then [r.2] else [] := by
  rw [Session.takenFor, h, List.filter_append, List.map_append]
  split_ifs with hid
  · simp [Session.takenFor, hid]
  · simp [Session.takenFor, Ne.symm hid]

/-- The announcement of an id starts its sizes anew; it changes nothing else of it,
and nothing of any other id. -/
theorem channel_onNewRequest (s : Session) (header : MultiplexMeta) (id : UInt64) :
    (onNewRequest s header).channel id
      = if id = header.id then { s.channel id with sizes := some (header.allSize, 0) }
        else s.channel id := by
  have hcontents : (onNewRequest s header).takenFor id = s.takenFor id := rfl
  rw [Session.channel, hcontents]
  split_ifs with h <;> simp [onNewRequest, SortedMap.find?_set, h, Session.channel]

/-- The callback for a package whose payload has just been stored. -/
theorem channel_onRecvPackage {s : Session} {packageMeta : MultiplexPackageMeta}
    {que : List Bytes} (hque : s.multiplex.readyRecv.find? packageMeta.id = some que)
    (id : UInt64) :
    (onRecvPackage s packageMeta).channel id
      = if id = packageMeta.id then
          let sizes := s.alreadyRecv.getD packageMeta.id (0, 0)
          let recvSize := sizes.2 + packageMeta.size.toUInt64
          if recvSize = sizes.1 then
            ⟨some (sizes.1, recvSize), some [], s.takenFor id ++ [que.flatten]⟩
          else ⟨some (sizes.1, recvSize), some que, s.takenFor id⟩
        else s.channel id := by
  have hout := fst_takeOutRecvInAdvance_of_some hque
  have hother := fun id' (h : id' ≠ packageMeta.id) =>
    find?_takeOutRecvInAdvance_of_ne s.multiplex h
  have hself : (takeOutRecvInAdvance s.multiplex packageMeta.id).2.readyRecv.find? packageMeta.id
      = some [] := by
    simp only [takeOutRecvInAdvance, hque]
    rw [SortedMap.find?_set, if_pos rfl]
  simp only [onRecvPackage, hout]
  by_cases hfull : (s.alreadyRecv.getD packageMeta.id (0, 0)).2 + packageMeta.size.toUInt64
      = (s.alreadyRecv.getD packageMeta.id (0, 0)).1
  · simp only [if_pos hfull, if_true]
    rw [Session.channel, takenFor_of_taken_append id rfl]
    dsimp only
    split_ifs with h
    · subst h
      simp [SortedMap.find?_set, hself]
    · rw [List.append_nil]
      simp [SortedMap.find?_set, h, hother id h, Session.channel]
  · simp only [if_neg hfull]
    rw [Session.channel]
    split_ifs with h
    · subst h
      simp [SortedMap.find?_set, hque, Session.takenFor]
    · simp [SortedMap.find?_set, h, Session.channel, Session.takenFor]

/-! ### An id is a component -/

/-- What parsing makes of the session when it stores a payload. -/
theorem receive_of_taken {raw : Bytes} (h : TakenAsPackage raw) {s s' : Session}
    (hs : s.receive raw = .ok s') :
    s' = onRecvPackage
      { s with
        multiplex :=
          pushRecv s.multiplex (MultiplexPackageMeta.ofBytes raw).id (copiedPayload raw) }
      (MultiplexPackageMeta.ofBytes raw) := by
  rw [Session.receive, parseRawData_of_taken h, readBuffer] at hs
  split_ifs at hs
  · simp only [Except.map, Except.ok.injEq] at hs
    exact hs.symm
  · simp [Except.map] at hs

/-- What it makes of the session otherwise. -/
theorem receive_of_not_taken {raw : Bytes} (h : ¬ TakenAsPackage raw) (s : Session) :
    s.receive raw = .ok (if raw.length = sizeofMeta ∧ IsAnnouncement raw then
      onNewRequest s (MultiplexMeta.ofBytes raw) else s) := by
  by_cases hann : raw.length = sizeofMeta ∧ IsAnnouncement raw
  · have hmagic : (MultiplexMeta.ofBytes raw).magicNum = multiplexMetaMagicNum := hann.2
    simp only [Session.receive, parseRawData, if_pos hann.1, if_pos hmagic, if_pos hann]
    rfl
  · have hev : parseRawData s.multiplex raw = .ok (s.multiplex, none) := by
      simp only [parseRawData]
      split_ifs with h1 h2 h3 h4
      · exact absurd ⟨h1, h2⟩ hann
      · rfl
      · exact absurd ⟨h1, h3, h4⟩ h
      · rfl
      · rfl
    rw [if_neg hann, Session.receive, hev]
    rfl

/-- **An id is a component of the session**: its sizes, its payloads and its lines are
changed by its own announcements and packages only, and by these in a way that
depends on nothing else. -/
theorem isComponent_channel (id : UInt64) :
    Component.IsComponent Session.receive (Session.channel id) (StringFor id) Channel.act := by
  constructor
  · intro s s' raw hs hmine
    rcases hmine with ⟨hlen, hann, hid⟩ | ⟨ht, hid⟩
    · have hnot : ¬ TakenAsPackage raw := fun ht => ht.1 hlen
      rw [receive_of_not_taken hnot, if_pos ⟨hlen, hann⟩] at hs
      cases hs
      rw [channel_onNewRequest, if_pos hid.symm, Channel.act, if_pos hlen]
    · rw [receive_of_taken ht hs, hid, channel_onRecvPackage
        (by rw [hid, find?_pushRecv, if_pos rfl]), hid, if_pos rfl, Channel.act, if_neg ht.1]
      rfl
  · intro s s' raw hs hmine
    by_cases ht : TakenAsPackage raw
    · have hid : id ≠ (MultiplexPackageMeta.ofBytes raw).id := fun h =>
        hmine (Or.inr ⟨ht, h.symm⟩)
      rw [receive_of_taken ht hs, channel_onRecvPackage
        (by rw [find?_pushRecv, if_pos rfl]), if_neg hid, Session.channel, find?_pushRecv,
        if_neg hid]
      rfl
    · rw [receive_of_not_taken ht] at hs
      cases hs
      split_ifs with hann
      · rw [channel_onNewRequest, if_neg fun h => hmine (Or.inl ⟨hann.1, hann.2, h.symm⟩)]
      · rfl

/-! ### The strings of a task -/

/-- A string that fits is copied as it is. -/
theorem copiedPayload_packageOf (id : UInt64) (queueNo : QueueNum) {payload : Bytes}
    (h : payload.length ≤ queSizeMap queueNo) :
    copiedPayload (packageOf id queueNo payload) = payload := by
  rw [copiedPayload, sizeField_packageOf id queueNo h, packageOf, List.append_assoc,
    slice_append_right (k := 0) _ _ (by simp)]
  simp [slice]

theorem stringFor_metaData_iff (id : UInt64) (queueNo : QueueNum) (data : Bytes)
    (id' : UInt64) : StringFor id' (metaData id queueNo data) ↔ id = id' := by
  have hread := MultiplexMeta.ofBytes_toBytes_append
    { id := id, extention := 0, queNo := queueNo.toUInt8,
      allSize := UInt64.ofNat data.length } []
  rw [List.append_nil, ← metaData_eq] at hread
  have hlen : (metaData id queueNo data).length = sizeofMeta := by
    rw [metaData_eq, MultiplexMeta.length_toBytes]
  have hnot := not_takenAsPackage_metaData id queueNo data
  have hann := isAnnouncement_metaData id queueNo data
  rw [StringFor, AnnouncementFor, PackageFor, hread]
  simp [hlen, hnot, hann]

/-- A package of eight bytes touches no id. -/
theorem stringFor_packageOf_iff (id : UInt64) (queueNo : QueueNum) (payload : Bytes)
    (id' : UInt64) :
    StringFor id' (packageOf id queueNo payload) ↔ payload.length ≠ 8 ∧ id = id' := by
  have hnot := (isDataPackage_packageOf id queueNo payload).not_isAnnouncement
  have hid : (MultiplexPackageMeta.ofBytes (packageOf id queueNo payload)).id = id := by
    rw [packageOf, MultiplexPackageMeta.ofBytes_toBytes_append]
  rw [StringFor, AnnouncementFor, PackageFor, takenAsPackage_packageOf_iff, hid]
  simp [hnot]

/-- The announcement of a task. -/
theorem channel_act_metaData (c : Channel) (id : UInt64) (queueNo : QueueNum) (data : Bytes) :
    c.act (metaData id queueNo data)
      = { c with sizes := some (UInt64.ofNat data.length, 0) } := by
  have hread := MultiplexMeta.ofBytes_toBytes_append
    { id := id, extention := 0, queNo := queueNo.toUInt8,
      allSize := UInt64.ofNat data.length } []
  rw [List.append_nil, ← metaData_eq] at hread
  rw [Channel.act, if_pos (by rw [metaData_eq, MultiplexMeta.length_toBytes]), hread]

/-- A package of a task. -/
theorem channel_act_packageOf {c : Channel} {all recv : UInt64} (hc : c.sizes = some (all, recv))
    (id : UInt64) (queueNo : QueueNum) {payload : Bytes}
    (hle : payload.length ≤ queSizeMap queueNo) (hne : payload.length ≠ 8) :
    c.act (packageOf id queueNo payload)
      = if recv + UInt64.ofNat payload.length = all then
          ⟨some (all, recv + UInt64.ofNat payload.length), some [],
            c.contents ++ [(c.stored.getD [] ++ [payload]).flatten]⟩
        else
          ⟨some (all, recv + UInt64.ofNat payload.length), some (c.stored.getD [] ++ [payload]),
            c.contents⟩ := by
  have hlen : (packageOf id queueNo payload).length ≠ sizeofMeta := by
    rw [length_packageOf, sizeofPackageMeta, sizeofMeta]
    omega
  have hle' := queSizeMap_le queueNo
  have hsize : (MultiplexPackageMeta.ofBytes (packageOf id queueNo payload)).size.toUInt64
      = UInt64.ofNat payload.length := by
    rw [packageOf, MultiplexPackageMeta.ofBytes_toBytes_append]
    apply UInt64.toNat_inj.mp
    simp
    omega
  rw [Channel.act, if_neg hlen, hc, hsize, copiedPayload_packageOf id queueNo hle]
  rfl

section Packages

variable {id : UInt64} {queueNo : QueueNum}

theorem ofNat_add_ofNat (a b : ℕ) : UInt64.ofNat a + UInt64.ofNat b = UInt64.ofNat (a + b) :=
  (UInt64.ofNat_add a b).symm

theorem ofNat_inj {a b : ℕ} (ha : a < 2 ^ 64) (hb : b < 2 ^ 64) :
    UInt64.ofNat a = UInt64.ofNat b ↔ a = b := by
  rw [← UInt64.toNat_inj, UInt64.toNat_ofNat_of_lt' ha, UInt64.toNat_ofNat_of_lt' hb]

/-- Payloads that do not make up the announced size are stored. -/
theorem channel_packages_of_lt {c : Channel} {all : ℕ} (hall : all < 2 ^ 64)
    (hc : c.sizes = some (UInt64.ofNat all, 0)) : ∀ {segs : List Bytes},
    (∀ seg ∈ segs, seg.length ≤ queSizeMap queueNo ∧ seg.length ≠ 8) →
      segs = [] ∨ segs.flatten.length < all →
        (segs.map (packageOf id queueNo)).foldl Channel.act c
          = ⟨some (UInt64.ofNat all, UInt64.ofNat segs.flatten.length),
              if segs = [] then c.stored else some (c.stored.getD [] ++ segs), c.contents⟩ := by
  intro segs
  induction segs using List.reverseRecOn with
  | nil =>
    intro _ _
    obtain ⟨sizes, stored, contents⟩ := c
    cases hc
    rfl
  | append_singleton segs seg ih =>
    intro hsegs hlt
    rw [List.forall_mem_append] at hsegs
    have hseg := hsegs.2 seg List.mem_cons_self
    have hsum : segs.flatten.length + seg.length < all := by
      rcases hlt with hnil | hlt
      · simp at hnil
      · simpa using hlt
    have hprev := ih hsegs.1 (Or.inr (by omega))
    rw [List.map_append, List.foldl_append, hprev, List.map_singleton, List.foldl_cons,
      List.foldl_nil, channel_act_packageOf rfl id queueNo hseg.1 hseg.2, ofNat_add_ofNat,
      if_neg (by rw [ofNat_inj (by omega) hall]; omega)]
    by_cases hnil : segs = []
    · subst hnil
      simp
    · simp [hnil]

/-- The payload that makes it up is the last one: everything stored is taken out. -/
theorem channel_packages_of_eq {c : Channel} {all : ℕ} (hall : all < 2 ^ 64)
    (hc : c.sizes = some (UInt64.ofNat all, 0)) {segs : List Bytes} {seg : Bytes}
    (hsegs : ∀ x ∈ segs ++ [seg], x.length ≤ queSizeMap queueNo ∧ x.length ≠ 8)
    (hlt : segs = [] ∨ segs.flatten.length < all) (heq : (segs ++ [seg]).flatten.length = all) :
    ((segs ++ [seg]).map (packageOf id queueNo)).foldl Channel.act c
      = ⟨some (UInt64.ofNat all, UInt64.ofNat all), some [],
          c.contents ++ [(c.stored.getD []).flatten ++ (segs ++ [seg]).flatten]⟩ := by
  rw [List.forall_mem_append] at hsegs
  have hseg := hsegs.2 seg List.mem_cons_self
  have hsum : segs.flatten.length + seg.length = all := by simpa using heq
  rw [List.map_append, List.foldl_append, channel_packages_of_lt hall hc hsegs.1 hlt,
    List.map_singleton, List.foldl_cons, List.foldl_nil,
    channel_act_packageOf rfl id queueNo hseg.1 hseg.2, ofNat_add_ofNat, hsum, if_pos rfl]
  by_cases hnil : segs = []
  · subst hnil
    simp
  · simp [hnil]

end Packages

/-- The payloads of the first strings of a task, the announcement counted, that the
receiver stores. -/
def keptOf (queueNo : QueueNum) (data : Bytes) (n : ℕ) : List Bytes :=
  ((segments (queSizeMap queueNo) data).take (n - 1)).filter fun seg => seg.length ≠ 8

/-- The payloads of a task make up its size only when they are all there. -/
theorem keptOf_eq_nil_or_lt {queueNo : QueueNum} {data : Bytes} {n : ℕ}
    (h : ¬ ((segments (queSizeMap queueNo) data).length + 1 ≤ n ∧
      data.length % queSizeMap queueNo ≠ 8)) :
    keptOf queueNo data n = [] ∨ (keptOf queueNo data n).flatten.length < data.length := by
  have hs := queSizeMap_ge queueNo
  have hpos := queSizeMap_pos queueNo
  have hall := flatten_segments hpos data
  rcases Nat.lt_or_ge n ((segments (queSizeMap queueNo) data).length + 1) with hlt | hge
  · -- the last segment is missing
    obtain ⟨init, last, hsegs, -, -, hempty⟩ := exists_segments_eq_append hpos data
    rw [hsegs, List.flatten_append, List.flatten_singleton] at hall
    rw [hsegs, List.length_append, List.length_singleton] at hlt
    rw [keptOf, hsegs, List.take_append_of_le_length (by omega)]
    have hle := ((List.filter_sublist (p := fun seg : Bytes => decide (seg.length ≠ 8))).trans
      (List.take_sublist (n - 1) init)).flatten.length_le
    have hlen := congrArg List.length hall
    rw [List.length_append] at hlen
    by_cases hdata : data.length = 0
    · -- no data, and the one empty segment is the last
      have hinit := (length_segments_eq_one_iff hpos data).mpr (by omega)
      rw [hsegs, List.length_append, List.length_singleton] at hinit
      rw [List.length_eq_zero_iff.mp (by omega : init.length = 0)]
      exact Or.inl (by simp)
    · have : last.length ≠ 0 := fun hl => hdata (hempty.mp hl)
      exact Or.inr (by omega)
  · -- the last segment has eight bytes
    have hmod : data.length % queSizeMap queueNo = 8 := by
      by_contra hne
      exact h ⟨hge, hne⟩
    obtain ⟨seg, hseg, hlen⟩ := (exists_length_eq_iff (by decide) (by omega) data).mpr hmod
    have hlt := length_flatten_filter_lt (p := fun seg : Bytes => decide (seg.length ≠ 8)) hseg
      (by simp [hlen]) (by rintro rfl; simp at hlen)
    rw [keptOf, List.take_of_length_le (by omega)]
    exact Or.inr (by rwa [hall] at hlt)

/-- When they are all there, the last one makes it up. -/
theorem exists_keptOf_eq_append {queueNo : QueueNum} {data : Bytes} {n : ℕ}
    (hn : (segments (queSizeMap queueNo) data).length + 1 ≤ n)
    (hmod : data.length % queSizeMap queueNo ≠ 8) : ∃ init last,
      keptOf queueNo data n = init ++ [last] ∧ (keptOf queueNo data n).flatten = data ∧
        (init = [] ∨ init.flatten.length < data.length) := by
  have hs := queSizeMap_ge queueNo
  have hpos := queSizeMap_pos queueNo
  have hall := flatten_segments hpos data
  have hnone : ∀ seg ∈ segments (queSizeMap queueNo) data, seg.length ≠ 8 := fun seg hseg he =>
    hmod ((exists_length_eq_iff (by decide) (by omega) data).mp ⟨seg, hseg, he⟩)
  have heq : keptOf queueNo data n = segments (queSizeMap queueNo) data := by
    rw [keptOf, List.take_of_length_le (by omega)]
    exact List.filter_eq_self.mpr fun seg hseg => by simpa using hnone seg hseg
  obtain ⟨init, last, hsegs, hinit, -, hempty⟩ := exists_segments_eq_append hpos data
  refine ⟨init, last, by rw [heq, hsegs], by rw [heq, hall], ?_⟩
  rw [hsegs, List.flatten_append, List.flatten_singleton] at hall
  have hlen := congrArg List.length hall
  rw [List.length_append] at hlen
  by_cases hlast : last.length = 0
  · -- an empty last segment is the only one
    have hone := (length_segments_eq_one_iff hpos data).mpr (by rw [hempty.mp hlast]; omega)
    rw [hsegs, List.length_append, List.length_singleton] at hone
    exact Or.inl (List.length_eq_zero_iff.mp (by omega))
  · exact Or.inr (by omega)

/-- The strings of a beginning of a task that touch its id. -/
theorem filter_stringFor_take (id : UInt64) (queueNo : QueueNum) (data : Bytes) {n : ℕ}
    (hn : n ≠ 0) : (((dataList id queueNo data).take n).filter fun raw => StringFor id raw)
      = metaData id queueNo data :: (keptOf queueNo data n).map (packageOf id queueNo) := by
  obtain ⟨n, rfl⟩ := Nat.exists_eq_succ_of_ne_zero hn
  have hmeta := (stringFor_metaData_iff id queueNo data id).mpr rfl
  rw [dataList_eq, List.take_succ_cons, List.filter_cons_of_pos (by simpa using hmeta),
    ← List.map_take, List.filter_map, keptOf, Nat.succ_sub_one]
  congr 2
  refine List.filter_congr fun seg _ => ?_
  simp [stringFor_packageOf_iff]

/-- **What the strings of a task make of its id.**  The first `n` of them start the
sizes anew.  If they are all of them, and none is lost, what was stored before and the
data are taken out; otherwise the payloads are added to what was stored. -/
theorem channel_dataList (c : Channel) (id : UInt64) (queueNo : QueueNum) {data : Bytes}
    (hdata : data.length < 2 ^ 64) {n : ℕ} (hn : n ≠ 0) :
    (((dataList id queueNo data).take n).filter fun raw => StringFor id raw).foldl Channel.act c
      = if (dataList id queueNo data).length ≤ n ∧ data.length % queSizeMap queueNo ≠ 8 then
          ⟨some (UInt64.ofNat data.length, UInt64.ofNat data.length), some [],
            c.contents ++ [(c.stored.getD []).flatten ++ data]⟩
        else
          ⟨some (UInt64.ofNat data.length,
              UInt64.ofNat (keptOf queueNo data n).flatten.length),
            if keptOf queueNo data n = [] then c.stored
              else some (c.stored.getD [] ++ keptOf queueNo data n), c.contents⟩ := by
  have hpos := queSizeMap_pos queueNo
  have hlen : (dataList id queueNo data).length
      = (segments (queSizeMap queueNo) data).length + 1 := by
    rw [dataList_eq, List.length_cons, List.length_map]
  have hkept : ∀ seg ∈ keptOf queueNo data n,
      seg.length ≤ queSizeMap queueNo ∧ seg.length ≠ 8 := fun seg hseg => by
    obtain ⟨hmem, hne⟩ := List.mem_filter.mp hseg
    exact ⟨length_le_of_mem_segments hpos (List.mem_of_mem_take hmem), by simpa using hne⟩
  rw [filter_stringFor_take id queueNo data hn, List.foldl_cons, channel_act_metaData, hlen]
  by_cases hfull : (segments (queSizeMap queueNo) data).length + 1 ≤ n ∧
      data.length % queSizeMap queueNo ≠ 8
  · obtain ⟨init, last, heq, hflat, hlt⟩ := exists_keptOf_eq_append hfull.1 hfull.2
    rw [if_pos hfull, heq, channel_packages_of_eq hdata rfl (heq ▸ hkept) hlt
      (by rw [← heq, hflat]), ← heq, hflat]
  · rw [if_neg hfull, channel_packages_of_lt hdata rfl hkept (keptOf_eq_nil_or_lt hfull)]

/-! ### What is printed -/

/-- The lines tell what was taken out, up to its first zero byte, and it is counted. -/
structure Session.Told (s : Session) : Prop where
  printed : s.done = s.taken.map printed
  counted : s.serverCount = s.taken.length

theorem told_new : Session.new.Told := ⟨rfl, rfl⟩

theorem done_of_stdout_append {s s' : Session} {l : Line} (h : s'.stdout = s.stdout ++ [l]) :
    s'.done = s.done ++ l.done?.toList := by
  rw [Session.done, h, List.filterMap_append]
  cases hl : l.done? <;> simp [Session.done, hl]

theorem told_onNewRequest {s : Session} (h : s.Told) (header : MultiplexMeta) :
    (onNewRequest s header).Told := by
  refine ⟨?_, h.counted⟩
  rw [done_of_stdout_append rfl, Line.done?, Option.toList_none, List.append_nil]
  exact h.printed

theorem told_onRecvPackage {s : Session} (h : s.Told) (packageMeta : MultiplexPackageMeta) :
    (onRecvPackage s packageMeta).Told := by
  simp only [onRecvPackage]
  split_ifs
  · refine ⟨?_, ?_⟩
    · rw [done_of_stdout_append rfl, List.map_append]
      exact congrArg (· ++ _) h.printed
    · rw [List.length_append]
      exact congrArg (· + 1) h.counted
  · exact ⟨h.printed, h.counted⟩
  · exact ⟨h.printed, h.counted⟩

theorem told_receive {s s' : Session} {raw : Bytes} (hs : s.receive raw = .ok s') (h : s.Told) :
    s'.Told := by
  rw [Session.receive] at hs
  cases hparse : parseRawData s.multiplex raw with
  | error e =>
    rw [hparse] at hs
    cases hs
  | ok r =>
    obtain ⟨m, ev⟩ := r
    rw [hparse] at hs
    obtain rfl := Except.ok.inj hs
    -- the manager is in neither
    have hm : ({ s with multiplex := m } : Session).Told := ⟨h.printed, h.counted⟩
    cases ev with
    | none => exact hm
    | some ev =>
      cases ev with
      | newRequest header => exact told_onNewRequest hm header
      | recvPackage header => exact told_onRecvPackage hm header

/-- What is printed for an id. -/
theorem Session.Told.contentsFor {s : Session} (h : s.Told) (id : UInt64) :
    s.contentsFor id = (s.takenFor id).map StdString.cString := by
  rw [Session.contentsFor, h.printed, List.filter_map, List.map_map, Session.takenFor, List.map_map]
  rfl

/-- **What is printed is what was taken out**, up to its first zero byte. -/
theorem told_run {raws : List Bytes} {s : Session}
    (hrun : raws.foldlM Session.receive .new = .ok s) : s.Told :=
  Component.foldlM_invariant Session.Told told_receive hrun told_new

end AndrenBoost.Multiplex
