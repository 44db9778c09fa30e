import AndrenBoost.Multiplex.Receiver

/-!
# Runs of the receiver

Parsing appends the payload of a data package to the deque of its id, and taking
out empties the deque of one id without removing it from the map.  So each id
sees a stream of its own: what its calls returned and what is still held is what
its packages carried, whatever happens to the other ids and however the strings
of different ids are interleaved.

## Main definitions

* `RecvOp`, `stepRecv`, `runRecv` — the calls on the receiving side, and runs of
  them.
* `returnedFor`, `held` — the bytes of an id that calls returned, and those that
  are still in the map.
* `PackageFor` — the strings that add to the deque of an id.

## Main results

* `stepRecv_spec`, `runRecv_spec` — the bytes of an id over a call and over a
  run.
* `find?_stepRecv_of_not_concerns` — calls for other ids.
* `reception_conserves` — **no byte is lost or returned twice**.
* `reception_indifferent` — **the order of strings of different ids, and all
  other strings, make no difference**.
-/

namespace AndrenBoost.Multiplex

instance : DecidablePred WellFormed := fun _ => inferInstanceAs (Decidable (_ → _))

/-! ### Calls on the receiving side -/

/-- A call on the receiving side. -/
inductive RecvOp
  /-- `parse_raw_data(raw_data)` -/
  | parse (raw : Bytes)
  /-- `take_out_recv_in_advance(id)` -/
  | takeOut (id : UInt64)

/-- The string a call parses. -/
def RecvOp.raw? : RecvOp → Option Bytes
  | .parse raw => some raw
  | .takeOut _ => none

/-- The calls that belong to an id: parsing a string that adds a payload for it,
and taking out what is there for it. -/
def RecvOp.Concerns (id : UInt64) : RecvOp → Prop
  | .parse raw => payloadFor id raw ≠ none
  | .takeOut id' => id' = id

/-- One call: the ids and strings it returned to the user, and the manager after
it. -/
def stepRecv (m : MultiplexManager) :
    RecvOp → Except Fault (List (UInt64 × Bytes) × MultiplexManager)
  | .parse raw => (parseRawData m raw).map fun r => ([], r.1)
  | .takeOut id =>
      let r := takeOutRecvInAdvance m id
      .ok ([(id, r.1.2)], r.2)

/-- A sequence of calls: all that was returned, in order, and the manager after
it. -/
def runRecv (m : MultiplexManager) :
    List RecvOp → Except Fault (List (UInt64 × Bytes) × MultiplexManager)
  | [] => .ok ([], m)
  | op :: ops =>
      (stepRecv m op).bind fun r => (runRecv r.2 ops).map fun rest => (r.1 ++ rest.1, rest.2)

/-- The strings parsed in a sequence of calls. -/
def parsed (ops : List RecvOp) : List Bytes := ops.filterMap RecvOp.raw?

/-- The concatenation of what was returned for an id. -/
def returnedFor (id : UInt64) (results : List (UInt64 × Bytes)) : Bytes :=
  ((results.filter fun r => r.1 = id).map Prod.snd).flatten

/-- The bytes still held for an id. -/
def held (m : MultiplexManager) (id : UInt64) : Bytes := (m.readyRecv.getD id []).flatten

/-- The payloads that strings carry for an id, one after another. -/
def carriedFor (id : UInt64) (raws : List Bytes) : Bytes :=
  (raws.filterMap (payloadFor id)).flatten

theorem returnedFor_append (id : UInt64) (results rest : List (UInt64 × Bytes)) :
    returnedFor id (results ++ rest) = returnedFor id results ++ returnedFor id rest := by
  simp [returnedFor]

theorem parsed_cons (op : RecvOp) (ops : List RecvOp) :
    parsed (op :: ops) = parsed [op] ++ parsed ops := by
  rw [parsed, parsed, parsed, ← List.filterMap_append, List.singleton_append]

theorem carriedFor_append (id : UInt64) (raws raws' : List Bytes) :
    carriedFor id (raws ++ raws') = carriedFor id raws ++ carriedFor id raws' := by
  simp [carriedFor]

theorem held_of_find?_none {m : MultiplexManager} {id : UInt64}
    (h : m.readyRecv.find? id = none) : held m id = [] := by
  rw [held, SortedMap.getD, h]
  rfl

theorem held_of_find?_some {m : MultiplexManager} {id : UInt64} {que : List Bytes}
    (h : m.readyRecv.find? id = some que) : held m id = que.flatten := by
  rw [held, SortedMap.getD, h]
  rfl

theorem held_congr {m m' : MultiplexManager} {id : UInt64}
    (h : m'.readyRecv.find? id = m.readyRecv.find? id) : held m' id = held m id := by
  rw [held, held, SortedMap.getD, SortedMap.getD, h]

/-! ### One call -/

/-- Taking out returns exactly what is held. -/
theorem snd_fst_takeOutRecvInAdvance (m : MultiplexManager) (id : UInt64) :
    (takeOutRecvInAdvance m id).1.2 = held m id := by
  cases hfind : m.readyRecv.find? id with
  | none => rw [fst_takeOutRecvInAdvance_of_none hfind, held_of_find?_none hfind]
  | some que => rw [fst_takeOutRecvInAdvance_of_some hfind, held_of_find?_some hfind]

/-- Afterwards nothing is held. -/
theorem held_takeOutRecvInAdvance (m : MultiplexManager) (id : UInt64) :
    held (takeOutRecvInAdvance m id).2 id = [] := by
  cases hfind : m.readyRecv.find? id with
  | none =>
    simp only [takeOutRecvInAdvance, hfind]
    exact held_of_find?_none hfind
  | some que =>
    have hempty : (m.readyRecv.set id []).find? id = some [] := by
      rw [SortedMap.find?_set, if_pos rfl]
    simp only [takeOutRecvInAdvance, hfind]
    rw [held, SortedMap.getD, hempty]
    rfl

theorem find?_takeOutRecvInAdvance_of_ne (m : MultiplexManager) {id id' : UInt64}
    (h : id' ≠ id) :
    (takeOutRecvInAdvance m id).2.readyRecv.find? id' = m.readyRecv.find? id' := by
  cases hfind : m.readyRecv.find? id with
  | none => simp only [takeOutRecvInAdvance, hfind]
  | some que =>
    simp only [takeOutRecvInAdvance, hfind]
    rw [SortedMap.find?_set, if_neg h]

/-- A parsed string adds what it carries to what is held. -/
theorem held_of_parseRawData {raw : Bytes} (h : WellFormed raw) (m : MultiplexManager) :
    ∃ m' ev, parseRawData m raw = .ok (m', ev) ∧
      ∀ id, held m' id = held m id ++ carriedFor id [raw] := by
  obtain ⟨m', ev, hparse, hfind⟩ := parseRawData_spec h m
  refine ⟨m', ev, hparse, fun id => ?_⟩
  have hfind := hfind id
  cases hp : payloadFor id raw with
  | none =>
    rw [hp] at hfind
    rw [held_congr hfind]
    simp [carriedFor, hp]
  | some payload =>
    rw [hp] at hfind
    rw [held_of_find?_some hfind, held]
    simp [carriedFor, hp]

/-- **The bytes of an id over a call**: what the call returns and leaves is what
was held and what it brings. -/
theorem stepRecv_spec {op : RecvOp} (h : ∀ raw ∈ parsed [op], WellFormed raw)
    (m : MultiplexManager) : ∃ results m', stepRecv m op = .ok (results, m') ∧
      ∀ id, returnedFor id results ++ held m' id
        = held m id ++ carriedFor id (parsed [op]) := by
  cases op with
  | parse raw =>
    obtain ⟨m', ev, hparse, hheld⟩ := held_of_parseRawData (h raw (by simp [parsed, RecvOp.raw?])) m
    refine ⟨[], m', by rw [stepRecv, hparse]; rfl, fun id => ?_⟩
    exact hheld id
  | takeOut id' =>
    refine ⟨_, _, rfl, fun id => ?_⟩
    have hnone : carriedFor id (parsed [.takeOut id']) = [] := rfl
    rw [hnone, List.append_nil]
    by_cases hid : id' = id
    · subst hid
      rw [held_takeOutRecvInAdvance, List.append_nil]
      simp [returnedFor, snd_fst_takeOutRecvInAdvance]
    · rw [held_congr (find?_takeOutRecvInAdvance_of_ne m (Ne.symm hid))]
      simp [returnedFor, hid]

/-- A call leaves the ids alone that it does not concern. -/
theorem find?_stepRecv_of_not_concerns {m m' : MultiplexManager} {op : RecvOp}
    {results : List (UInt64 × Bytes)} (h : stepRecv m op = .ok (results, m')) {id : UInt64}
    (hid : ¬ op.Concerns id) : m'.readyRecv.find? id = m.readyRecv.find? id := by
  cases op with
  | parse raw =>
    have hnone : payloadFor id raw = none := Classical.not_not.mp hid
    by_cases ht : TakenAsPackage raw
    · have hne : id ≠ (MultiplexPackageMeta.ofBytes raw).id := by
        intro he
        rw [payloadFor, if_pos ⟨ht, he.symm⟩] at hnone
        exact absurd hnone (by simp)
      rw [stepRecv, parseRawData_of_taken ht] at h
      cases hread : readBuffer raw sizeofPackageMeta (sizeField raw) with
      | error e => rw [hread] at h; simp [Except.map] at h
      | ok payload =>
        rw [hread] at h
        simp only [Except.map, Except.ok.injEq, Prod.mk.injEq] at h
        rw [← h.2, find?_pushRecv, if_neg hne]
    · obtain ⟨ev, hparse⟩ := parseRawData_of_not_taken ht
      rw [stepRecv, hparse m] at h
      cases h
      rfl
  | takeOut id' =>
    cases h
    exact find?_takeOutRecvInAdvance_of_ne m fun he => hid he.symm

/-! ### Runs -/

/-- **The bytes of an id over a run.** -/
theorem runRecv_spec : ∀ {ops : List RecvOp} {m : MultiplexManager},
    (∀ raw ∈ parsed ops, WellFormed raw) → ∃ results m', runRecv m ops = .ok (results, m') ∧
      ∀ id, returnedFor id results ++ held m' id = held m id ++ carriedFor id (parsed ops) := by
  intro ops
  induction ops with
  | nil => intro m _; exact ⟨[], m, rfl, fun id => by simp [returnedFor, parsed, carriedFor]⟩
  | cons op ops ih =>
    intro m h
    rw [parsed_cons, List.forall_mem_append] at h
    obtain ⟨results, m₁, hstep, hfirst⟩ := stepRecv_spec h.1 m
    obtain ⟨rest, m', hrun, hrest⟩ := ih (m := m₁) h.2
    refine ⟨results ++ rest, m', by rw [runRecv, hstep]; simp [Except.bind, hrun, Except.map],
      fun id => ?_⟩
    calc returnedFor id (results ++ rest) ++ held m' id
        = returnedFor id results ++ (returnedFor id rest ++ held m' id) := by
          rw [returnedFor_append, List.append_assoc]
      _ = (returnedFor id results ++ held m₁ id) ++ carriedFor id (parsed ops) := by
          rw [hrest id, List.append_assoc]
      _ = held m id ++ carriedFor id (parsed (op :: ops)) := by
          rw [hfirst id, List.append_assoc, ← carriedFor_append, ← parsed_cons]

/-- **No byte is lost or returned twice**: in every run from a new manager whose
strings hold the payloads they declare, what was returned for an id and what is
still held for it are together what its data packages carried, in the order they
arrived, and a call changes the entries of those ids only that it concerns. -/
theorem reception_conserves {ops : List RecvOp} (h : ∀ raw ∈ parsed ops, WellFormed raw) :
    (∃ results m', runRecv .new ops = .ok (results, m') ∧
      ∀ id, returnedFor id results ++ (m'.readyRecv.getD id []).flatten
        = ((parsed ops).filterMap (payloadFor id)).flatten) ∧
    ∀ (m m' : MultiplexManager) (op : RecvOp) (results : List (UInt64 × Bytes)),
      stepRecv m op = .ok (results, m') →
        ∀ id, ¬ op.Concerns id → m'.readyRecv.find? id = m.readyRecv.find? id := by
  refine ⟨?_, fun m m' op results hstep id => find?_stepRecv_of_not_concerns hstep⟩
  obtain ⟨results, m', hrun, hheld⟩ := runRecv_spec (m := .new) h
  refine ⟨results, m', hrun, fun id => ?_⟩
  -- a new manager holds nothing
  exact hheld id

/-- A run that takes a task out between its two packages, with a package of
another id and a string with a foreign magic number among them. -/
def interleaved : List RecvOp :=
  [.parse (packageOf 7 .que0 [1, 2]), .parse (packageOf 9 .que1 [5]), .takeOut 7,
    .parse (blank 40), .parse (packageOf 7 .que0 [3]), .takeOut 8, .takeOut 7, .takeOut 7]

theorem reception_conserves_interleaved :
    ∃ results m', runRecv .new interleaved = .ok (results, m') ∧
      returnedFor 7 results ++ (m'.readyRecv.getD 7 []).flatten = [1, 2, 3] := by
  have hwell : ∀ raw ∈ parsed interleaved, WellFormed raw := by decide +kernel
  obtain ⟨results, m', hrun, hheld⟩ := (reception_conserves hwell).1
  exact ⟨results, m', hrun, (hheld 7).trans (by decide +kernel)⟩

/-! ### Two runs -/

/-- The strings that add to the deque of an id: the data packages that carry it. -/
def PackageFor (id : UInt64) (raw : Bytes) : Prop :=
  TakenAsPackage raw ∧ (MultiplexPackageMeta.ofBytes raw).id = id

instance (id : UInt64) : DecidablePred (PackageFor id) :=
  fun _ => inferInstanceAs (Decidable (_ ∧ _))

/-- The payloads for an id are those of its packages. -/
theorem filterMap_payloadFor (id : UInt64) (raws : List Bytes) :
    raws.filterMap (payloadFor id)
      = (raws.filter fun raw => PackageFor id raw).map fun raw =>
          slice sizeofPackageMeta (sizeField raw) raw := by
  induction raws with
  | nil => rfl
  | cons raw raws ih =>
    by_cases hp : PackageFor id raw
    · have hsome : payloadFor id raw = some (slice sizeofPackageMeta (sizeField raw) raw) :=
        if_pos hp
      rw [List.filterMap_cons_some hsome, ih, List.filter_cons_of_pos (by simpa using hp),
        List.map_cons]
    · have hnone : payloadFor id raw = none := if_neg hp
      rw [List.filterMap_cons_none hnone, ih, List.filter_cons_of_neg (by simpa using hp)]

/-- A package that holds its payload is one of its own id and of no other. -/
theorem packageFor_packageOf_iff (id : UInt64) (queueNo : QueueNum) (payload : Bytes)
    (h : TakenAsPackage (packageOf id queueNo payload)) (id' : UInt64) :
    PackageFor id' (packageOf id queueNo payload) ↔ id = id' := by
  rw [PackageFor, packageOf, MultiplexPackageMeta.ofBytes_toBytes_append]
  exact and_iff_right h

/-- What taking out returns depends on the entry of the id only. -/
theorem fst_takeOutRecvInAdvance_congr {m m' : MultiplexManager} {id : UInt64}
    (h : m'.readyRecv.find? id = m.readyRecv.find? id) :
    (takeOutRecvInAdvance m' id).1 = (takeOutRecvInAdvance m id).1 := by
  cases hfind : m.readyRecv.find? id with
  | none =>
    rw [fst_takeOutRecvInAdvance_of_none hfind, fst_takeOutRecvInAdvance_of_none (h.trans hfind)]
  | some que =>
    rw [fst_takeOutRecvInAdvance_of_some hfind, fst_takeOutRecvInAdvance_of_some (h.trans hfind)]

/-- **The order of strings of different ids, and all other strings, make no
difference**: two sequences of strings that have the same packages for each id,
in the same order, lead a receiver to states in which taking out returns the
same for every id. -/
theorem reception_indifferent {raws raws' : List Bytes} (m : MultiplexManager)
    (h : ∀ raw ∈ raws, WellFormed raw) (h' : ∀ raw ∈ raws', WellFormed raw)
    (hsame : ∀ id, (raws.filter fun raw => PackageFor id raw)
      = raws'.filter fun raw => PackageFor id raw) :
    ∃ m₁ m₂, receiveAll m raws = .ok m₁ ∧ receiveAll m raws' = .ok m₂ ∧
      ∀ id, (takeOutRecvInAdvance m₁ id).1 = (takeOutRecvInAdvance m₂ id).1 := by
  obtain ⟨m₁, hrun, hfind⟩ := receiveAll_spec (m := m) h
  obtain ⟨m₂, hrun', hfind'⟩ := receiveAll_spec (m := m) h'
  refine ⟨m₁, m₂, hrun, hrun', fun id => fst_takeOutRecvInAdvance_congr ?_⟩
  rw [hfind id, hfind' id, filterMap_payloadFor, filterMap_payloadFor, hsame id]

/-- The packages of two tasks with a foreign string in between, in one order and
in the other. -/
theorem reception_indifferent_swapped :
    ∃ m₁ m₂, receiveAll .new [packageOf 7 .que0 [1, 2], packageOf 9 .que1 [5]] = .ok m₁ ∧
      receiveAll .new [packageOf 9 .que1 [5], blank 40, packageOf 7 .que0 [1, 2]] = .ok m₂ ∧
      ∀ id, (takeOutRecvInAdvance m₁ id).1 = (takeOutRecvInAdvance m₂ id).1 := by
  refine reception_indifferent .new (by decide +kernel) (by decide +kernel) fun id => ?_
  have hseven := packageFor_packageOf_iff 7 .que0 [1, 2] (by decide +kernel) id
  have hnine := packageFor_packageOf_iff 9 .que1 [5] (by decide +kernel) id
  have hblank : ¬ PackageFor id (blank 40) := fun h => absurd h.1 (by decide +kernel)
  by_cases hid : id = 7
  · subst hid
    simp [hseven, hnine, hblank]
  · by_cases hid' : id = 9
    · subst hid'
      simp [hseven, hnine, hblank]
    · simp [hseven, hnine, hblank, Ne.symm hid, Ne.symm hid']

end AndrenBoost.Multiplex
