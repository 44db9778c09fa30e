import AndrenBoost.Lib.Observation
import AndrenBoost.Multiplex.Reception
import Mathlib.Data.List.DropRight

/-!
# What taking out leaves behind

Taking out should leave an id as if its packages had never come.  The deque is moved
out of its entry, but the entry stays, and it is the entry that decides what the next
call reports.  To a call each entry is a machine of its own: it is absent, or holds
the payloads that have come since the last call that took them out.

## Main definitions

* `RecvOp.act` — what a call does to the entry of an id.
* `answerRecv` — a call, with all that it tells the user.
* `sinceTakeOut`, `beforeTakeOut` — a run, cut behind its last call for an id.
* `Clears` — the flag is right, and nothing is left.

## Main results

* `find?_runRecv` — the entries after a run.
* `indistinguishable_of_find?_eq` — the entries are all that calls can tell.
* `clears_iff` — **when taking out clears the task.**
-/

namespace AndrenBoost.Multiplex

open Observation

/-! ### One entry -/

/-- The bytes that are stored of a data package, the string's terminator among them
if its size asks for it. -/
def storedPayload (raw : Bytes) : Bytes := slice sizeofPackageMeta (sizeField raw) (raw ++ [0])

/-- What a call does to the entry of an id. -/
def RecvOp.act (id : UInt64) : RecvOp → Option (List Bytes) → Option (List Bytes)
  | .parse raw, e => if PackageFor id raw then some (e.getD [] ++ [storedPayload raw]) else e
  | .takeOut id', e => if id' = id then e.map fun _ => [] else e

theorem readBuffer_eq_of_ok {raw payload : Bytes}
    (h : readBuffer raw sizeofPackageMeta (sizeField raw) = .ok payload) :
    payload = storedPayload raw := by
  rw [readBuffer] at h
  split_ifs at h
  cases h
  rfl

theorem find?_takeOutRecvInAdvance (m : MultiplexManager) (id id' : UInt64) :
    (takeOutRecvInAdvance m id').2.readyRecv.find? id
      = if id' = id then (m.readyRecv.find? id).map fun _ => [] else m.readyRecv.find? id := by
  split_ifs with h
  · subst h
    cases hfind : m.readyRecv.find? id' with
    | none =>
      simp only [takeOutRecvInAdvance, hfind]
      rfl
    | some que =>
      simp only [takeOutRecvInAdvance, hfind]
      rw [SortedMap.find?_set, if_pos rfl]
      rfl
  · exact find?_takeOutRecvInAdvance_of_ne m (Ne.symm h)

/-- The entries after a call. -/
theorem find?_stepRecv {m m' : MultiplexManager} {op : RecvOp} {results : List (UInt64 × Bytes)}
    (h : stepRecv m op = .ok (results, m')) (id : UInt64) :
    m'.readyRecv.find? id = op.act id (m.readyRecv.find? id) := by
  cases op with
  | parse raw =>
    rw [stepRecv] at h
    by_cases ht : TakenAsPackage raw
    · rw [parseRawData_of_taken ht] at h
      cases hread : readBuffer raw sizeofPackageMeta (sizeField raw) with
      | error e => rw [hread] at h; simp [Except.map] at h
      | ok payload =>
        rw [hread] at h
        simp only [Except.map, Except.ok.injEq, Prod.mk.injEq] at h
        rw [← h.2, find?_pushRecv, RecvOp.act, readBuffer_eq_of_ok hread]
        by_cases hid : id = (MultiplexPackageMeta.ofBytes raw).id
        · rw [if_pos hid, if_pos ⟨ht, hid.symm⟩, SortedMap.getD, hid]
        · rw [if_neg hid, if_neg fun hc => hid hc.2.symm]
    · obtain ⟨ev, hparse⟩ := parseRawData_of_not_taken ht
      rw [hparse m] at h
      cases h
      rw [RecvOp.act, if_neg fun hc => ht hc.1]
  | takeOut id' =>
    cases h
    exact find?_takeOutRecvInAdvance m id id'

/-- Whether a call fails does not depend on the state. -/
theorem exists_stepRecv {m : MultiplexManager} {op : RecvOp}
    {x : List (UInt64 × Bytes) × MultiplexManager} (h : stepRecv m op = .ok x)
    (t : MultiplexManager) : ∃ y, stepRecv t op = .ok y := by
  cases op with
  | parse raw =>
    rw [stepRecv] at h ⊢
    by_cases ht : TakenAsPackage raw
    · rw [parseRawData_of_taken ht] at h ⊢
      cases hread : readBuffer raw sizeofPackageMeta (sizeField raw) with
      | error e => rw [hread] at h; simp [Except.map] at h
      | ok payload => exact ⟨_, rfl⟩
    · obtain ⟨ev, hparse⟩ := parseRawData_of_not_taken ht
      exact ⟨_, by rw [hparse t]; rfl⟩
  | takeOut id' => exact ⟨_, rfl⟩

/-! ### Runs -/

/-- What a run does to the entry of an id. -/
def actAll (id : UInt64) (ops : List RecvOp) (e : Option (List Bytes)) : Option (List Bytes) :=
  ops.foldl (fun e op => op.act id e) e

theorem runRecv_cons_ok {m m' : MultiplexManager} {op : RecvOp} {ops : List RecvOp}
    {results : List (UInt64 × Bytes)} (h : runRecv m (op :: ops) = .ok (results, m')) :
    ∃ first m₁ rest, stepRecv m op = .ok (first, m₁) ∧ runRecv m₁ ops = .ok (rest, m') := by
  rw [runRecv] at h
  cases hstep : stepRecv m op with
  | error e => rw [hstep] at h; simp [Except.bind] at h
  | ok r =>
    rw [hstep] at h
    cases hrun : runRecv r.2 ops with
    | error e => simp [Except.bind, hrun, Except.map] at h
    | ok rest =>
      simp only [Except.bind, hrun, Except.map, Except.ok.injEq, Prod.mk.injEq] at h
      exact ⟨r.1, r.2, rest.1, rfl, by rw [hrun, ← h.2]⟩

/-- The entries after a run. -/
theorem find?_runRecv : ∀ {ops : List RecvOp} {m m' : MultiplexManager}
    {results : List (UInt64 × Bytes)}, runRecv m ops = .ok (results, m') → ∀ id,
      m'.readyRecv.find? id = actAll id ops (m.readyRecv.find? id) := by
  intro ops
  induction ops with
  | nil => intro m m' results h id; cases h; rfl
  | cons op ops ih =>
    intro m m' results h id
    obtain ⟨first, m₁, rest, hstep, hrun⟩ := runRecv_cons_ok h
    rw [ih hrun id, find?_stepRecv hstep id]
    rfl

/-- Calls that do not fail in a run do not fail in another. -/
theorem exists_runRecv : ∀ {ops ops' : List RecvOp} {m t m' : MultiplexManager}
    {results : List (UInt64 × Bytes)}, runRecv m ops = .ok (results, m') → ops'.Sublist ops →
      ∃ results' t', runRecv t ops' = .ok (results', t') := by
  intro ops ops' m t m' results h hsub
  induction hsub generalizing m t m' results with
  | slnil => exact ⟨[], t, rfl⟩
  | cons op _ ih =>
    obtain ⟨first, m₁, rest, -, hrun⟩ := runRecv_cons_ok h
    exact ih hrun
  | cons_cons op _ ih =>
    obtain ⟨first, m₁, rest, hstep, hrun⟩ := runRecv_cons_ok h
    obtain ⟨y, hy⟩ := exists_stepRecv hstep t
    obtain ⟨rest', t', hrun'⟩ := ih (t := y.2) hrun
    refine ⟨y.1 ++ rest', t', ?_⟩
    rw [runRecv, hy]
    simp [Except.bind, hrun', Except.map]

/-- The run has stored a package of the id. -/
def Stored (id : UInt64) (ops : List RecvOp) : Prop := ∃ raw ∈ parsed ops, PackageFor id raw

instance (id : UInt64) : DecidablePred (Stored id) :=
  fun _ => inferInstanceAs (Decidable (∃ _ ∈ _, _))

theorem stored_append {id : UInt64} {ops ops' : List RecvOp} :
    Stored id (ops ++ ops') ↔ Stored id ops ∨ Stored id ops' := by
  simp only [Stored, parsed, List.filterMap_append, List.mem_append, or_and_right, exists_or]

theorem stored_cons {id : UInt64} {op : RecvOp} {ops : List RecvOp} :
    Stored id (op :: ops) ↔ Stored id [op] ∨ Stored id ops := by
  rw [← stored_append, List.singleton_append]

/-- An entry is absent until a package of the id is stored. -/
theorem actAll_eq_none_iff {id : UInt64} : ∀ {ops : List RecvOp} {e : Option (List Bytes)},
    actAll id ops e = none ↔ e = none ∧ ¬ Stored id ops := by
  intro ops
  induction ops with
  | nil => intro e; simp [actAll, Stored, parsed]
  | cons op ops ih =>
    intro e
    have hone : op.act id e = none ↔ e = none ∧ ¬ Stored id [op] := by
      cases op with
      | parse raw =>
        rw [RecvOp.act]
        split_ifs with hp <;> simp [Stored, parsed, RecvOp.raw?, hp]
      | takeOut id' =>
        rw [RecvOp.act]
        split_ifs <;> simp [Stored, parsed, RecvOp.raw?]
    show actAll id ops (op.act id e) = none ↔ _
    rw [ih, hone, @stored_cons id op ops, not_or, and_assoc]

/-- A run that neither stores a package of the id nor takes out for it leaves its
entry alone. -/
theorem actAll_of_not_stored {id : UInt64} : ∀ {ops : List RecvOp} (e : Option (List Bytes)),
    (∀ op ∈ ops, op ≠ .takeOut id) → ¬ Stored id ops → actAll id ops e = e := by
  intro ops
  induction ops with
  | nil => intro e _ _; rfl
  | cons op ops ih =>
    intro e htake hstored
    rw [List.forall_mem_cons] at htake
    rw [@stored_cons id op ops, not_or] at hstored
    have hop : op.act id e = e := by
      cases op with
      | parse raw =>
        exact if_neg fun hp => hstored.1 ⟨raw, by simp [parsed, RecvOp.raw?], hp⟩
      | takeOut id' => exact if_neg fun h => htake.1 (by rw [h])
    show actAll id ops (op.act id e) = e
    rw [hop]
    exact ih e htake.2 hstored.2

/-! ### What calls can tell -/

/-- What a call on the receiving side tells the user. -/
inductive Answer
  /-- The callback of `parse_raw_data`, if it made one. -/
  | parsed (event : Option Event)
  /-- The two results of `take_out_recv_in_advance`. -/
  | taken (found : Bool) (data : Bytes)

/-- One call, with all that it tells the user. -/
def answerRecv (m : MultiplexManager) : RecvOp → Except Fault (Answer × MultiplexManager)
  | .parse raw => (parseRawData m raw).map fun r => (.parsed r.2, r.1)
  | .takeOut id =>
      let r := takeOutRecvInAdvance m id
      .ok (.taken r.1.1 r.1.2, r.2)

/-- The two receivers have the same entries. -/
def SameEntries (s t : MultiplexManager) : Prop :=
  ∀ id, s.readyRecv.find? id = t.readyRecv.find? id

theorem alike_answerRecv (s t : MultiplexManager) (op : RecvOp) (h : SameEntries s t) :
    Alike SameEntries (answerRecv s op) (answerRecv t op) := by
  cases op with
  | parse raw =>
    rw [answerRecv, answerRecv]
    by_cases ht : TakenAsPackage raw
    · rw [parseRawData_of_taken ht, parseRawData_of_taken ht]
      cases readBuffer raw sizeofPackageMeta (sizeField raw) with
      | error e => exact .error e
      | ok payload =>
        refine .ok _ fun id => ?_
        rw [find?_pushRecv, find?_pushRecv, SortedMap.getD, SortedMap.getD, h, h]
    · obtain ⟨ev, hparse⟩ := parseRawData_of_not_taken ht
      rw [hparse, hparse]
      exact .ok _ h
  | takeOut id' =>
    rw [answerRecv, answerRecv, fst_takeOutRecvInAdvance_congr (h id').symm]
    refine .ok _ fun id => ?_
    rw [find?_takeOutRecvInAdvance, find?_takeOutRecvInAdvance, h]

/-- The entries are all that calls can tell. -/
theorem indistinguishable_of_find?_eq {s t : MultiplexManager} (h : SameEntries s t) :
    Indistinguishable answerRecv s t :=
  indistinguishable_of_alike alike_answerRecv h

/-- Taking out reports whether there is an entry. -/
theorem takeOut_found_iff {m : MultiplexManager} {id : UInt64} :
    (takeOutRecvInAdvance m id).1.1 = true ↔ m.readyRecv.find? id ≠ none := by
  cases hfind : m.readyRecv.find? id with
  | none => simp [fst_takeOutRecvInAdvance_of_none hfind]
  | some que => simp [fst_takeOutRecvInAdvance_of_some hfind]

/-- Calls can tell whether there is an entry. -/
theorem find?_eq_none_iff_of_indistinguishable {s t : MultiplexManager}
    (h : Indistinguishable answerRecv s t) (id : UInt64) :
    s.readyRecv.find? id = none ↔ t.readyRecv.find? id = none := by
  have hanswer := h.fst_eq (show answerRecv s (.takeOut id) = .ok _ from rfl)
    (show answerRecv t (.takeOut id) = .ok _ from rfl)
  have hfound : (takeOutRecvInAdvance s id).1.1 = (takeOutRecvInAdvance t id).1.1 :=
    (Answer.taken.inj hanswer).1
  rw [← not_iff_not, ← ne_eq, ← ne_eq, ← takeOut_found_iff, ← takeOut_found_iff, hfound]

/-! ### Since the previous call -/

/-- The call takes out for the id. -/
def isTakeOut (id : UInt64) : RecvOp → Bool
  | .parse _ => false
  | .takeOut id' => id' = id

/-- The calls behind the last one that takes out for the id. -/
def sinceTakeOut (id : UInt64) (ops : List RecvOp) : List RecvOp :=
  ops.rtakeWhile fun op => !isTakeOut id op

/-- The calls up to the last one that takes out for the id. -/
def beforeTakeOut (id : UInt64) (ops : List RecvOp) : List RecvOp :=
  ops.rdropWhile fun op => !isTakeOut id op

theorem beforeTakeOut_append (id : UInt64) (ops : List RecvOp) :
    beforeTakeOut id ops ++ sinceTakeOut id ops = ops := List.rdropWhile_append_rtakeWhile

theorem ne_takeOut_of_mem_sinceTakeOut {id : UInt64} {ops : List RecvOp} :
    ∀ op ∈ sinceTakeOut id ops, op ≠ .takeOut id := by
  rintro op hop rfl
  have hnot := List.mem_rtakeWhile_imp hop
  simp [isTakeOut] at hnot

theorem beforeTakeOut_cases (id : UInt64) (ops : List RecvOp) :
    beforeTakeOut id ops = [] ∨ ∃ pre, beforeTakeOut id ops = pre ++ [.takeOut id] := by
  by_cases hnil : beforeTakeOut id ops = []
  · exact Or.inl hnil
  · refine Or.inr ⟨(beforeTakeOut id ops).dropLast, ?_⟩
    have hlast : ¬ (!isTakeOut id ((beforeTakeOut id ops).getLast hnil)) = true :=
      List.rdropWhile_last_not _ ops hnil
    have heq : (beforeTakeOut id ops).getLast hnil = .takeOut id := by
      generalize (beforeTakeOut id ops).getLast hnil = op at hlast ⊢
      cases op with
      | parse raw => simp [isTakeOut] at hlast
      | takeOut id' => simpa [isTakeOut] using hlast
    rw [← heq, List.dropLast_append_getLast]

/-- The calls without those that store a package of the id. -/
def withoutPackages (id : UInt64) (ops : List RecvOp) : List RecvOp :=
  ops.filter fun op => ¬ Stored id [op]

theorem not_stored_withoutPackages (id : UInt64) (ops : List RecvOp) :
    ¬ Stored id (withoutPackages id ops) := by
  rintro ⟨raw, hraw, hp⟩
  obtain ⟨op, hop, heq⟩ := List.mem_filterMap.mp hraw
  have hnot : ¬ Stored id [op] := by simpa using (List.mem_filter.mp hop).2
  exact hnot ⟨raw, by simp [parsed, heq], hp⟩

/-- Without them the entries of the other ids are the same. -/
theorem actAll_withoutPackages {id id' : UInt64} (hne : id' ≠ id) :
    ∀ (ops : List RecvOp) (e : Option (List Bytes)),
      actAll id' (withoutPackages id ops) e = actAll id' ops e := by
  intro ops
  induction ops with
  | nil => intro e; rfl
  | cons op ops ih =>
    intro e
    rw [withoutPackages] at ih ⊢
    by_cases hstored : Stored id [op]
    · -- a package of one id is none of another
      have hop : op.act id' e = e := by
        obtain ⟨raw, hraw, hp⟩ := hstored
        cases op with
        | parse raw' =>
          obtain rfl : raw = raw' := by simpa [parsed, RecvOp.raw?] using hraw
          exact if_neg fun hp' => hne (hp'.2.symm.trans hp.2)
        | takeOut id'' => simp [parsed, RecvOp.raw?] at hraw
      rw [List.filter_cons_of_neg (by simpa using hstored), ih]
      show actAll id' ops e = actAll id' ops (op.act id' e)
      rw [hop]
    · rw [List.filter_cons_of_pos (by simpa using hstored)]
      exact ih _

/-- Behind a call that takes out for it, an id has no entry or an empty one. -/
theorem actAll_beforeTakeOut (id : UInt64) (ops : List RecvOp) :
    actAll id (beforeTakeOut id ops) none
      = if Stored id (beforeTakeOut id ops) then some [] else none := by
  have hnone := @actAll_eq_none_iff id (beforeTakeOut id ops) none
  split_ifs with hstored
  · rcases beforeTakeOut_cases id ops with hnil | ⟨pre, hpre⟩
    · rw [hnil] at hstored
      obtain ⟨raw, hraw, -⟩ := hstored
      exact absurd hraw List.not_mem_nil
    · rw [hpre] at hnone hstored ⊢
      have hlast : actAll id (pre ++ [.takeOut id]) none
          = (actAll id pre none).map fun _ => [] := by
        rw [actAll, List.foldl_append]
        exact if_pos rfl
      rw [hlast] at hnone ⊢
      cases hpart : actAll id pre none with
      | none =>
        rw [hpart] at hnone
        exact absurd hstored (hnone.mp rfl).2
      | some que => rfl
  · exact hnone.mpr ⟨rfl, hstored⟩

/-! ### Taking out clears the task -/

/-- Taking out for the id after the calls reports whether a package of it was stored
since the previous time, and then calls cannot tell the receiver from one that did not
get these packages. -/
structure Clears (ops : List RecvOp) (id : UInt64) (m : MultiplexManager) : Prop where
  flag : (takeOutRecvInAdvance m id).1.1 = true ↔ Stored id (sinceTakeOut id ops)
  cleared : ∃ results m₀,
    runRecv .new (beforeTakeOut id ops ++ withoutPackages id (sinceTakeOut id ops))
        = .ok (results, m₀)
      ∧ Indistinguishable answerRecv (takeOutRecvInAdvance m id).2 m₀

section Clears

variable {ops : List RecvOp} {id : UInt64} {m m₀ : MultiplexManager}
  {results results₀ : List (UInt64 × Bytes)}

/-- The entry that taking out leaves. -/
theorem find?_after (hrun : runRecv .new ops = .ok (results, m)) :
    (takeOutRecvInAdvance m id).2.readyRecv.find? id
      = if Stored id ops then some [] else none := by
  have hnone : actAll id ops none = none ↔ ¬ Stored id ops :=
    actAll_eq_none_iff.trans (and_iff_right rfl)
  rw [find?_takeOutRecvInAdvance, if_pos rfl, find?_runRecv hrun]
  show (actAll id ops none).map _ = _
  split_ifs with hstored
  · cases hentry : actAll id ops none with
    | none => exact absurd hstored (hnone.mp hentry)
    | some que => rfl
  · rw [hnone.mpr hstored]
    rfl

/-- The entry where the packages did not come. -/
theorem find?_without
    (hrun₀ : runRecv .new (beforeTakeOut id ops ++ withoutPackages id (sinceTakeOut id ops))
      = .ok (results₀, m₀)) :
    m₀.readyRecv.find? id = if Stored id (beforeTakeOut id ops) then some [] else none := by
  have hsplit : actAll id (beforeTakeOut id ops ++ withoutPackages id (sinceTakeOut id ops)) none
      = actAll id (withoutPackages id (sinceTakeOut id ops))
        (actAll id (beforeTakeOut id ops) none) := List.foldl_append
  rw [find?_runRecv hrun₀]
  show actAll id _ none = _
  rw [hsplit, actAll_beforeTakeOut, actAll_of_not_stored _ _ (not_stored_withoutPackages id _)]
  intro op hop
  exact ne_takeOut_of_mem_sinceTakeOut op (List.mem_of_mem_filter hop)

/-- The entries of the other ids. -/
theorem find?_without_of_ne (hrun : runRecv .new ops = .ok (results, m))
    (hrun₀ : runRecv .new (beforeTakeOut id ops ++ withoutPackages id (sinceTakeOut id ops))
      = .ok (results₀, m₀)) {id' : UInt64} (hne : id' ≠ id) :
    m₀.readyRecv.find? id' = m.readyRecv.find? id' := by
  have happ : ∀ l l' : List RecvOp, ∀ e, actAll id' (l ++ l') e = actAll id' l' (actAll id' l e) :=
    fun l l' e => List.foldl_append
  rw [find?_runRecv hrun₀, find?_runRecv hrun, happ, actAll_withoutPackages hne, ← happ,
    beforeTakeOut_append]

theorem stored_iff (id : UInt64) (ops : List RecvOp) : Stored id ops
    ↔ Stored id (beforeTakeOut id ops) ∨ Stored id (sinceTakeOut id ops) := by
  rw [← stored_append, beforeTakeOut_append]

/-- **When taking out clears the task.**  After any calls on a new receiver: packages
of the id were stored since the previous time exactly if some were stored before it. -/
theorem clears_iff (hrun : runRecv .new ops = .ok (results, m)) (id : UInt64) :
    Clears ops id m
      ↔ (Stored id (sinceTakeOut id ops) ↔ Stored id (beforeTakeOut id ops)) := by
  have hsub : (beforeTakeOut id ops ++ withoutPackages id (sinceTakeOut id ops)).Sublist ops := by
    conv_rhs => rw [← beforeTakeOut_append id ops]
    exact List.Sublist.append (List.Sublist.refl _) List.filter_sublist
  have hflag : (takeOutRecvInAdvance m id).1.1 = true ↔ Stored id ops := by
    have hentry : m.readyRecv.find? id = none ↔ ¬ Stored id ops := by
      rw [find?_runRecv hrun, actAll_eq_none_iff]
      exact and_iff_right rfl
    rw [takeOut_found_iff, ne_eq, hentry, Classical.not_not]
  have hafter : (takeOutRecvInAdvance m id).2.readyRecv.find? id
      = if Stored id ops then some [] else none := find?_after hrun
  constructor
  · rintro ⟨hreported, results₀, m₀, hrun₀, hind⟩
    have hnone := find?_eq_none_iff_of_indistinguishable hind id
    rw [hafter, find?_without hrun₀] at hnone
    rw [hflag, stored_iff] at hreported
    constructor
    · intro hsince
      by_contra hbefore
      -- the entry is there, and would not be
      rw [if_pos ((stored_iff id ops).mpr (Or.inr hsince)), if_neg hbefore] at hnone
      exact absurd (hnone.mpr rfl) (by simp)
    · exact fun hbefore => hreported.mp (Or.inl hbefore)
  · intro hboth
    have hall : Stored id ops ↔ Stored id (beforeTakeOut id ops) := by
      rw [stored_iff, hboth, or_self]
    obtain ⟨results₀, m₀, hrun₀⟩ := exists_runRecv (t := .new) hrun hsub
    refine ⟨by rw [hflag, hall, hboth], results₀, m₀, hrun₀,
      indistinguishable_of_find?_eq fun id' => ?_⟩
    by_cases hid : id' = id
    · subst hid
      rw [hafter, find?_without hrun₀]
      simp only [hall]
    · rw [find?_takeOutRecvInAdvance, if_neg (Ne.symm hid), find?_without_of_ne hrun hrun₀ hid]

end Clears

/-- A task is received, taken out, and received again. -/
def received : List RecvOp :=
  [.parse (packageOf 7 .que0 [1, 2]), .takeOut 7, .parse (packageOf 7 .que0 [3])]

theorem clears_received :
    ∃ results m, runRecv .new received = .ok (results, m) ∧ Clears received 7 m := by
  have hwell : ∀ raw ∈ parsed received, WellFormed raw := by decide +kernel
  obtain ⟨results, m, hrun, -⟩ := runRecv_spec (m := .new) hwell
  refine ⟨results, m, hrun, (clears_iff hrun 7).mpr ?_⟩
  decide +kernel

/-- Between the first call and the second no package of the task has come. -/
def takenTwice : List RecvOp := [.parse (packageOf 7 .que0 [1, 2]), .takeOut 7]

/-- The second call reports it all the same, without data. -/
theorem takenTwice_reported :
    ∃ results m, runRecv .new takenTwice = .ok (results, m)
      ∧ (takeOutRecvInAdvance m 7).1 = (true, []) ∧ ¬ Stored 7 (sinceTakeOut 7 takenTwice)
      ∧ ¬ Clears takenTwice 7 m := by
  have hstored : ¬ Stored 7 (sinceTakeOut 7 takenTwice) := by decide +kernel
  have hresult : ((runRecv .new takenTwice).map fun r => (takeOutRecvInAdvance r.2 7).1)
      = .ok (true, []) := by decide +kernel
  cases hrun : runRecv .new takenTwice with
  | error e =>
    rw [hrun] at hresult
    cases hresult
  | ok r =>
    rw [hrun] at hresult
    have htaken : (takeOutRecvInAdvance r.2 7).1 = (true, []) := Except.ok.inj hresult
    refine ⟨r.1, r.2, rfl, htaken, hstored, fun hclears => hstored (hclears.flag.mp ?_)⟩
    rw [htaken]

end AndrenBoost.Multiplex
