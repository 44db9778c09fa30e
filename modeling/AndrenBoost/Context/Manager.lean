import AndrenBoost.Lib.Bytes
import AndrenBoost.Lib.Component
import AndrenBoost.Lib.SortedMap
import Mathlib.Logic.Function.Basic

/-!
# Managers of I/O contexts

A manager keeps contexts, each with its thread, under uids.  It has no lock, so one
thread makes all calls on it, its caller, which may have several managers.  The uids
come from one counter of the whole process, an atomic that all callers share; and the
callbacks that the calls take may call again.

A call is cut into what it does between the counter, its manager and its callback:
`create_and_then` draws a uid, then inserts and starts the context and calls back;
`stop_and_before` looks the uid up and calls back, then stops what the iterator
points to, where a join throws that its own thread makes.  A run is any order of these
sections in which every caller keeps to its calls, callbacks within calls included.

## Main definitions

* `IoCtxPair`, `CoIoContextManager` — a context with its thread, and a manager.
* `Event`, `step` — the sections of the calls on managers `M` by their callers.
* `State.Valid` — what keeps a call from going wrong.
* `Issued` — every uid below the counter has at most one owner.

## Main results

* `context_kept` — **what is created under a uid stays under it,** as long as the
  counter has not come round.
* `replaced_iff` — **then, and not before, contexts are replaced.**

## References

`src/boost_tcp_udp/co_io_context_manager.cc` and `src/uid_creator.cpp`.
-/

namespace AndrenBoost.Context

/-- Why a section cannot be taken. -/
inductive Stuck
  /-- It is not this section's turn. -/
  | order
  /-- The iterator points to nothing. -/
  | dangling
  /-- A thread joins itself. -/
  | ownThread

/-- A context, its thread and its uid.  The object `io_ctx_` is told by the number of
those made before it. -/
structure IoCtxPair (T : Type*) where
  io_ctx_ : ℕ
  flag_exit_ : ℤ
  uid_ : UInt64
  /-- The thread, while it is joinable. -/
  thread_ : Option T
  deriving DecidableEq

namespace IoCtxPair

variable {T : Type*}

/-- The constructor. -/
def make (io_ctx_ : ℕ) (uid : UInt64) : IoCtxPair T := ⟨io_ctx_, 0, uid, none⟩

/-- The new thread is the one given. -/
def start (pair : IoCtxPair T) (thread : T) : IoCtxPair T :=
  { pair with flag_exit_ := 0, thread_ := some thread }

/-- A thread that is joinable is joined, by the caller. -/
def stop [DecidableEq T] (pair : IoCtxPair T) (caller : T) : Except Stuck (IoCtxPair T) :=
  let pair := { pair with flag_exit_ := 1 }
  if pair.thread_ = some caller then .error .ownThread else .ok { pair with thread_ := none }

end IoCtxPair

/-- `m_io_ctx_pairs`. -/
abbrev CoIoContextManager (T : Type*) := SortedMap UInt64 (IoCtxPair T)

/-- `find_io_context_by_uid`, which takes the uid as a signed number. -/
def CoIoContextManager.findIoContextByUid {T : Type*} (manager : CoIoContextManager T)
    (uid : Int64) : Option ℕ :=
  (manager.find? uid.toUInt64).map IoCtxPair.io_ctx_

theorem findIoContextByUid_toInt64 {T : Type*} (manager : CoIoContextManager T) (uid : UInt64) :
    manager.findIoContextByUid uid.toInt64 = (manager.find? uid).map IoCtxPair.io_ctx_ := by
  rw [CoIoContextManager.findIoContextByUid, UInt64.toUInt64_toInt64]

/-- The sections of the calls on a manager. -/
inductive Event (T M : Type*)
  /-- `create_and_then` draws its uid with `create_uid_u64`. -/
  | createUid (m : M) (uid : UInt64)
  /-- It makes the context, inserts it and starts it on a new thread; the callback
  follows. -/
  | insert (m : M) (uid : UInt64) (thread : T)
  /-- `stop_and_before` looks the uid up; the callback follows, or it returns. -/
  | find (m : M) (uid : UInt64) (found : Bool)
  /-- The callback of `stop_and_before` has ended, and the context is stopped. -/
  | stop (m : M) (uid : UInt64)
  deriving DecidableEq

/-- The counter, the managers, and where the threads are in their calls. -/
structure State (T M : Type*) where
  /-- `uid` of `create_uid_u64`. -/
  uid : UInt64
  /-- The number of contexts made. -/
  made : ℕ
  managers : M → CoIoContextManager T
  /-- The uid that was drawn and is not inserted yet. -/
  creating : T → Option (M × UInt64)
  /-- The iterators of the calls of `stop_and_before`, the innermost first. -/
  stopping : T → List (M × UInt64)

/-- At the start there is nothing. -/
def start (T M : Type*) : State T M := ⟨0, 0, fun _ => .empty, fun _ => none, fun _ => []⟩

variable {T M : Type*} [DecidableEq T] [DecidableEq M]

/-- One section, on the thread that calls the manager. -/
def step (caller : M → T) (s : State T M) : Event T M → Except Stuck (State T M)
  | .createUid m uid =>
    if s.creating (caller m) = none ∧ s.uid = uid then
      .ok { s with
        uid := s.uid + 1
        creating := Function.update s.creating (caller m) (some (m, uid)) }
    else .error .order
  | .insert m uid thread =>
    -- a thread that is started is not the one that starts it
    if s.creating (caller m) = some (m, uid) ∧ thread ≠ caller m then
      .ok { s with
        made := s.made + 1
        managers := Function.update s.managers m
          ((s.managers m).set uid ((IoCtxPair.make s.made uid).start thread))
        creating := Function.update s.creating (caller m) none }
    else .error .order
  | .find m uid found =>
    if s.creating (caller m) = none ∧ ((s.managers m).find? uid).isSome = found then
      .ok (if found then
        { s with
          stopping := Function.update s.stopping (caller m)
            ((m, uid) :: s.stopping (caller m)) }
      else s)
    else .error .order
  | .stop m uid =>
    if s.creating (caller m) = none ∧ (s.stopping (caller m)).head? = some (m, uid) then
      match (s.managers m).find? uid with
      | none => .error .dangling
      | some pair =>
        (pair.stop (caller m)).map fun pair =>
          { s with
            managers := Function.update s.managers m ((s.managers m).set uid pair)
            stopping := Function.update s.stopping (caller m) (s.stopping (caller m)).tail }
    else .error .order

/-- The sections, one after another. -/
abbrev run (caller : M → T) (s : State T M) (events : List (Event T M)) :
    Except Stuck (State T M) :=
  events.foldlM (step caller) s

/-- The number of uids that are drawn. -/
def drawn (events : List (Event T M)) : ℕ :=
  events.countP fun
    | .createUid _ _ => true
    | _ => false

/-- The number of contexts that are made. -/
def contexts (events : List (Event T M)) : ℕ :=
  events.countP fun
    | .insert _ _ _ => true
    | _ => false

/-! ### What a section does -/

section Step

variable {caller : M → T} {s s' : State T M} {m : M} {uid : UInt64} {thread : T} {found : Bool}

theorem step_createUid (h : step caller s (.createUid m uid) = .ok s') :
    s.creating (caller m) = none ∧ s.uid = uid
      ∧ s' = { s with
        uid := s.uid + 1
        creating := Function.update s.creating (caller m) (some (m, uid)) } := by
  rw [step] at h
  split_ifs at h with hturn
  exact ⟨hturn.1, hturn.2, (Except.ok.inj h).symm⟩

theorem step_insert (h : step caller s (.insert m uid thread) = .ok s') :
    s.creating (caller m) = some (m, uid) ∧ thread ≠ caller m
      ∧ s' = { s with
        made := s.made + 1
        managers := Function.update s.managers m
          ((s.managers m).set uid ((IoCtxPair.make s.made uid).start thread))
        creating := Function.update s.creating (caller m) none } := by
  rw [step] at h
  split_ifs at h with hturn
  exact ⟨hturn.1, hturn.2, (Except.ok.inj h).symm⟩

theorem step_find (h : step caller s (.find m uid found) = .ok s') :
    ((s.managers m).find? uid).isSome = found
      ∧ ∃ stopping, s' = { s with stopping := stopping }
        ∧ ∀ t a, a ∈ stopping t → a ∈ s.stopping t ∨ a = (m, uid) ∧ found = true := by
  rw [step] at h
  split_ifs at h with hturn hfound
  · refine ⟨hturn.2, _, (Except.ok.inj h).symm, fun t a ha => ?_⟩
    rw [Function.update_apply] at ha
    split_ifs at ha with ht
    · rcases List.mem_cons.mp ha with rfl | ha
      · exact Or.inr ⟨rfl, hfound⟩
      · exact Or.inl (ht ▸ ha)
    · exact Or.inl ha
  · exact ⟨hturn.2, s.stopping, (Except.ok.inj h).symm, fun t a ha => Or.inl ha⟩

theorem step_stop (h : step caller s (.stop m uid) = .ok s') :
    ∃ pair, (s.managers m).find? uid = some pair
      ∧ s' = { s with
        managers := Function.update s.managers m
          ((s.managers m).set uid { pair with flag_exit_ := 1, thread_ := none })
        stopping := Function.update s.stopping (caller m) (s.stopping (caller m)).tail } := by
  rw [step] at h
  split_ifs at h with hturn
  cases hfind : (s.managers m).find? uid with
  | none =>
    rw [hfind] at h
    cases h
  | some pair =>
    rw [hfind] at h
    refine ⟨pair, rfl, ?_⟩
    dsimp only [IoCtxPair.stop] at h
    by_cases hown : pair.thread_ = some (caller m)
    · rw [if_pos hown] at h
      cases h
    · rw [if_neg hown] at h
      exact (Except.ok.inj h).symm

omit [DecidableEq T] in
/-- What a manager finds after an assignment in one of them. -/
theorem find?_update_set (managers : M → CoIoContextManager T) (m m' : M) (uid uid' : UInt64)
    (pair : IoCtxPair T) :
    (Function.update managers m ((managers m).set uid pair) m').find? uid'
      = if m' = m ∧ uid' = uid then some pair else (managers m').find? uid' := by
  rw [Function.update_apply]
  by_cases hm : m' = m
  · subst hm
    rw [if_pos rfl, SortedMap.find?_set]
    simp only [true_and]
  · rw [if_neg hm, if_neg fun h => hm h.1]

end Step

/-! ### What is in a manager stays there -/

section Kept

variable {caller : M → T} {s s' : State T M} {events : List (Event T M)} {m : M} {uid : UInt64}

/-- A section leaves what is under a uid there, unless it inserts under it; only a
stop of it makes a difference. -/
theorem exists_find?_step {a : Event T M} (h : step caller s a = .ok s') {pair : IoCtxPair T}
    (hfind : (s.managers m).find? uid = some pair) (hins : ∀ thread, a ≠ .insert m uid thread) :
    ∃ pair', (s'.managers m).find? uid = some pair' ∧ pair'.io_ctx_ = pair.io_ctx_
      ∧ pair'.uid_ = pair.uid_
      ∧ pair'.thread_ = if a = .stop m uid then none else pair.thread_ := by
  cases a with
  | createUid m' uid' =>
    obtain ⟨-, -, rfl⟩ := step_createUid h
    exact ⟨pair, hfind, rfl, rfl, rfl⟩
  | insert m' uid' thread =>
    obtain ⟨-, -, rfl⟩ := step_insert h
    have hne : ¬ (m = m' ∧ uid = uid') := by
      rintro ⟨rfl, rfl⟩
      exact hins thread rfl
    refine ⟨pair, ?_, rfl, rfl, rfl⟩
    rw [find?_update_set, if_neg hne, hfind]
  | find m' uid' found =>
    obtain ⟨-, stopping, rfl, -⟩ := step_find h
    exact ⟨pair, hfind, rfl, rfl, rfl⟩
  | stop m' uid' =>
    obtain ⟨pair', hpair', rfl⟩ := step_stop h
    by_cases heq : m = m' ∧ uid = uid'
    · obtain ⟨rfl, rfl⟩ := heq
      obtain rfl : pair = pair' := Option.some.inj (hfind.symm.trans hpair')
      refine ⟨{ pair with flag_exit_ := 1, thread_ := none }, ?_, rfl, rfl, (if_pos rfl).symm⟩
      rw [find?_update_set, if_pos ⟨rfl, rfl⟩]
    · refine ⟨pair, ?_, rfl, rfl, (if_neg fun hstop => heq ?_).symm⟩
      · rw [find?_update_set, if_neg heq, hfind]
      · cases hstop
        exact ⟨rfl, rfl⟩

/-- So does a run. -/
theorem exists_find?_run {pair : IoCtxPair T} (h : run caller s events = .ok s')
    (hfind : (s.managers m).find? uid = some pair)
    (hins : ∀ thread, .insert m uid thread ∉ events) :
    ∃ pair', (s'.managers m).find? uid = some pair' ∧ pair'.io_ctx_ = pair.io_ctx_
      ∧ pair'.uid_ = pair.uid_
      ∧ pair'.thread_ = if .stop m uid ∈ events then none else pair.thread_ := by
  induction events generalizing s pair with
  | nil =>
    cases h
    exact ⟨pair, hfind, rfl, rfl, rfl⟩
  | cons a events ih =>
    obtain ⟨s₁, hstep, hrest⟩ := Component.foldlM_cons_eq_ok.mp h
    obtain ⟨pair₁, hfind₁, hio₁, huid₁, hthread₁⟩ := exists_find?_step hstep hfind fun t ht =>
      hins t (List.mem_cons.mpr (Or.inl ht.symm))
    obtain ⟨pair', hfind', hio, huid, hthread⟩ := ih hrest hfind₁ fun t ht =>
      hins t (List.mem_cons_of_mem a ht)
    refine ⟨pair', hfind', hio.trans hio₁, huid.trans huid₁, ?_⟩
    rw [hthread, hthread₁]
    by_cases hlater : .stop m uid ∈ events
    · rw [if_pos hlater, if_pos (List.mem_cons_of_mem a hlater)]
    · rw [if_neg hlater]
      exact if_congr (by rw [List.mem_cons, or_iff_left hlater, eq_comm]) rfl rfl

/-- Whatever happens, something stays there. -/
theorem isSome_find?_step {a : Event T M} (h : step caller s a = .ok s')
    (hfind : ((s.managers m).find? uid).isSome) : ((s'.managers m).find? uid).isSome := by
  by_cases hins : ∃ thread, a = .insert m uid thread
  · obtain ⟨thread, rfl⟩ := hins
    obtain ⟨-, -, rfl⟩ := step_insert h
    rw [find?_update_set, if_pos ⟨rfl, rfl⟩]
    rfl
  · obtain ⟨pair, hpair⟩ := Option.isSome_iff_exists.mp hfind
    obtain ⟨pair', hpair', -⟩ := exists_find?_step h hpair (not_exists.mp hins)
    rw [hpair']
    rfl

theorem isSome_find?_run (h : run caller s events = .ok s')
    (hfind : ((s.managers m).find? uid).isSome) : ((s'.managers m).find? uid).isSome :=
  Component.foldlM_invariant (fun s => ((s.managers m).find? uid).isSome) isSome_find?_step h hfind

/-- The iterators point to something, and no caller runs a context of its manager. -/
structure State.Valid (caller : M → T) (s : State T M) : Prop where
  iterators : ∀ t, ∀ a ∈ s.stopping t, ((s.managers a.1).find? a.2).isSome
  threads : ∀ {m uid pair}, (s.managers m).find? uid = some pair →
    pair.thread_ ≠ some (caller m)

omit [DecidableEq T] [DecidableEq M] in
theorem State.Valid.start : (start T M).Valid caller where
  iterators := by
    intro t a ha
    cases ha
  threads := by
    intro m uid pair h
    cases h

theorem State.Valid.of_step {a : Event T M} (hs : s.Valid caller) (h : step caller s a = .ok s') :
    s'.Valid caller := by
  have hkept : ∀ b : M × UInt64, ((s.managers b.1).find? b.2).isSome →
      ((s'.managers b.1).find? b.2).isSome := fun b => isSome_find?_step h
  cases a with
  | createUid m uid =>
    obtain ⟨-, -, rfl⟩ := step_createUid h
    exact ⟨fun t b hb => hkept b (hs.iterators t b hb), hs.threads⟩
  | insert m uid thread =>
    obtain ⟨-, hnew, rfl⟩ := step_insert h
    refine ⟨fun t b hb => hkept b (hs.iterators t b hb), fun hfind => ?_⟩
    rw [find?_update_set] at hfind
    split_ifs at hfind with heq
    · obtain rfl := Option.some.inj hfind
      rw [heq.1]
      exact fun hown => hnew (Option.some.inj hown)
    · exact hs.threads hfind
  | find m uid found =>
    obtain ⟨hfound, stopping, rfl, hmem⟩ := step_find h
    refine ⟨fun t b hb => ?_, hs.threads⟩
    rcases hmem t b hb with hold | ⟨rfl, rfl⟩
    · exact hkept b (hs.iterators t b hold)
    · exact hkept (m, uid) hfound
  | stop m uid =>
    obtain ⟨pair, hpair, rfl⟩ := step_stop h
    refine ⟨fun t b hb => hkept b (hs.iterators t b ?_), fun hfind => ?_⟩
    · dsimp only at hb
      rw [Function.update_apply] at hb
      split_ifs at hb with ht
      · exact ht ▸ List.mem_of_mem_tail hb
      · exact hb
    · rw [find?_update_set] at hfind
      split_ifs at hfind with heq
      · obtain rfl := Option.some.inj hfind
        exact (Option.some_ne_none _).symm
      · exact hs.threads hfind

theorem State.Valid.of_run (hs : s.Valid caller) (h : run caller s events = .ok s') :
    s'.Valid caller :=
  Component.foldlM_invariant (State.Valid caller) (fun hstep hvalid => hvalid.of_step hstep) h hs

/-- **No iterator dangles, and no thread joins itself.** -/
theorem State.Valid.eq_order (hs : s.Valid caller) {a : Event T M} {e : Stuck}
    (h : step caller s a = .error e) : e = .order := by
  cases a with
  | createUid m uid =>
    rw [step] at h
    split_ifs at h
    exact (Except.error.inj h).symm
  | insert m uid thread =>
    rw [step] at h
    split_ifs at h
    exact (Except.error.inj h).symm
  | find m uid found =>
    rw [step] at h
    split_ifs at h
    exact (Except.error.inj h).symm
  | stop m uid =>
    rw [step] at h
    split_ifs at h with hturn
    · have hsome := hs.iterators (caller m) (m, uid) (List.mem_of_mem_head? hturn.2)
      cases hfind : (s.managers m).find? uid with
      | none =>
        rw [hfind] at hsome
        cases hsome
      | some pair =>
        rw [hfind] at h
        dsimp only [IoCtxPair.stop] at h
        rw [if_neg (hs.threads hfind)] at h
        cases h
    · exact (Except.error.inj h).symm

end Kept

/-! ### Who has a uid -/

/-- The `k`-th number that was drawn is still with the thread that drew it, or it is
the uid of a context of one manager: that is `owner k`. -/
structure Issued (s : State T M) (n : ℕ) (owner : ℕ → T ⊕ M) : Prop where
  uid : s.uid = UInt64.ofNat n
  creating : ∀ {t m uid}, s.creating t = some (m, uid) →
    ∃ k < n, uid = UInt64.ofNat k ∧ owner k = .inl t
  managers : ∀ {m uid}, ((s.managers m).find? uid).isSome →
    ∃ k < n, uid = UInt64.ofNat k ∧ owner k = .inr m

/-- As long as the counter has not come round, uids tell the draws apart. -/
theorem ofNat_inj {n j k : ℕ} (hn : n ≤ 2 ^ 64) (hj : j < n) (hk : k < n)
    (h : UInt64.ofNat j = UInt64.ofNat k) : j = k := by
  rw [← UInt64.toNat_inj, UInt64.toNat_ofNat_of_lt' (hj.trans_le hn),
    UInt64.toNat_ofNat_of_lt' (hk.trans_le hn)] at h
  exact h

section Issued

variable {caller : M → T} {s s' : State T M} {n : ℕ} {owner : ℕ → T ⊕ M}
  {events : List (Event T M)}

omit [DecidableEq T] [DecidableEq M] in
theorem Issued.start : Issued (start T M) 0 owner where
  uid := rfl
  creating := by
    intro t m uid h
    cases h
  managers := by
    intro m uid h
    cases h

theorem Issued.exists_of_step (hs : Issued s n owner) {a : Event T M}
    (h : step caller s a = .ok s') : ∃ owner', Issued s' (n + drawn [a]) owner' := by
  cases a with
  | createUid m uid =>
    -- the caller has the new number
    obtain ⟨-, hdrawn, rfl⟩ := step_createUid h
    refine ⟨Function.update owner n (.inl (caller m)), ?_, ?_, ?_⟩
    · show s.uid + 1 = UInt64.ofNat (n + 1)
      rw [hs.uid, UInt64.ofNat_add]
      rfl
    · intro t' m' uid' hcreating
      dsimp only at hcreating
      rw [Function.update_apply] at hcreating
      split_ifs at hcreating with ht
      · obtain ⟨-, rfl⟩ := Prod.mk.inj (Option.some.inj hcreating)
        exact ⟨n, Nat.lt_succ_self n, hdrawn.symm.trans hs.uid, by rw [Function.update_self, ht]⟩
      · obtain ⟨k, hk, hu, howner⟩ := hs.creating hcreating
        exact ⟨k, Nat.lt_succ_of_lt hk, hu, by rw [Function.update_of_ne hk.ne, howner]⟩
    · intro m' uid' hfind
      obtain ⟨k, hk, hu, howner⟩ := hs.managers hfind
      exact ⟨k, Nat.lt_succ_of_lt hk, hu, by rw [Function.update_of_ne hk.ne, howner]⟩
  | insert m uid thread =>
    -- the caller hands its number over to the manager
    obtain ⟨hturn, -, rfl⟩ := step_insert h
    obtain ⟨k, hk, hu, howner⟩ := hs.creating hturn
    refine ⟨Function.update owner k (.inr m), hs.uid, ?_, ?_⟩
    · intro t' m' uid' hcreating
      dsimp only at hcreating
      rw [Function.update_apply] at hcreating
      split_ifs at hcreating with ht
      obtain ⟨k', hk', hu', howner'⟩ := hs.creating hcreating
      have hne : k' ≠ k := by
        rintro rfl
        exact ht (Sum.inl.inj (howner'.symm.trans howner))
      exact ⟨k', hk', hu', by rw [Function.update_of_ne hne, howner']⟩
    · intro m' uid' hfind
      rw [find?_update_set] at hfind
      split_ifs at hfind with heq
      · exact ⟨k, hk, heq.2.trans hu, by rw [Function.update_self, heq.1]⟩
      · obtain ⟨k', hk', hu', howner'⟩ := hs.managers hfind
        have hne : k' ≠ k := by
          rintro rfl
          exact Sum.inl_ne_inr (howner.symm.trans howner')
        exact ⟨k', hk', hu', by rw [Function.update_of_ne hne, howner']⟩
  | find m uid found =>
    obtain ⟨-, stopping, rfl, -⟩ := step_find h
    exact ⟨owner, hs.uid, hs.creating, hs.managers⟩
  | stop m uid =>
    obtain ⟨pair, hpair, rfl⟩ := step_stop h
    refine ⟨owner, hs.uid, hs.creating, fun hfind => hs.managers ?_⟩
    rw [find?_update_set] at hfind
    split_ifs at hfind with heq
    · rw [heq.1, heq.2, hpair]
      rfl
    · exact hfind

theorem Issued.exists_of_run (hs : Issued s n owner) (h : run caller s events = .ok s') :
    ∃ owner', Issued s' (n + drawn events) owner' := by
  induction events generalizing s n owner with
  | nil =>
    cases h
    exact ⟨owner, hs⟩
  | cons a events ih =>
    obtain ⟨s₁, hstep, hrest⟩ := Component.foldlM_cons_eq_ok.mp h
    obtain ⟨owner₁, hs₁⟩ := hs.exists_of_step hstep
    obtain ⟨owner', hs'⟩ := ih hs₁ hrest
    refine ⟨owner', ?_⟩
    rwa [drawn, ← List.singleton_append, List.countP_append, ← Nat.add_assoc]

omit [DecidableEq T] [DecidableEq M] in
/-- What a thread has drawn is the uid of no context yet, in no manager. -/
theorem Issued.find?_eq_none (hs : Issued s n owner) (hn : n ≤ 2 ^ 64) {t : T} {m : M}
    {uid : UInt64} (h : s.creating t = some (m, uid)) (m' : M) :
    (s.managers m').find? uid = none := by
  refine Option.not_isSome_iff_eq_none.mp fun hfind => ?_
  obtain ⟨k, hk, hu, howner⟩ := hs.creating h
  obtain ⟨k', hk', hu', howner'⟩ := hs.managers hfind
  obtain rfl := ofNat_inj hn hk hk' (hu.symm.trans hu')
  exact Sum.inl_ne_inr (howner.symm.trans howner')

omit [DecidableEq T] [DecidableEq M] in
/-- Two managers have no uid in common. -/
theorem Issued.find?_eq_none_of_ne (hs : Issued s n owner) (hn : n ≤ 2 ^ 64) {m m' : M}
    {uid : UInt64} (h : ((s.managers m).find? uid).isSome) (hm : m' ≠ m) :
    (s.managers m').find? uid = none := by
  refine Option.not_isSome_iff_eq_none.mp fun hfind => hm ?_
  obtain ⟨k, hk, hu, howner⟩ := hs.managers h
  obtain ⟨k', hk', hu', howner'⟩ := hs.managers hfind
  obtain rfl := ofNat_inj hn hk hk' (hu.symm.trans hu')
  exact Sum.inr.inj (howner'.symm.trans howner)

end Issued

theorem made_run {caller : M → T} {s s' : State T M} {events : List (Event T M)}
    (h : run caller s events = .ok s') : s'.made = s.made + contexts events := by
  induction events generalizing s with
  | nil =>
    cases h
    rfl
  | cons a events ih =>
    obtain ⟨s₁, hstep, hrest⟩ := Component.foldlM_cons_eq_ok.mp h
    have hcons : contexts (a :: events) = contexts [a] + contexts events := by
      rw [← List.singleton_append, contexts, List.countP_append]
      rfl
    rw [ih hrest, hcons, ← Nat.add_assoc]
    cases a with
    | createUid m uid =>
      obtain ⟨-, -, rfl⟩ := step_createUid hstep
      rfl
    | insert m uid thread =>
      obtain ⟨-, -, rfl⟩ := step_insert hstep
      rfl
    | find m uid found =>
      obtain ⟨-, stopping, rfl, -⟩ := step_find hstep
      rfl
    | stop m uid =>
      obtain ⟨pair, -, rfl⟩ := step_stop hstep
      rfl

section Kept

variable {caller : M → T} {before after : List (Event T M)} {m : M} {uid : UInt64} {thread : T}
  {s : State T M}

/-- What an insertion finds. -/
theorem exists_of_insert
    (hrun : run caller (start T M) (before ++ .insert m uid thread :: after) = .ok s)
    (hn : drawn before ≤ 2 ^ 64) :
    ∃ s₁ s₂, run caller (start T M) before = .ok s₁
      ∧ step caller s₁ (.insert m uid thread) = .ok s₂
      ∧ run caller s₂ after = .ok s ∧ ∀ m', (s₁.managers m').find? uid = none := by
  obtain ⟨s₁, hbefore, hrest⟩ := Component.foldlM_append_eq_ok.mp hrun
  obtain ⟨s₂, hstep, hafter⟩ := Component.foldlM_cons_eq_ok.mp hrest
  obtain ⟨owner, hs₁⟩ := (@Issued.start T M fun _ => .inr m).exists_of_run hbefore
  rw [Nat.zero_add] at hs₁
  exact ⟨s₁, s₂, hbefore, hstep, hafter, hs₁.find?_eq_none hn (step_insert hstep).1⟩

/-- A uid is inserted once. -/
theorem insert_notMem
    (hrun : run caller (start T M) (before ++ .insert m uid thread :: after) = .ok s)
    (hn : drawn (before ++ .insert m uid thread :: after) ≤ 2 ^ 64) (thread' : T) :
    .insert m uid thread' ∉ after := by
  intro hmem
  obtain ⟨mid, last, rfl⟩ := List.append_of_mem hmem
  rw [← List.cons_append, ← List.append_assoc] at hrun hn
  rw [drawn, List.countP_append] at hn
  obtain ⟨s₁, s₂, hbefore, -, -, hnone⟩ :=
    exists_of_insert hrun ((Nat.le_add_right _ _).trans hn)
  obtain ⟨s₃, -, hrest⟩ := Component.foldlM_append_eq_ok.mp hbefore
  obtain ⟨s₄, hstep, hmid⟩ := Component.foldlM_cons_eq_ok.mp hrest
  obtain ⟨-, -, rfl⟩ := step_insert hstep
  have hsome : ((s₁.managers m).find? uid).isSome := isSome_find?_run hmid (by
    rw [find?_update_set, if_pos ⟨rfl, rfl⟩]
    rfl)
  rw [hnone m] at hsome
  cases hsome

end Kept

/-- **What is created under a uid stays under it.**  Wherever in a run the context is
inserted, as long as no more than `2 ^ 64` uids were drawn: the manager finds the
context, and no other manager finds any; it has its thread until the first stop of this
uid, which joins it; and no call dereferences an iterator that points to nothing, or
joins the thread that makes it. -/
theorem context_kept {caller : M → T} {before after : List (Event T M)} {m : M} {uid : UInt64}
    {thread : T} {s : State T M}
    (hrun : run caller (start T M) (before ++ .insert m uid thread :: after) = .ok s)
    (hn : drawn (before ++ .insert m uid thread :: after) ≤ 2 ^ 64) :
    (∃ pair, (s.managers m).find? uid = some pair ∧ pair.uid_ = uid
        ∧ (s.managers m).findIoContextByUid uid.toInt64 = some (contexts before)
        ∧ pair.thread_ = if .stop m uid ∈ after then none else some thread)
      ∧ (∀ m' ≠ m, (s.managers m').findIoContextByUid uid.toInt64 = none)
      ∧ ∀ a e, step caller s a = .error e → e = .order := by
  have hbefore : drawn before ≤ 2 ^ 64 := by
    rw [drawn, List.countP_append] at hn
    exact (Nat.le_add_right _ _).trans hn
  obtain ⟨s₁, s₂, hs₁, hstep, hafter, -⟩ := exists_of_insert hrun hbefore
  obtain ⟨-, -, rfl⟩ := step_insert hstep
  have hmade : s₁.made = contexts before := (made_run hs₁).trans (Nat.zero_add _)
  have hnew : (Function.update s₁.managers m ((s₁.managers m).set uid
      ((IoCtxPair.make s₁.made uid).start thread)) m).find? uid
        = some ((IoCtxPair.make s₁.made uid).start thread) := by
    rw [find?_update_set, if_pos ⟨rfl, rfl⟩]
  obtain ⟨pair, hfind, hio, huid, hthread⟩ :=
    exists_find?_run hafter hnew (insert_notMem hrun hn)
  refine ⟨⟨pair, hfind, huid, ?_, hthread⟩, fun m' hm' => ?_,
    fun a e herror => (State.Valid.start.of_run hrun).eq_order herror⟩
  · rw [findIoContextByUid_toInt64, hfind, ← hmade]
    exact congrArg some hio
  · obtain ⟨owner, hs⟩ := (@Issued.start T M fun _ => .inr m).exists_of_run hrun
    rw [Nat.zero_add] at hs
    have hnone := hs.find?_eq_none_of_ne hn (by rw [hfind]; rfl) hm'
    rw [findIoContextByUid_toInt64, hnone]
    rfl

/-- Two threads that each have a manager: one uid is drawn while another one is
inserted, and a context is stopped in the callback of its creation. -/
theorem context_kept_two :
    ∃ s, run (id : Fin 4 → Fin 4) (start (Fin 4) (Fin 4)) [.createUid 0 0, .createUid 1 1,
        .insert 1 1 2, .insert 0 0 3, .find 0 0 true, .stop 0 0] = .ok s
      ∧ (s.managers 1).findIoContextByUid 1 = some 0
      ∧ (s.managers 0).findIoContextByUid 1 = none
      ∧ ∃ pair, (s.managers 1).find? 1 = some pair ∧ pair.thread_ = some 2 := by
  refine ⟨_, rfl, ?_⟩
  have hkept := @context_kept (Fin 4) (Fin 4) _ _ id [.createUid 0 0, .createUid 1 1]
    [.insert 0 0 3, .find 0 0 true, .stop 0 0] 1 1 2 _ rfl (by decide)
  obtain ⟨⟨pair, hfind, -, hcontext, hthread⟩, hother, -⟩ := hkept
  exact ⟨hcontext, hother 0 (by decide), pair, hfind, hthread⟩

/-! ### When the counter comes round -/

/-- An insertion finds a context under its uid. -/
def Replaces (caller : M → T) (events : List (Event T M)) : Prop :=
  ∃ before m uid thread after s, events = before ++ .insert m uid thread :: after
    ∧ run caller (start T M) before = .ok s ∧ ((s.managers m).find? uid).isSome

section Creates

variable (caller : M → T) (m : M) (thread : T)

/-- A manager's caller creates contexts, and does nothing in the callbacks. -/
def creates (n : ℕ) : List (Event T M) :=
  (List.range n).flatMap fun k =>
    [.createUid m (UInt64.ofNat k), .insert m (UInt64.ofNat k) thread]

omit [DecidableEq T] [DecidableEq M] in
theorem creates_succ (n : ℕ) :
    creates m thread (n + 1) = creates m thread n
      ++ [.createUid m (UInt64.ofNat n), .insert m (UInt64.ofNat n) thread] := by
  rw [creates, List.range_succ, List.flatMap_append, List.flatMap_singleton]
  rfl

omit [DecidableEq T] [DecidableEq M] in
theorem drawn_creates (n : ℕ) : drawn (creates m thread n) = n := by
  induction n with
  | zero => rfl
  | succ n ih =>
    rw [creates_succ, drawn, List.countP_append]
    exact congrArg (· + 1) ih

variable {caller m thread}

theorem exists_creates (hthread : thread ≠ caller m) (n : ℕ) :
    ∃ s, run caller (start T M) (creates m thread n) = .ok s ∧ s.uid = UInt64.ofNat n
      ∧ s.creating (caller m) = none
      ∧ ∀ k < n, ((s.managers m).find? (UInt64.ofNat k)).isSome := by
  induction n with
  | zero => exact ⟨_, rfl, rfl, rfl, fun k hk => absurd hk (Nat.not_lt_zero k)⟩
  | succ n ih =>
    obtain ⟨s, hs, huid, hcreating, hfind⟩ := ih
    obtain ⟨s₁, hdraw⟩ : ∃ s₁, step caller s (.createUid m (UInt64.ofNat n)) = .ok s₁ :=
      ⟨_, if_pos ⟨hcreating, huid⟩⟩
    have hs₁ := (step_createUid hdraw).2.2
    obtain ⟨s₂, hinsert⟩ : ∃ s₂, step caller s₁ (.insert m (UInt64.ofNat n) thread) = .ok s₂ :=
      ⟨_, if_pos ⟨by rw [hs₁]; exact Function.update_self _ _ _, hthread⟩⟩
    have hs₂ := (step_insert hinsert).2.2
    have htwo : run caller s [.createUid m (UInt64.ofNat n), .insert m (UInt64.ofNat n) thread]
        = .ok s₂ :=
      Component.foldlM_cons_eq_ok.mpr ⟨s₁, hdraw,
        Component.foldlM_cons_eq_ok.mpr ⟨s₂, hinsert, rfl⟩⟩
    refine ⟨s₂, ?_, ?_, ?_, fun k hk => ?_⟩
    · rw [creates_succ]
      exact Component.foldlM_append_eq_ok.mpr ⟨s, hs, htwo⟩
    · rw [hs₂, hs₁, UInt64.ofNat_add, ← huid]
      rfl
    · rw [hs₂]
      exact Function.update_self _ _ _
    · rcases Nat.lt_succ_iff_lt_or_eq.mp hk with hlt | rfl
      · exact isSome_find?_run htwo (hfind k hlt)
      · rw [hs₂, find?_update_set, if_pos ⟨rfl, rfl⟩]
        rfl

/-- The counter comes round to `0`, the uid of the first context. -/
theorem replaces_creates (hthread : thread ≠ caller m) {N n : ℕ} (hpos : 0 < N)
    (hround : UInt64.ofNat N = UInt64.ofNat 0) (h : N < n) :
    Replaces caller (creates m thread n) := by
  obtain ⟨j, rfl⟩ := Nat.exists_eq_add_of_le h
  obtain ⟨s, hs, huid, hcreating, hfind⟩ := exists_creates hthread N
  obtain ⟨s₁, hdraw⟩ : ∃ s₁, step caller s (.createUid m (UInt64.ofNat N)) = .ok s₁ :=
    ⟨_, if_pos ⟨hcreating, huid⟩⟩
  refine ⟨creates m thread N ++ [.createUid m (UInt64.ofNat N)], m, UInt64.ofNat N, thread,
    ((List.range j).map (N.succ + ·)).flatMap fun k =>
      [.createUid m (UInt64.ofNat k), .insert m (UInt64.ofNat k) thread], s₁, ?_, ?_, ?_⟩
  · rw [creates, List.range_add, List.flatMap_append]
    show creates m thread (N + 1) ++ _ = _
    rw [creates_succ, List.append_assoc, List.append_assoc]
    rfl
  · exact Component.foldlM_append_eq_ok.mpr ⟨s, hs, Component.foldlM_cons_eq_ok.mpr ⟨s₁, hdraw, rfl⟩⟩
  · rw [hround]
    exact isSome_find?_step hdraw (hfind 0 hpos)

end Creates

/-- **Contexts are replaced once more than `2 ^ 64` uids were drawn,** and not before. -/
theorem replaced_iff [Nontrivial T] [Inhabited M] (caller : M → T) (n : ℕ) :
    (∃ (events : List (Event T M)) (s : State T M), run caller (start T M) events = .ok s
      ∧ drawn events = n ∧ Replaces caller events) ↔ 2 ^ 64 < n := by
  constructor
  · rintro ⟨events, s, hrun, rfl, before, m, uid, thread, after, s₁, rfl, hbefore, hfind⟩
    refine lt_of_not_ge fun hn => ?_
    rw [drawn, List.countP_append] at hn
    obtain ⟨s₁', -, hbefore', -, -, hnone⟩ :=
      exists_of_insert hrun ((Nat.le_add_right _ _).trans hn)
    obtain rfl : s₁ = s₁' := Except.ok.inj (hbefore.symm.trans hbefore')
    rw [hnone m] at hfind
    cases hfind
  · intro hn
    obtain ⟨thread, hthread⟩ := exists_ne (caller default)
    obtain ⟨s, hrun, -⟩ := exists_creates hthread n
    exact ⟨creates default thread n, s, hrun, drawn_creates default thread n,
      replaces_creates hthread (Nat.two_pow_pos 64) (by decide) hn⟩

end AndrenBoost.Context
