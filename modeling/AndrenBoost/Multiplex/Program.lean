import AndrenBoost.Lib.StdString
import AndrenBoost.Multiplex.Delivery

/-!
# The transfer program

`do_client` adds its tasks, fetches until nothing is left and sends every string;
`do_session` reads strings until it has taken out as many tasks as there are, or the
connection ends.  The connection is the one of the websocket: messages come in whole,
in order, and none after the end.

## Main definitions

* `sessionLoop` — the loop of `do_session`.
* `clientTasks` — the tasks of `do_client`.

## Main results

* `sessionLoop_transmitted` — **the loop stops at the last string exactly when no task
  leaves a segment of eight bytes**, and otherwise waits for more.
* `program_prints` — the program prints every task and stops, for every positive count.

## References

`do_session` and `do_client` in `example/test_multiplex_transfer.cpp`.
-/

namespace AndrenBoost.Multiplex

/-- The loop of `do_session` over the messages that will come in before the
connection ends: the session after it, and the messages it has not read. -/
def sessionLoop (count : ℕ) : List Bytes → Session → Except Fault (Session × List Bytes)
  -- `try_recv` gives no bytes and an empty string, which is parsed before the test
  | [], s => (s.receive []).map fun s => (s, [])
  | raw :: raws, s => (s.receive raw).bind fun s =>
      if raw.length = 0 ∨ s.serverCount ≥ count then .ok (s, raws)
      else sessionLoop count raws s

/-- The text of a task of `do_client`: `"hello world  - " + std::to_string(index)`. -/
def helloWorld (index : ℕ) : Bytes := ascii "hello world  - " ++ StdString.toDecimal index

/-- The queue of a task of `do_client`: `(QueueNum)(index % 8)`. -/
def queueOfIndex (index : ℕ) : QueueNum := QueueNum.all.getD (index % 8) .que0

/-- The calls of the first loop of `do_client`. -/
def clientTasks (count : ℕ) : List SendOp :=
  (List.range count).map fun index =>
    .add (UInt64.ofNat index) (queueOfIndex index) (helloWorld index)

/-! ### The loop -/

/-- The loop goes on while the count has not been reached. -/
theorem sessionLoop_append {count : ℕ} {more : List Bytes} : ∀ {raws : List Bytes}
    {s s' : Session}, raws.foldlM Session.receive s = .ok s' → (∀ raw ∈ raws, raw ≠ []) →
      (∀ seen s₁, seen <+: raws → seen.foldlM Session.receive s = .ok s₁ →
        s₁.serverCount < count) →
        sessionLoop count (raws ++ more) s = sessionLoop count more s' := by
  intro raws
  induction raws with
  | nil => intro s s' hrun _ _; cases hrun; rfl
  | cons raw raws ih =>
    intro s s' hrun hne hlt
    rw [List.forall_mem_cons] at hne
    obtain ⟨s₁, hstep, hrest⟩ := Component.foldlM_cons_eq_ok.mp hrun
    have hcount : s₁.serverCount < count := hlt [raw] s₁ ⟨raws, rfl⟩
      (Component.foldlM_cons_eq_ok.mpr ⟨s₁, hstep, rfl⟩)
    have hlen : raw.length ≠ 0 := fun h => hne.1 (List.length_eq_zero_iff.mp h)
    rw [List.cons_append, sessionLoop, hstep]
    simp only [Except.bind]
    rw [if_neg (by omega)]
    refine ih hrest hne.2 fun seen s₂ hseen hrun₂ => ?_
    exact hlt (raw :: seen) s₂ (List.cons_prefix_cons.mpr ⟨rfl, hseen⟩)
      (Component.foldlM_cons_eq_ok.mpr ⟨s₁, hstep, hrun₂⟩)

/-- It stops behind the string that reaches it. -/
theorem sessionLoop_stops {count : ℕ} {more init : List Bytes} {raw : Bytes} {s s₁ s' : Session}
    (hrun : init.foldlM Session.receive s = .ok s₁) (hlast : s₁.receive raw = .ok s')
    (hne : ∀ raw ∈ init, raw ≠ [])
    (hlt : ∀ seen s₂, seen <+: init → seen.foldlM Session.receive s = .ok s₂ →
      s₂.serverCount < count) (hge : count ≤ s'.serverCount) :
    sessionLoop count (init ++ raw :: more) s = .ok (s', more) := by
  rw [sessionLoop_append hrun hne hlt, sessionLoop, hlast]
  simp only [Except.bind]
  rw [if_pos (Or.inr hge)]

/-! ### The emptied sender -/

/-- The strings transmitted are those of the run with further fetches. -/
theorem transmitted_eq_fetches (ops : List SendOp) : ∃ n,
    transmitted ops = some (runOps .new (ops ++ List.replicate n .fetch)).1 ∧
      ∀ k, (runOps .new (ops ++ List.replicate n .fetch)).2.pending k = [] := by
  obtain ⟨out, m', hloop, hleft, -⟩ :=
    fetchUntilEmpty_spec (tagged_runOps ops) (Nat.lt_succ_self _)
  have hrun := runOps_of_fetchUntilEmpty hloop
  refine ⟨out.length + 1, ?_, ?_⟩
  · rw [transmitted, hloop, runOps_append, hrun]
    rfl
  · rw [runOps_append, hrun]
    exact hleft

theorem tasksOf_append_fetches (n : ℕ) : ∀ ops : List SendOp,
    tasksOf (ops ++ List.replicate n .fetch) = tasksOf ops := by
  intro ops
  induction ops with
  | nil =>
    induction n with
    | zero => rfl
    | succ n ih => exact ih
  | cons op ops ih =>
    cases op with
    | add id queueNo data => simp only [List.cons_append, tasksOf, ih]
    | fetch => exact ih

theorem mem_tasksOf_of_add {id : UInt64} {queueNo : QueueNum} {data : Bytes} :
    ∀ {ops : List SendOp}, SendOp.add id queueNo data ∈ ops → ⟨id, queueNo, data⟩ ∈ tasksOf ops := by
  intro ops
  induction ops with
  | nil => intro h; exact absurd h List.not_mem_nil
  | cons op ops ih =>
    intro h
    rcases List.mem_cons.mp h with rfl | hmem
    · exact List.mem_cons_self
    · cases op with
      | add id' queueNo' data' => exact List.mem_cons_of_mem _ (ih hmem)
      | fetch => exact ih hmem

section Emptied

variable {ops : List SendOp} (hids : (addedIds ops).Nodup)
include hids

/-- When nothing is pending, every task is among the strings fetched. -/
theorem seen_of_pending_nil (hpend : ∀ k, (runOps .new ops).2.pending k = []) {t : Task}
    (ht : t ∈ tasksOf ops) : t.Seen (runOps .new ops).1 :=
  fetchedFor_of_addsFor_singleton (addsFor_of_nodup hids (mem_tasksOf ht)).1 (hpend _)

/-- Before the last string some task is not. -/
theorem exists_not_seen (hpend : ∀ k, (runOps .new ops).2.pending k = []) {seen rest : List Bytes}
    {raw : Bytes} (hout : (runOps .new ops).1 = seen ++ raw :: rest) :
    ∃ t ∈ tasksOf ops, ¬ t.Seen seen := by
  obtain ⟨⟨queueNo, id⟩, data, hadd, hmem⟩ := exists_dataList_of_mem
    (show raw ∈ (runOps .new ops).1 by rw [hout]; simp)
  have ht := mem_tasksOf_of_add hadd
  refine ⟨_, ht, fun hseen => ?_⟩
  have hall := seen_of_pending_nil hids hpend ht
  have hkey := keyOf_of_mem_dataList hmem
  -- the string is one more of the task's
  have hlen := congrArg List.length ((fetchedFor_split hout hkey).symm.trans hall)
  have hlen' : (fetchedFor (queueNo, id) seen).length = (dataList id queueNo data).length :=
    congrArg List.length hseen
  simp only [Task.strings, List.length_append, List.length_cons] at hlen
  omega

end Emptied

/-! ### The loop over what is transmitted -/

/-- The tasks a session takes out when it has seen all strings. -/
theorem reported_of_pending_nil {ops : List SendOp} (hids : (addedIds ops).Nodup)
    (hpend : ∀ k, (runOps .new ops).2.pending k = []) :
    reported (runOps .new ops).1 (tasksOf ops)
      = ((tasksOf ops).filter fun t => t.Intact).map fun t => (t.id, t.data) := by
  rw [reported]
  congr 1
  refine List.filter_congr fun t ht => ?_
  simp [seen_of_pending_nil hids hpend ht]

theorem ne_nil_of_mem_runOps {ops : List SendOp} {raw : Bytes} (h : raw ∈ (runOps .new ops).1) :
    raw ≠ [] := by
  obtain ⟨k, data, -, hmem⟩ := exists_dataList_of_mem h
  rw [dataList_eq] at hmem
  rcases List.mem_cons.mp hmem with rfl | hmem
  · intro hnil
    have hlen := congrArg List.length hnil
    rw [metaData_eq, MultiplexMeta.length_toBytes] at hlen
    exact absurd hlen (by decide)
  · obtain ⟨payload, -, rfl⟩ := List.mem_map.mp hmem
    intro hnil
    have hlen := congrArg List.length hnil
    rw [length_packageOf, sizeofPackageMeta, List.length_nil] at hlen
    omega

/-- Before the last string the count is not reached. -/
theorem serverCount_lt {ops : List SendOp} (hids : (addedIds ops).Nodup) (hsize : SizesFit ops)
    (hpend : ∀ k, (runOps .new ops).2.pending k = []) {seen rest : List Bytes} {raw : Bytes}
    (hout : (runOps .new ops).1 = seen ++ raw :: rest) {s : Session}
    (hrun : seen.foldlM Session.receive .new = .ok s) :
    s.serverCount < (tasksOf ops).length := by
  have hperm := taken_perm_of_run hids hsize ⟨raw :: rest, hout.symm⟩ hrun
  obtain ⟨t, ht, hnot⟩ := exists_not_seen hids hpend hout
  rw [(told_run hrun).counted, hperm.length_eq, reported, List.length_map,
    List.length_filter_lt_length_iff_exists]
  exact ⟨t, ht, by simp [hnot]⟩

/-- The loop over the strings of a run that leaves nothing pending. -/
theorem sessionLoop_of_pending_nil {ops : List SendOp} (hids : (addedIds ops).Nodup)
    (hsize : SizesFit ops) (hpend : ∀ k, (runOps .new ops).2.pending k = [])
    (hne : tasksOf ops ≠ []) : ∃ s,
      s.taken.Perm (((tasksOf ops).filter fun t => t.Intact).map fun t => (t.id, t.data)) ∧
      s.done = s.taken.map printed ∧
      ∀ more, sessionLoop (tasksOf ops).length ((runOps .new ops).1 ++ more) .new
        = if ∀ t ∈ tasksOf ops, t.Intact then .ok (s, more)
          else sessionLoop (tasksOf ops).length more s := by
  obtain ⟨s, hrun⟩ := exists_receive_run
    (fun raw hraw => @wellFormed_of_mem_runOps ops raw hraw) .new
  have hperm := taken_perm_of_run hids hsize (List.prefix_refl _) hrun
  rw [reported_of_pending_nil hids hpend] at hperm
  refine ⟨s, hperm, (told_run hrun).printed, fun more => ?_⟩
  have hcount : s.serverCount = ((tasksOf ops).filter fun t => t.Intact).length := by
    rw [(told_run hrun).counted, hperm.length_eq, List.length_map]
  have hnil := fun raw (h : raw ∈ (runOps .new ops).1) => ne_nil_of_mem_runOps h
  -- the count of a beginning that is not all of the strings
  have hbefore : ∀ {init rest : List Bytes} {raw : Bytes},
      (runOps .new ops).1 = init ++ raw :: rest → ∀ seen s₁, seen <+: init →
        seen.foldlM Session.receive .new = .ok s₁ → s₁.serverCount < (tasksOf ops).length := by
    rintro init rest raw hout seen s₁ ⟨mid, rfl⟩ hrun₁
    cases mid with
    | nil => exact serverCount_lt hids hsize hpend (by simpa using hout) hrun₁
    | cons x mid =>
      exact @serverCount_lt ops hids hsize hpend seen (mid ++ raw :: rest) x
        (by simpa using hout) s₁ hrun₁
  split_ifs with hall
  · have hfull : s.serverCount = (tasksOf ops).length := by
      rw [hcount, List.filter_eq_self.mpr fun t ht => by simpa using hall t ht]
    -- the last string reaches the count
    rcases (runOps .new ops).1.eq_nil_or_concat with hout | ⟨init, raw, hout⟩
    · -- no string at all, but there is a task
      obtain ⟨t, ht⟩ := List.exists_mem_of_ne_nil _ hne
      have hseen := seen_of_pending_nil hids hpend ht
      rw [hout] at hseen
      exact absurd hseen (List.cons_ne_nil _ _).symm
    · rw [List.concat_eq_append] at hout
      rw [hout] at hrun hnil ⊢
      obtain ⟨s₁, hinit, hlast⟩ := Component.foldlM_append_eq_ok.mp hrun
      obtain ⟨s₂, hlast, heq⟩ := Component.foldlM_cons_eq_ok.mp hlast
      cases heq
      rw [List.append_assoc, List.singleton_append]
      exact sessionLoop_stops hinit hlast
        (fun x hx => hnil x (List.mem_append_left _ hx)) (hbefore (by rw [hout])) hfull.ge
  · refine sessionLoop_append hrun hnil fun seen s₁ hseen hrun₁ => ?_
    obtain ⟨rest, hrest⟩ := hseen
    cases rest with
    | nil =>
      -- all strings, but not every task is taken out
      rw [List.append_nil] at hrest
      subst hrest
      rw [hrun] at hrun₁
      cases hrun₁
      push Not at hall
      obtain ⟨t, ht, hnot⟩ := hall
      rw [hcount, List.length_filter_lt_length_iff_exists]
      exact ⟨t, ht, by simpa using hnot⟩
    | cons x rest => exact serverCount_lt hids hsize hpend hrest.symm hrun₁

/-- The strings transmitted are those of a run that adds the same tasks and leaves
nothing pending. -/
theorem transmitted_eq_emptied {ops : List SendOp} (hids : (addedIds ops).Nodup)
    (hsize : SizesFit ops) : ∃ ops', tasksOf ops' = tasksOf ops ∧ (addedIds ops').Nodup ∧
      SizesFit ops' ∧ transmitted ops = some (runOps .new ops').1 ∧
        ∀ k, (runOps .new ops').2.pending k = [] := by
  obtain ⟨n, htrans, hpend⟩ := transmitted_eq_fetches ops
  have htasks := tasksOf_append_fetches n ops
  refine ⟨_, htasks, ?_, fun id queueNo data h => ?_, htrans, hpend⟩
  · rwa [← map_id_tasksOf, htasks, map_id_tasksOf]
  · exact hsize id queueNo data (by simpa using h)

/-- **The loop stops at the last string exactly when no task leaves a segment of eight
bytes.**  For tasks with distinct ids, added and fetched in any order, the session whose
count is their number takes out, of the strings transmitted, every task that leaves none,
once, and prints of its data what stands before the first zero byte.  If that is all of
them, it stops behind the last string whatever may follow; otherwise it goes on reading
what follows. -/
theorem sessionLoop_transmitted {ops : List SendOp} (hids : (addedIds ops).Nodup)
    (hsize : SizesFit ops) (hne : tasksOf ops ≠ []) :
    ∃ raws s, transmitted ops = some raws ∧
      s.taken.Perm (((tasksOf ops).filter fun t => t.Intact).map fun t => (t.id, t.data)) ∧
      s.done = s.taken.map printed ∧
      ∀ more, sessionLoop (tasksOf ops).length (raws ++ more) .new
        = if ∀ t ∈ tasksOf ops, t.Intact then .ok (s, more)
          else sessionLoop (tasksOf ops).length more s := by
  obtain ⟨ops', htasks, hids', hsize', htrans, hpend⟩ := transmitted_eq_emptied hids hsize
  rw [← htasks] at hne ⊢
  obtain ⟨s, hperm, hdone, hloop⟩ := sessionLoop_of_pending_nil hids' hsize' hpend hne
  exact ⟨_, s, htrans, hperm, hdone, hloop⟩

/-- Two tasks, one of which leaves eight bytes: the other is taken out, and the loop reads
on. -/
theorem sessionLoop_transmitted_eight :
    ∃ raws s, transmitted [.add 1 .que0 (ascii "12345678"), .add 2 .que5 [98]] = some raws ∧
      s.taken.Perm [(2, [98])] ∧ s.done = s.taken.map printed ∧
      ∀ more, sessionLoop 2 (raws ++ more) .new = sessionLoop 2 more s := by
  have hsize : SizesFit [.add 1 .que0 (ascii "12345678"), .add 2 .que5 [98]] := by
    intro id queueNo data h
    simp only [List.mem_cons, SendOp.add.injEq, List.not_mem_nil, or_false] at h
    rcases h with ⟨-, -, rfl⟩ | ⟨-, -, rfl⟩ <;> decide
  obtain ⟨raws, s, htrans, hperm, hdone, hloop⟩ :=
    @sessionLoop_transmitted [.add 1 .que0 (ascii "12345678"), .add 2 .que5 [98]]
      (by decide) hsize (by decide)
  refine ⟨raws, s, htrans, hperm, hdone, fun more => ?_⟩
  have hnot : ¬ ∀ t ∈ tasksOf [.add 1 .que0 (ascii "12345678"), .add 2 .que5 [98]], t.Intact := by
    decide
  exact (hloop more).trans (if_neg hnot)

/-! ### The example -/

theorem addedIds_clientTasks (count : ℕ) :
    addedIds (clientTasks count) = (List.range count).map UInt64.ofNat := by
  rw [clientTasks]
  induction List.range count with
  | nil => rfl
  | cons index l ih => rw [List.map_cons, addedIds, ih, List.map_cons]

theorem tasksOf_clientTasks (count : ℕ) : tasksOf (clientTasks count)
    = (List.range count).map fun index =>
        ⟨UInt64.ofNat index, queueOfIndex index, helloWorld index⟩ := by
  rw [clientTasks]
  induction List.range count with
  | nil => rfl
  | cons index l ih => rw [List.map_cons, tasksOf, ih, List.map_cons]

/-- The number of digits of a number. -/
theorem length_toDecimal_le {n : ℕ} : ∀ {d : ℕ}, n < 10 ^ (d + 1) →
    (StdString.toDecimal n).length ≤ d + 1 := by
  intro d
  induction d generalizing n with
  | zero =>
    intro h
    rw [StdString.toDecimal_eq, if_pos (by omega)]
    simp
  | succ d ih =>
    intro h
    rw [StdString.toDecimal_eq]
    split_ifs with hn
    · simp
    · have := ih (n := n / 10) (by rw [Nat.div_lt_iff_lt_mul (by decide)]; rwa [pow_succ] at h)
      rw [List.length_append, List.length_singleton]
      omega

/-- A text of the example is between one byte of digits and twenty longer than its words. -/
theorem length_helloWorld {index : ℕ} (h : index < 2 ^ 64) :
    15 < (helloWorld index).length ∧ (helloWorld index).length ≤ 35 := by
  have hwords : (ascii "hello world  - ").length = 15 := by decide
  have hpos := List.length_pos_iff.mpr (StdString.toDecimal_ne_nil index)
  have hle := @length_toDecimal_le index 19 (by omega)
  rw [helloWorld, List.length_append, hwords]
  omega

/-- It has no zero byte, and is printed whole. -/
theorem cString_helloWorld (index : ℕ) :
    StdString.cString (helloWorld index) = helloWorld index := by
  refine StdString.cString_eq_self fun hmem => ?_
  rcases List.mem_append.mp hmem with hwords | hdigits
  · exact absurd hwords (by decide)
  · exact absurd (StdString.isDigit_of_mem_toDecimal hdigits) (by decide)

/-- **The program prints every task and stops**, for every count that its counter can
reach: the session prints each text once, under its number, and leaves its loop behind
the last string. -/
theorem program_prints {count : ℕ} (hpos : 0 < count) (hcount : count < 2 ^ 31) :
    ∃ raws s, transmitted (clientTasks count) = some raws ∧
      (∀ more, sessionLoop count (raws ++ more) .new = .ok (s, more)) ∧
      s.done.Perm ((List.range count).map fun index => (UInt64.ofNat index, helloWorld index)) := by
  have hids : (addedIds (clientTasks count)).Nodup := by
    rw [addedIds_clientTasks]
    refine List.Nodup.map_on (fun a ha b hb h => ?_) List.nodup_range
    rw [List.mem_range] at ha hb
    exact (ofNat_inj (by omega) (by omega)).mp h
  have hsize : SizesFit (clientTasks count) := by
    intro id queueNo data h
    obtain ⟨index, hindex, heq⟩ := List.mem_map.mp h
    rw [List.mem_range] at hindex
    obtain ⟨rfl, rfl, rfl⟩ := SendOp.add.inj heq
    have := (@length_helloWorld index (by omega)).2
    omega
  obtain ⟨ops, htasks, hids', hsize', htrans, hpend⟩ := transmitted_eq_emptied hids hsize
  rw [tasksOf_clientTasks] at htasks
  have hlen : (tasksOf ops).length = count := by rw [htasks, List.length_map, List.length_range]
  -- the texts are shorter than a segment and longer than eight bytes
  have hintact : ∀ t ∈ tasksOf ops, t.Intact := by
    rw [htasks]
    intro t ht
    obtain ⟨index, hindex, rfl⟩ := List.mem_map.mp ht
    rw [List.mem_range] at hindex
    have htext := @length_helloWorld index (by omega)
    have hs := queSizeMap_ge (queueOfIndex index)
    show (helloWorld index).length % queSizeMap (queueOfIndex index) ≠ 8
    rw [Nat.mod_eq_of_lt (by omega)]
    omega
  obtain ⟨s, hperm, hdone, hloop⟩ := sessionLoop_of_pending_nil hids' hsize' hpend
    (by rw [ne_eq, ← List.length_eq_zero_iff]; omega)
  refine ⟨_, s, htrans, fun more => ?_, ?_⟩
  · rw [← hlen, hloop, if_pos hintact]
  · rw [List.filter_eq_self.mpr fun t ht => by simpa using hintact t ht, htasks,
      List.map_map] at hperm
    have hprinted := hperm.map printed
    rw [← hdone, List.map_map] at hprinted
    refine hprinted.trans (List.Perm.of_eq (List.map_congr_left fun index _ => ?_))
    exact Prod.ext rfl (cString_helloWorld index)

/-- The count of the example. -/
theorem program_prints_twenty :
    ∃ raws s, transmitted (clientTasks 20) = some raws ∧
      (∀ more, sessionLoop 20 (raws ++ more) .new = .ok (s, more)) ∧
      s.done.Perm ((List.range 20).map fun index => (UInt64.ofNat index, helloWorld index)) :=
  program_prints (by decide) (by decide)

end AndrenBoost.Multiplex
