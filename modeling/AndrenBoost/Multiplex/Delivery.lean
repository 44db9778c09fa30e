import AndrenBoost.Multiplex.Announcement
import AndrenBoost.Multiplex.Session

/-!
# What a session takes out

The strings a sender puts on the wire and the session that reads them, together.
The wire mixes the tasks, and the session sorts them by id again; what it takes out for
an id, and prints, is decided by that id's strings.

## Main definitions

* `tasksOf` — the tasks a run adds.
* `partsFor` — the tasks added under a key, and how many strings of each were fetched
  before the next one took its place.
* `gluedFor` — what is taken out for an id whose tasks arrive in parts.
* `reported` — the tasks that are taken out.

## Main results

* `contentsFor_isolated` — **an id sees its own strings only**.
* `contentsFor_replaced` — **a task replaced when half sent comes out in front of the
  next one**.
* `session_prints` — **tasks with distinct ids are taken out and printed once each, when
  their last string has arrived**, at every moment of every run.
-/

namespace AndrenBoost.Multiplex

/-! ### The strings of one id -/

/-- No string of a sender makes the parser read outside of it. -/
theorem exists_receive {raw : Bytes} (h : WellFormed raw) (s : Session) :
    ∃ s', s.receive raw = .ok s' := by
  obtain ⟨m', ev, hparse, -⟩ := parseRawData_spec h s.multiplex
  exact ⟨_, by rw [Session.receive, hparse]; rfl⟩

theorem exists_receive_run {raws : List Bytes} (h : ∀ raw ∈ raws, WellFormed raw) (s : Session) :
    ∃ s', raws.foldlM Session.receive s = .ok s' :=
  Component.exists_foldlM s fun raw hraw => exists_receive (h raw hraw)

/-- What is taken out for an id when the first strings of some tasks arrive, one task
after the other; `left` are the bytes stored before. -/
def gluedFor (k : TaskKey) : Bytes → List (Bytes × ℕ) → List Bytes
  | _, [] => []
  | left, (data, n) :: parts =>
      if (dataList k.2 k.1 data).length ≤ n ∧ data.length % queSizeMap k.1 ≠ 8 then
        (left ++ data) :: gluedFor k [] parts
      else gluedFor k (left ++ (keptOf k.1 data n).flatten) parts

/-- The strings of such parts. -/
def stringsOf (k : TaskKey) (parts : List (Bytes × ℕ)) : List Bytes :=
  parts.flatMap fun part => (dataList k.2 k.1 part.1).take part.2

theorem stringsOf_cons (k : TaskKey) (part : Bytes × ℕ) (parts : List (Bytes × ℕ)) :
    stringsOf k (part :: parts)
      = (dataList k.2 k.1 part.1).take part.2 ++ stringsOf k parts := List.flatMap_cons

/-- **An id whose tasks arrive in parts.** -/
theorem contents_foldl_stringsOf (k : TaskKey) : ∀ {parts : List (Bytes × ℕ)} (c : Channel),
    (∀ part ∈ parts, part.1.length < 2 ^ 64) →
      (((stringsOf k parts).filter fun raw => StringFor k.2 raw).foldl Channel.act c).contents
        = c.contents ++ gluedFor k (c.stored.getD []).flatten parts := by
  intro parts
  induction parts with
  | nil => intro c _; simp [stringsOf, gluedFor]
  | cons part parts ih =>
    intro c h
    rw [List.forall_mem_cons] at h
    obtain ⟨data, n⟩ := part
    rw [stringsOf_cons, List.filter_append, List.foldl_append, ih _ h.2, gluedFor]
    by_cases hn : n = 0
    · -- nothing of the task arrives
      subst hn
      have hlen : ¬ (dataList k.2 k.1 data).length ≤ 0 := by rw [dataList, List.length_cons]; omega
      rw [if_neg fun hc => hlen hc.1]
      simp [keptOf]
    · rw [channel_dataList c k.2 k.1 h.1 hn]
      split_ifs with hfull hnil
      · simp
      · rw [hnil]
        simp
      · simp

/-- What is taken out for an id, by the strings that touch it. -/
theorem takenFor_of_filter {k : TaskKey} {parts : List (Bytes × ℕ)}
    (hparts : ∀ part ∈ parts, part.1.length < 2 ^ 64) {raws : List Bytes}
    (hwell : ∀ raw ∈ raws, WellFormed raw)
    (hfilter : (raws.filter fun raw => StringFor k.2 raw)
      = (stringsOf k parts).filter fun raw => StringFor k.2 raw) :
    ∃ s, raws.foldlM Session.receive .new = .ok s ∧ s.takenFor k.2 = gluedFor k [] parts := by
  obtain ⟨s, hrun⟩ := exists_receive_run hwell .new
  refine ⟨s, hrun, ?_⟩
  have hview := (isComponent_channel k.2).view_foldlM hrun
  rw [hfilter] at hview
  calc s.takenFor k.2 = (s.channel k.2).contents := rfl
    _ = gluedFor k [] parts := by
      rw [hview, contents_foldl_stringsOf k _ hparts]
      rfl

/-- **An id sees its own strings only**: whatever else the wire carries, as long as each
string holds the payload it declares, and wherever it stands, when the strings that
touch an id are those among the first `n` of one task, the session takes out for it the
task's data, once, if `n` covers the task and no segment has eight bytes, and nothing
before that; and it prints of the data what stands before the first zero byte. -/
theorem contentsFor_isolated {id : UInt64} {queueNo : QueueNum} {data : Bytes} {n : ℕ}
    (hdata : data.length < 2 ^ 64) {raws : List Bytes} (hwell : ∀ raw ∈ raws, WellFormed raw)
    (hown : (raws.filter fun raw => StringFor id raw)
      = ((dataList id queueNo data).take n).filter fun raw => StringFor id raw) :
    ∃ s, raws.foldlM Session.receive .new = .ok s
      ∧ s.takenFor id
        = (if (dataList id queueNo data).length ≤ n ∧ data.length % queSizeMap queueNo ≠ 8
          then [data] else [])
      ∧ s.contentsFor id = (s.takenFor id).map StdString.cString := by
  obtain ⟨s, hrun, htaken⟩ := @takenFor_of_filter (queueNo, id) [(data, n)]
    (by simpa using hdata) raws hwell (by rw [hown, stringsOf_cons, stringsOf, List.flatMap_nil,
      List.append_nil])
  refine ⟨s, hrun, htaken.trans ?_, (told_run hrun).contentsFor id⟩
  rw [gluedFor]
  split_ifs <;> rfl

/-- The two strings of a task of three bytes, one of them zero, with a package of another
id and a string with a foreign magic number between them. -/
theorem contentsFor_isolated_noise :
    ∃ s, [metaData 7 .que0 [1, 0, 2], packageOf 9 .que1 [5], blank 40,
        packageOf 7 .que0 [1, 0, 2]].foldlM Session.receive .new = .ok s
      ∧ s.takenFor 7 = [[1, 0, 2]] ∧ s.contentsFor 7 = [[1]] := by
  obtain ⟨s, hrun, htaken, hcontents⟩ := @contentsFor_isolated 7 .que0 [1, 0, 2] 2 (by decide)
    [metaData 7 .que0 [1, 0, 2], packageOf 9 .que1 [5], blank 40, packageOf 7 .que0 [1, 0, 2]]
    (by decide +kernel) (by decide +kernel)
  have hone : s.takenFor 7 = [[1, 0, 2]] := htaken.trans (by decide +kernel)
  rw [hone] at hcontents
  exact ⟨s, hrun, hone, hcontents.trans (by decide)⟩

/-! ### The parts a sender fetches -/

/-- The data added under `k`, in call order. -/
def tasksFor (k : TaskKey) : List SendOp → List Bytes
  | [] => []
  | .add id queueNo data :: ops =>
      if (queueNo, id) = k then data :: tasksFor k ops else tasksFor k ops
  | .fetch :: ops => tasksFor k ops

theorem addsFor_eq_map (k : TaskKey) : ∀ ops : List SendOp,
    addsFor k ops = (tasksFor k ops).map (dataList k.2 k.1) := by
  intro ops
  induction ops with
  | nil => rfl
  | cons op ops ih =>
    cases op with
    | add id queueNo data =>
      rw [addsFor, tasksFor]
      split_ifs with h
      · rw [ih, List.map_cons, ← h]
      · exact ih
    | fetch => exact ih

theorem mem_of_mem_tasksFor {k : TaskKey} {data : Bytes} : ∀ {ops : List SendOp},
    data ∈ tasksFor k ops → SendOp.add k.2 k.1 data ∈ ops := by
  intro ops
  induction ops with
  | nil => intro h; exact absurd h List.not_mem_nil
  | cons op ops ih =>
    intro h
    cases op with
    | add id queueNo data' =>
      rw [tasksFor] at h
      split_ifs at h with hk
      · rcases List.mem_cons.mp h with rfl | h
        · subst hk
          exact List.mem_cons_self
        · exact List.mem_cons_of_mem _ (ih h)
      · exact List.mem_cons_of_mem _ (ih h)
    | fetch => exact List.mem_cons_of_mem _ (ih h)

/-- The tasks added under `k`, each with the number of its strings that had been
fetched when the next one took its place, or by now. -/
def partsFor (k : TaskKey) (ops : List SendOp) : List (Bytes × ℕ) :=
  List.zipWith (fun data left => (data, (dataList k.2 k.1 data).length - left.length))
    (tasksFor k ops) ((discardedFor k .new ops).tail ++ [(runOps .new ops).2.pending k])

/-- Blocks that end in the given pieces begin with what the pieces leave. -/
theorem flatten_eq_flatMap_zipWith {A B : Type*} (f : B → List A) :
    ∀ {kept left : List (List A)} {bs : List B}, kept.length = left.length →
      List.zipWith (· ++ ·) kept left = bs.map f →
        kept.flatten = (List.zipWith (fun b l => (b, (f b).length - l.length)) bs left).flatMap
          fun p => (f p.1).take p.2 := by
  intro kept
  induction kept with
  | nil =>
    intro left bs hlen h
    obtain rfl := List.length_eq_zero_iff.mp hlen.symm
    simp
  | cons a kept ih =>
    intro left bs hlen h
    cases left with
    | nil => simp at hlen
    | cons l left =>
      cases bs with
      | nil => simp at h
      | cons b bs =>
        rw [List.zipWith_cons_cons, List.map_cons, List.cons.injEq] at h
        rw [List.zipWith_cons_cons, List.flatMap_cons, List.flatten_cons,
          ih (Nat.succ.inj hlen) h.2, ← h.1, List.length_append, Nat.add_sub_cancel,
          List.take_left']
        rfl

/-- The strings fetched of a key are the strings of its parts. -/
theorem fetchedFor_eq_stringsOf (ops : List SendOp) (k : TaskKey) :
    fetchedFor k (runOps .new ops).1 = stringsOf k (partsFor k ops) := by
  obtain ⟨kept, hlen, hzip, hflat⟩ := runOps_ledger ops k
  rw [hflat]
  -- the first block is the empty deque the run starts with
  cases hdisc : discardedFor k .new ops with
  | nil =>
    have hadds : addsFor k ops = [] := by
      rw [← List.length_eq_zero_iff, ← length_discardedFor k ops .new, hdisc, List.length_nil]
    rw [hdisc, hadds] at hzip
    rw [hadds] at hlen
    obtain ⟨first, rfl⟩ := List.length_eq_one_iff.mp (hlen : kept.length = 1)
    have hfirst : first = [] := by simpa using (List.append_eq_nil_iff.mp (List.cons.inj hzip).1).1
    have htasks : tasksFor k ops = [] := by
      rw [addsFor_eq_map] at hadds
      exact List.map_eq_nil_iff.mp hadds
    rw [hfirst, partsFor, htasks]
    rfl
  | cons d rest =>
    cases kept with
    | nil => simp at hlen
    | cons first kept =>
      have hlen' := length_discardedFor k ops .new
      rw [hdisc, List.length_cons] at hlen'
      rw [hdisc, List.cons_append, List.zipWith_cons_cons, List.cons.injEq,
        List.append_eq_nil_iff, addsFor_eq_map] at hzip
      rw [hzip.1.1, List.flatten_cons, List.nil_append, partsFor, hdisc, List.tail_cons]
      refine flatten_eq_flatMap_zipWith (dataList k.2 k.1) ?_ hzip.2
      rw [List.length_cons] at hlen
      rw [List.length_append, List.length_singleton]
      omega

/-! ### An id in one queue -/

/-- A string that touches an id carries it in its key. -/
theorem snd_of_stringFor {id : UInt64} {k : TaskKey} {raw : Bytes} (h : StringFor id raw)
    (hkey : keyOf raw = some k) : k.2 = id := by
  rcases h with ⟨-, hann, hid⟩ | ⟨⟨-, -, hdata⟩, hid⟩
  · rw [keyOf, if_pos hann] at hkey
    obtain ⟨q, -, rfl⟩ := Option.map_eq_some_iff.mp hkey
    exact hid
  · rw [keyOf, if_neg hdata.not_isAnnouncement, if_pos hdata] at hkey
    obtain ⟨q, -, rfl⟩ := Option.map_eq_some_iff.mp hkey
    exact hid

theorem mem_addsFor {id : UInt64} {queueNo : QueueNum} {data : Bytes} : ∀ {ops : List SendOp},
    SendOp.add id queueNo data ∈ ops →
      dataList id queueNo data ∈ addsFor (queueNo, id) ops := by
  intro ops
  induction ops with
  | nil => intro h; exact absurd h List.not_mem_nil
  | cons op ops ih =>
    intro h
    rcases List.mem_cons.mp h with rfl | hmem
    · rw [addsFor, if_pos rfl]
      exact List.mem_cons_self
    · cases op with
      | add id' queueNo' data' =>
        rw [addsFor]
        split_ifs
        · exact List.mem_cons_of_mem _ (ih hmem)
        · exact ih hmem
      | fetch => exact ih hmem

/-- When an id is added to one queue only, the strings that touch it are strings of that
queue. -/
theorem filter_stringFor_eq {ops : List SendOp} {k : TaskKey}
    (hother : ∀ q, q ≠ k.1 → addsFor (q, k.2) ops = []) {raws : List Bytes}
    (hraws : ∀ raw ∈ raws, raw ∈ (runOps .new ops).1) :
    (raws.filter fun raw => StringFor k.2 raw)
      = (fetchedFor k raws).filter fun raw => StringFor k.2 raw := by
  rw [fetchedFor, Fifo.sent, List.filter_filter]
  refine List.filter_congr fun raw hraw => ?_
  by_cases hstring : StringFor k.2 raw
  · obtain ⟨k', data, hadd, hmem⟩ := exists_dataList_of_mem (hraws raw hraw)
    have hkey := keyOf_of_mem_dataList hmem
    have hid := snd_of_stringFor hstring hkey
    have hqueue : k'.1 = k.1 := by
      by_contra hne
      have := mem_addsFor hadd
      rw [hid, hother _ hne] at this
      exact absurd this List.not_mem_nil
    have hk : k' = k := Prod.ext hqueue hid
    have : keyOf raw = some k := by rw [hkey, ← hk]
    simp [hstring, this]
  · simp [hstring]

theorem wellFormed_of_mem_runOps {ops : List SendOp} {raw : Bytes}
    (h : raw ∈ (runOps .new ops).1) : WellFormed raw := by
  obtain ⟨k, data, -, hmem⟩ := exists_dataList_of_mem h
  exact wellFormed_of_mem_dataList hmem

theorem fst_mem_of_mem_partsFor {k : TaskKey} {ops : List SendOp} {part : Bytes × ℕ}
    (h : part ∈ partsFor k ops) : part.1 ∈ tasksFor k ops := by
  obtain ⟨i, hi, rfl⟩ := List.mem_iff_getElem.mp h
  simp only [partsFor, List.getElem_zipWith]
  exact List.getElem_mem _

/-- **A task replaced when half sent comes out in front of the next one.**  In every run
of the sender in which an id is added to one queue only, however often, the session
that has read what was fetched has taken out for the id each task that was fetched to
its end and leaves no segment of eight bytes, behind the payloads that had been fetched
of the tasks replaced since the last one taken out; it has printed of each what stands
before the first zero byte. -/
theorem contentsFor_replaced (ops : List SendOp) (hsize : SizesFit ops) (k : TaskKey)
    (hother : ∀ q, q ≠ k.1 → addsFor (q, k.2) ops = []) :
    ∃ s, (runOps .new ops).1.foldlM Session.receive .new = .ok s
      ∧ s.takenFor k.2 = gluedFor k [] (partsFor k ops)
      ∧ s.contentsFor k.2 = (s.takenFor k.2).map StdString.cString := by
  have hparts : ∀ part ∈ partsFor k ops, part.1.length < 2 ^ 64 := fun part hpart =>
    hsize _ _ _ (mem_of_mem_tasksFor (fst_mem_of_mem_partsFor hpart))
  obtain ⟨s, hrun, htaken⟩ := takenFor_of_filter hparts
    (fun raw => @wellFormed_of_mem_runOps ops raw)
    (by rw [filter_stringFor_eq hother fun raw hraw => hraw, fetchedFor_eq_stringsOf])
  exact ⟨s, hrun, htaken, (told_run hrun).contentsFor k.2⟩

/-- A task of 70 bytes, replaced when its announcement and its first 64 bytes are on the
wire: the task that takes its place is taken out with these in front of it. -/
theorem contentsFor_replaced_once :
    ∃ s, (runOps .new [.add 1 .que0 (List.replicate 70 97), .fetch, .fetch, .add 1 .que0 [98],
        .fetch, .fetch]).1.foldlM Session.receive .new = .ok s
      ∧ s.takenFor 1 = [List.replicate 64 97 ++ [98]]
      ∧ s.contentsFor 1 = [List.replicate 64 97 ++ [98]] := by
  have hsize : SizesFit [.add 1 .que0 (List.replicate 70 97), .fetch, .fetch, .add 1 .que0 [98],
      .fetch, .fetch] := by
    intro id queueNo data h
    simp only [List.mem_cons, SendOp.add.injEq, reduceCtorEq, List.not_mem_nil, false_or,
      or_false] at h
    rcases h with ⟨-, -, rfl⟩ | ⟨-, -, rfl⟩ <;> decide
  obtain ⟨s, hrun, htaken, hcontents⟩ := contentsFor_replaced _ hsize (.que0, 1) (by
    intro q hq
    cases q
    · exact absurd rfl hq
    all_goals rfl)
  have hone : s.takenFor 1 = [List.replicate 64 97 ++ [98]] := htaken.trans (by decide +kernel)
  rw [hone] at hcontents
  exact ⟨s, hrun, hone, hcontents.trans (by decide)⟩

/-! ### Tasks with distinct ids -/

/-- A task added to a sender. -/
structure Task where
  id : UInt64
  queueNo : QueueNum
  data : Bytes
  deriving DecidableEq

/-- The key of a task. -/
def Task.key (t : Task) : TaskKey := (t.queueNo, t.id)

/-- The strings of a task. -/
def Task.strings (t : Task) : List Bytes := dataList t.id t.queueNo t.data

/-- The tasks added, in call order. -/
def tasksOf : List SendOp → List Task
  | [] => []
  | .add id queueNo data :: ops => ⟨id, queueNo, data⟩ :: tasksOf ops
  | .fetch :: ops => tasksOf ops

/-- A task leaves no segment of eight bytes. -/
def Task.Intact (t : Task) : Prop := t.data.length % queSizeMap t.queueNo ≠ 8

instance : DecidablePred Task.Intact := fun _ => inferInstanceAs (Decidable (_ ≠ _))

/-- All strings of a task are among the strings seen. -/
def Task.Seen (seen : List Bytes) (t : Task) : Prop := fetchedFor t.key seen = t.strings

instance (seen : List Bytes) : DecidablePred (Task.Seen seen) :=
  fun _ => inferInstanceAs (Decidable (_ = _))

/-- The tasks that a session takes out of some, by what it has seen. -/
def reported (seen : List Bytes) (tasks : List Task) : List (UInt64 × Bytes) :=
  (tasks.filter fun t => t.Seen seen ∧ t.Intact).map fun t => (t.id, t.data)

theorem map_id_tasksOf (ops : List SendOp) : (tasksOf ops).map Task.id = addedIds ops := by
  induction ops with
  | nil => rfl
  | cons op ops ih =>
    cases op with
    | add id queueNo data => rw [tasksOf, addedIds, List.map_cons, ih]
    | fetch => exact ih

theorem mem_tasksOf {t : Task} : ∀ {ops : List SendOp},
    t ∈ tasksOf ops → SendOp.add t.id t.queueNo t.data ∈ ops := by
  intro ops
  induction ops with
  | nil => intro h; exact absurd h List.not_mem_nil
  | cons op ops ih =>
    intro h
    cases op with
    | add id queueNo data =>
      rcases List.mem_cons.mp h with rfl | h
      · exact List.mem_cons_self
      · exact List.mem_cons_of_mem _ (ih h)
    | fetch => exact List.mem_cons_of_mem _ (ih h)

/-- Lists of pairs are the same up to order when they have the same for each key. -/
theorem perm_of_filter_fst {A B : Type*} [DecidableEq A] [DecidableEq B] {l l' : List (A × B)}
    (h : ∀ a, (l.filter fun p => p.1 = a) = l'.filter fun p => p.1 = a) : l.Perm l' := by
  rw [List.perm_iff_count]
  intro p
  rw [← List.count_filter (p := fun x : A × B => x.1 = p.1) (by simp), h,
    List.count_filter (by simp)]

/-- Of tasks with distinct ids one has a given id. -/
theorem filter_id_eq_singleton {t : Task} : ∀ {tasks : List Task}, (tasks.map Task.id).Nodup →
    t ∈ tasks → (tasks.filter fun t' => t'.id = t.id) = [t] := by
  intro tasks
  induction tasks with
  | nil => intro _ h; exact absurd h List.not_mem_nil
  | cons t' tasks ih =>
    intro hnodup h
    rw [List.map_cons, List.nodup_cons] at hnodup
    rcases List.mem_cons.mp h with rfl | h
    · rw [List.filter_cons_of_pos (by simp), List.filter_eq_nil_iff.mpr]
      intro x hx
      have : x.id ≠ t.id := fun hid => hnodup.1 (hid ▸ List.mem_map_of_mem hx)
      simpa using this
    · have hne : t'.id ≠ t.id := fun hid => hnodup.1 (hid ▸ List.mem_map_of_mem h)
      rw [List.filter_cons_of_neg (by simpa using hne), ih hnodup.2 h]

/-- What is fetched of a task alone under its key is a beginning of it. -/
theorem fetchedFor_isPrefix {ops : List SendOp} {k : TaskKey} {block : List Bytes}
    (h : addsFor k ops = [block]) : fetchedFor k (runOps .new ops).1 <+: block := by
  obtain ⟨kept, hlen, hzip, hflat⟩ := runOps_ledger ops k
  rw [h] at hlen hzip
  obtain ⟨first, second, rfl⟩ := List.length_eq_two.mp (hlen : kept.length = 2)
  obtain ⟨d, hdisc⟩ : ∃ d, discardedFor k .new ops = [d] := by
    rw [← List.length_eq_one_iff, length_discardedFor, h]
    rfl
  rw [hdisc] at hzip
  simp only [List.cons_append, List.nil_append, List.zipWith_cons_cons, List.zipWith_nil_left,
    List.cons.injEq, List.append_eq_nil_iff, and_true] at hzip
  rw [hflat, hzip.1.1, ← hzip.2]
  simp

/-- What a session takes out for the id of a task alone with it. -/
theorem takenFor_of_seen {ops : List SendOp} (hids : (addedIds ops).Nodup)
    (hsize : SizesFit ops) {seen : List Bytes} (hseen : seen <+: (runOps .new ops).1)
    {s : Session} (hrun : seen.foldlM Session.receive .new = .ok s) {t : Task}
    (ht : t ∈ tasksOf ops) :
    s.takenFor t.id = if t.Seen seen ∧ t.Intact then [t.data] else [] := by
  have hadd := mem_tasksOf ht
  obtain ⟨hself, hother⟩ := addsFor_of_nodup hids hadd
  -- the strings seen of the task are its first ones
  have hpre : fetchedFor t.key seen <+: t.strings :=
    (hseen.filter _).trans (fetchedFor_isPrefix hself)
  have hstrings : fetchedFor t.key seen
      = stringsOf t.key [(t.data, (fetchedFor t.key seen).length)] := by
    rw [stringsOf_cons, stringsOf, List.flatMap_nil, List.append_nil]
    exact List.prefix_iff_eq_take.mp hpre
  obtain ⟨s', hrun', htaken⟩ := @takenFor_of_filter t.key
    [(t.data, (fetchedFor t.key seen).length)] (by simpa using hsize _ _ _ hadd) seen
    (fun raw hraw => wellFormed_of_mem_runOps (hseen.subset hraw))
    (by rw [filter_stringFor_eq hother fun raw hraw => hseen.subset hraw, ← hstrings])
  rw [hrun] at hrun'
  cases hrun'
  -- all of them have been seen when they are as many
  have hall : t.strings.length ≤ (fetchedFor t.key seen).length ↔ t.Seen seen :=
    ⟨fun hle => hpre.eq_of_length_le hle, fun h => by rw [show fetchedFor t.key seen = _ from h]⟩
  rw [show t.id = t.key.2 from rfl, htaken, gluedFor]
  by_cases hdone : t.Seen seen ∧ t.Intact
  · rw [if_pos hdone, if_pos ⟨hall.mpr hdone.1, hdone.2⟩]
    rfl
  · rw [if_neg hdone, if_neg fun hc => hdone ⟨hall.mp hc.1, hc.2⟩]
    rfl

/-- Nothing is taken out for an id that was not added. -/
theorem takenFor_of_notMem {ops : List SendOp} {id : UInt64} (hid : id ∉ addedIds ops)
    {seen : List Bytes} (hseen : ∀ raw ∈ seen, raw ∈ (runOps .new ops).1) {s : Session}
    (hrun : seen.foldlM Session.receive .new = .ok s) : s.takenFor id = [] := by
  have hnone : (seen.filter fun raw => StringFor id raw) = [] :=
    List.filter_eq_nil_iff.mpr fun raw hraw hc => by
      obtain ⟨k, data, hadd, hmem⟩ := exists_dataList_of_mem (hseen raw hraw)
      have := snd_of_stringFor (by simpa using hc) (keyOf_of_mem_dataList hmem)
      exact hid (this ▸ mem_addedIds hadd)
  have hview := (isComponent_channel id).view_foldlM hrun
  rw [hnone] at hview
  exact congrArg Channel.contents hview

/-- What was taken out for an id, with the id. -/
theorem filter_taken (s : Session) (id : UInt64) :
    (s.taken.filter fun r => r.1 = id) = (s.takenFor id).map fun data => (id, data) := by
  rw [Session.takenFor, List.map_map]
  conv_lhs => rw [← List.map_id (s.taken.filter fun r => r.1 = id)]
  refine List.map_congr_left fun r hr => ?_
  have hid : r.1 = id := by simpa using (List.mem_filter.mp hr).2
  rw [← hid]
  rfl

theorem taken_perm_of_run {ops : List SendOp} (hids : (addedIds ops).Nodup)
    (hsize : SizesFit ops) {seen : List Bytes} (hseen : seen <+: (runOps .new ops).1)
    {s : Session} (hrun : seen.foldlM Session.receive .new = .ok s) :
    s.taken.Perm (reported seen (tasksOf ops)) := by
  refine perm_of_filter_fst fun id => ?_
  have hnodup : ((tasksOf ops).map Task.id).Nodup := by rwa [map_id_tasksOf]
  -- the tasks that are taken out for the id are among the tasks that have it
  have hfilter : ((reported seen (tasksOf ops)).filter fun r => r.1 = id)
      = reported seen ((tasksOf ops).filter fun t => t.id = id) := by
    rw [reported, reported, List.filter_map, List.filter_filter, List.filter_filter]
    congr 1
    refine List.filter_congr fun t _ => ?_
    simp [Bool.and_comm]
  rw [filter_taken, hfilter]
  by_cases hid : id ∈ addedIds ops
  · rw [← map_id_tasksOf] at hid
    obtain ⟨t, ht, rfl⟩ := List.mem_map.mp hid
    rw [takenFor_of_seen hids hsize hseen hrun ht, filter_id_eq_singleton hnodup ht, reported]
    by_cases hdone : t.Seen seen ∧ t.Intact
    · rw [if_pos hdone, List.filter_cons_of_pos (by simpa using hdone)]
      rfl
    · rw [if_neg hdone, List.filter_cons_of_neg (by simpa using hdone)]
      rfl
  · have hnone : ((tasksOf ops).filter fun t => t.id = id) = [] :=
      List.filter_eq_nil_iff.mpr fun t ht hc => hid (by
        rw [← map_id_tasksOf, ← show t.id = id by simpa using hc]
        exact List.mem_map_of_mem ht)
    rw [takenFor_of_notMem hid (fun raw hraw => hseen.subset hraw) hrun, hnone]
    rfl

/-- **Tasks with distinct ids are taken out and printed once each, when their last string
has arrived.**  At every moment of every run of the sender, and whatever beginning of
the strings fetched has reached the session, it has taken out the tasks all of whose
strings are among them, with their data, unless they leave a segment of eight bytes, and
nothing else; and it has printed of each what stands before the first zero byte. -/
theorem session_prints {ops : List SendOp} (hids : (addedIds ops).Nodup) (hsize : SizesFit ops)
    {seen : List Bytes} (hseen : seen <+: (runOps .new ops).1) :
    ∃ s, seen.foldlM Session.receive .new = .ok s
      ∧ s.taken.Perm (reported seen (tasksOf ops)) ∧ s.done = s.taken.map printed := by
  obtain ⟨s, hrun⟩ := exists_receive_run
    (fun raw hraw => wellFormed_of_mem_runOps (hseen.subset hraw)) .new
  exact ⟨s, hrun, taken_perm_of_run hids hsize hseen hrun, (told_run hrun).printed⟩

/-- Two tasks, one of which has all its strings on the wire after three fetches. -/
def twoTasks : List SendOp :=
  [.add 1 .que0 (List.replicate 70 97), .fetch, .add 2 .que5 [98], .fetch, .fetch]

theorem session_prints_one :
    ∃ s, ((runOps .new twoTasks).1.take 4).foldlM Session.receive .new = .ok s
      ∧ s.taken.Perm [(1, List.replicate 70 97)] ∧ s.done = s.taken.map printed := by
  have hsize : SizesFit twoTasks := by
    intro id queueNo data h
    simp only [twoTasks, List.mem_cons, SendOp.add.injEq, reduceCtorEq, List.not_mem_nil,
      false_or, or_false] at h
    rcases h with ⟨-, -, rfl⟩ | ⟨-, -, rfl⟩ <;> decide
  have hreported : reported ((runOps .new twoTasks).1.take 4) (tasksOf twoTasks)
      = [(1, List.replicate 70 97)] := by decide +kernel
  rw [← hreported]
  exact session_prints (by decide) hsize (List.take_prefix 4 _)

end AndrenBoost.Multiplex
