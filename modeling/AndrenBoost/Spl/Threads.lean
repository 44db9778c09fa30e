import AndrenBoost.Lib.Reduction
import AndrenBoost.Spl.Messages

/-!
# A receiver shared by threads

`check` locks one part of the receiver after the other: the input queue to fetch a
chunk, the history to read it, the history again to store what is left, and the
queue of packages.  Between two of these other threads may push chunks, look at the
history or read packages.  Each of them uses one part only, and so a run of all the
threads is one in which every check happens at once.

## Main definitions

* `Checking` — how far a call of `check` has come.
* `Threads`, `Threads.advance` — a receiver with such a call under way, and the next
  section of the call.
* `Op`, `SplProtocol.call` — what other threads call, under one lock each.
* `Step`, `Call.Step` — the program of the threads, and the receiver whose calls
  happen one after another.
* `Threads.finish` — what the call under way comes to.

## Main results

* `Threads.finish_eq` — the sections of a call are a `check`.
* `footprint_event` — the parts each step uses.
* `threads_serializable` — **the threads see a receiver whose checks happen at once.**

## References

The locks of `spl_protocol_t::check` and of the other calls in
`src/spl_protocol.cpp`.
-/

namespace AndrenBoost.Spl

open StdString Reduction

/-! ### The sections of a check -/

/-- How far a call of `check` has come, with its local variables. -/
inductive Checking
  | idle
  /-- A chunk was fetched. -/
  | fetched (buf : Bytes)
  /-- The history was appended to it. -/
  | glued (buf : Bytes)
  /-- It was parsed, and what is left stored. -/
  | parsed (et : CheckType) (pack : SplPackage)
  deriving DecidableEq, Repr

/-- The number of sections behind. -/
def Checking.stage : Checking → ℕ
  | idle => 0
  | fetched _ => 1
  | glued _ => 2
  | parsed _ _ => 3

/-- A receiver and the thread that checks it. -/
structure Threads where
  protocol : SplProtocol
  checking : Checking
  deriving DecidableEq, Repr

namespace Threads

/-- The receiver while nobody checks it. -/
def rest (s : SplProtocol) : Threads := ⟨s, .idle⟩

/-- `spl_protocol_t::check` up to the end of the next lock, or up to its verdict. -/
def advance (t : Threads) : Except Fault (Option CheckType × Threads) :=
  let s := t.protocol
  match t.checking with
  | .idle =>
    match s.inputor with
    | none => .ok (some .failedEmptyInputor, rest s)
    | some input =>
      let (chunk, input) := input.fetchOne
      .ok (none, ⟨{ s with inputor := some input }, .fetched chunk⟩)
  | .fetched chunk =>
    let buf := chunk ++ s.historyData
    if buf = [] then .ok (some .failedNone, rest s) else .ok (none, ⟨s, .glued buf⟩)
  | .glued buf => do
    let r ← parser buf {}
    if 0 < r.ret then do
      let left ← SplProtocol.remainder buf r.ret
      return (none, ⟨{ s with historyData := left }, .parsed r.et r.pack⟩)
    else if r.ret ≠ 0 ∧ (r.et.hasOk ∨ r.ret < 0) then
      if r.et = .failedHead then .ok (some r.et, rest s)
      else .ok (some r.et, rest { s with historyData := buf })
    else .ok (none, ⟨s, .parsed r.et r.pack⟩)
  | .parsed et pack =>
    .ok (some et, rest { s with waitReadQue := s.waitReadQue ++ [pack] })

/-- What the call under way comes to if nobody interferes. -/
def finish (t : Threads) : Except Fault (CheckType × SplProtocol) :=
  let s := t.protocol
  match t.checking with
  | .idle => s.check
  | .fetched chunk =>
    let buf := chunk ++ s.historyData
    if buf = [] then .ok (.failedNone, s) else parser buf {} >>= s.settle buf
  | .glued buf => parser buf {} >>= s.settle buf
  | .parsed et pack => .ok (et, { s with waitReadQue := s.waitReadQue ++ [pack] })

/-- What is left to do after a section: nothing if it gave the verdict. -/
def resume : Option CheckType × Threads → Except Fault (CheckType × SplProtocol)
  | (some et, t) => .ok (et, t.protocol)
  | (none, t) => t.finish

/-- Settling an answer takes two sections. -/
theorem settle_eq_resume (s : SplProtocol) (buf : Bytes) :
    parser buf {} >>= s.settle buf = advance ⟨s, .glued buf⟩ >>= resume := by
  unfold advance
  dsimp only
  cases parser buf {} with
  | error e => rfl
  | ok r =>
    simp only [ok_bind]
    unfold SplProtocol.settle
    split_ifs
    · cases SplProtocol.remainder buf r.ret with
      | error e => rfl
      | ok left => rfl
    · rfl
    · rfl
    · rfl

/-- **The sections of a call are a check.** -/
theorem finish_eq (t : Threads) : t.finish = t.advance >>= resume := by
  obtain ⟨s, checking⟩ := t
  cases checking with
  | idle =>
    obtain ⟨history, que, inputor⟩ := s
    cases inputor with
    | none => rfl
    | some input => rfl
  | fetched chunk =>
    unfold finish advance
    dsimp only
    split_ifs
    · rfl
    · rfl
  | glued buf => exact settle_eq_resume s buf
  | parsed et pack => rfl

/-- A section gives the verdict or goes on to the next. -/
theorem advance_stage {t t' : Threads} {et : Option CheckType} (h : t.advance = .ok (et, t')) :
    if et.isSome then t'.checking = .idle else t'.checking.stage = t.checking.stage + 1 := by
  obtain ⟨s, checking⟩ := t
  unfold advance at h
  cases checking with
  | idle =>
    cases hi : s.inputor with
    | none => simp only [hi] at h; cases h; rfl
    | some input => simp only [hi] at h; cases h; rfl
  | fetched chunk =>
    dsimp only at h
    split_ifs at h
    · cases h; rfl
    · cases h; rfl
  | glued buf =>
    dsimp only at h
    cases hp : parser buf {} with
    | error e => rw [hp] at h; cases h
    | ok r =>
      rw [hp, ok_bind] at h
      split_ifs at h
      · cases hr : SplProtocol.remainder buf r.ret with
        | error e => rw [hr] at h; cases h
        | ok left => rw [hr] at h; cases h; rfl
      · cases h; rfl
      · cases h; rfl
      · cases h; rfl
  | parsed et pack => cases h; rfl

end Threads

/-! ### What other threads call -/

/-- A call that locks one part of the receiver, once. -/
inductive Op
  | pushData (data : Bytes)
  | bufCount
  | historyData
  | historyDataSize
  | readyPackageCount
  | fetchOnePackage
  deriving DecidableEq, Repr

/-- What a call returns. -/
inductive Reply
  | done
  | count (n : Int)
  | bytes (data : Bytes)
  | package (p : SplPackage)
  deriving DecidableEq, Repr

/-- A call and what it makes of the receiver. -/
def SplProtocol.call (s : SplProtocol) : Op → Except Fault (Reply × SplProtocol)
  | .pushData data => .ok (.done, s.pushData data)
  | .bufCount => .ok (.count (s.inputor.elim 0 fun i => (i.bufCount : Int)), s)
  | .historyData => .ok (.bytes s.historyData, s)
  | .historyDataSize => .ok (.count s.historyDataSize, s)
  | .readyPackageCount => .ok (.count s.readyPackageCount, s)
  | .fetchOnePackage => do
    let (p, s) ← s.fetchOnePackage
    return (.package p, s)

/-- Who makes a call. -/
inductive Role
  /-- The thread that checks. -/
  | checker
  /-- A user of the input queue. -/
  | producer
  /-- A reader of the history. -/
  | observer
  /-- A reader of the packages. -/
  | reader
  deriving DecidableEq, Repr

def Op.role : Op → Role
  | pushData _ | bufCount => .producer
  | historyData | historyDataSize => .observer
  | readyPackageCount | fetchOnePackage => .reader

/-- A section of a check, with its verdict if it is the last one, or a call. -/
inductive Event
  | advance (stage : ℕ) (et : Option CheckType)
  | call (op : Op) (reply : Reply)
  deriving DecidableEq, Repr

/-- One step of the program. -/
inductive Step : Threads → Event → Threads → Prop
  | advance {t t' : Threads} {et : Option CheckType} (h : t.advance = .ok (et, t')) :
      Step t (.advance t.checking.stage et) t'
  | call {s s' : SplProtocol} {checking : Checking} {op : Op} {reply : Reply}
      (h : s.call op = .ok (reply, s')) : Step ⟨s, checking⟩ (.call op reply) ⟨s', checking⟩

/-- A call that happens at once, and what it returns. -/
inductive Call
  | check (et : CheckType)
  | other (op : Op) (reply : Reply)
  deriving DecidableEq, Repr

/-- One step of a receiver that only one thread uses. -/
inductive Call.Step : SplProtocol → Call → SplProtocol → Prop
  | check {s s' : SplProtocol} {et : CheckType} (h : s.check = .ok (et, s')) :
      Step s (.check et) s'
  | other {s s' : SplProtocol} {op : Op} {reply : Reply} (h : s.call op = .ok (reply, s')) :
      Step s (.other op reply) s'

/-- Who makes a call. -/
def Call.role : Call → Role
  | .check _ => .checker
  | .other op _ => op.role

/-- The call an event ends. -/
def Event.call? : Event → Option Call
  | .advance _ et => et.map .check
  | .call op reply => some (.other op reply)

/-! ### The parts each step uses -/

/-- What a lock protects, and the local variables of a check. -/
inductive Part
  | inputor
  | historyData
  | waitReadQue
  | checking
  deriving DecidableEq, Repr

/-- What a part is made of. -/
def Part.Value : Part → Type
  | inputor => Option Inputor
  | historyData => Bytes
  | waitReadQue => List SplPackage
  | checking => Checking

/-- One part of the state. -/
def Threads.view : (p : Part) → Threads → p.Value
  | .inputor, t => t.protocol.inputor
  | .historyData, t => t.protocol.historyData
  | .waitReadQue, t => t.protocol.waitReadQue
  | .checking, t => t.checking

theorem Threads.ext_view {t u : Threads} (h : ∀ p, t.view p = u.view p) : t = u := by
  obtain ⟨⟨history, que, inputor⟩, checking⟩ := t
  obtain ⟨⟨history', que', inputor'⟩, checking'⟩ := u
  obtain rfl : inputor = inputor' := h .inputor
  obtain rfl : history = history' := h .historyData
  obtain rfl : que = que' := h .waitReadQue
  obtain rfl : checking = checking' := h .checking
  rfl

/-- The part a section uses. -/
def stagePart : ℕ → Part
  | 0 => .inputor
  | 1 => .historyData
  | 2 => .historyData
  | _ => .waitReadQue

/-- The part the calls of a thread use. -/
def Role.part : Role → Part
  | checker => .checking
  | producer => .inputor
  | observer => .historyData
  | reader => .waitReadQue

/-- The part the lock of an event protects. -/
def Event.part : Event → Part
  | .advance stage _ => stagePart stage
  | .call op _ => op.role.part

/-- The parts an event depends on. -/
def Event.reads (e : Event) : Set Part :=
  match e with
  | .advance _ _ => {.checking, e.part}
  | .call _ _ => {e.part}

/-- The parts an event changes: gluing and the readers of the history leave it as
it is. -/
def Event.writes (e : Event) : Set Part :=
  match e with
  | .advance stage _ => if stage = 1 then {.checking} else {.checking, e.part}
  | .call op _ => if op.role = .observer then ∅ else {e.part}

/-- The parts of two states that agree on all but one, and the local variables. -/
theorem Threads.view_eq {t t' : Threads} {part : Part}
    (hi : part ≠ .inputor → t'.protocol.inputor = t.protocol.inputor)
    (hh : part ≠ .historyData → t'.protocol.historyData = t.protocol.historyData)
    (hq : part ≠ .waitReadQue → t'.protocol.waitReadQue = t.protocol.waitReadQue) :
    ∀ p, p ≠ .checking → p ≠ part → t'.view p = t.view p := by
  intro p hp hpart
  cases p with
  | inputor => exact hi hpart.symm
  | historyData => exact hh hpart.symm
  | waitReadQue => exact hq hpart.symm
  | checking => exact absurd rfl hp

/-- A section goes by its own part of the state and the local variables, and keeps
the other parts. -/
theorem advance_congr {t u t' : Threads} {et : Option CheckType} {part : Part}
    (hpart : (Event.advance t.checking.stage et).part = part) (h : t.advance = .ok (et, t'))
    (hchecking : u.checking = t.checking) (hview : u.view part = t.view part) :
    ∃ u', u.advance = .ok (et, u') ∧ u'.checking = t'.checking ∧ u'.view part = t'.view part
      ∧ ∀ p, p ≠ .checking → p ≠ part → u'.view p = u.view p := by
  subst hpart
  obtain ⟨⟨history, que, inputor⟩, checking⟩ := t
  obtain ⟨⟨history', que', inputor'⟩, checking'⟩ := u
  cases hchecking
  cases checking with
  | idle =>
    cases hview
    cases inputor with
    | none =>
      cases h
      exact ⟨_, rfl, rfl, rfl, Threads.view_eq (fun _ => rfl) (fun _ => rfl) fun _ => rfl⟩
    | some input =>
      cases h
      exact ⟨_, rfl, rfl, rfl,
        Threads.view_eq (fun hne => absurd rfl hne) (fun _ => rfl) fun _ => rfl⟩
  | fetched chunk =>
    cases hview
    unfold Threads.advance at h ⊢
    dsimp only at h ⊢
    split_ifs at h ⊢
    · cases h
      exact ⟨_, rfl, rfl, rfl, Threads.view_eq (fun _ => rfl) (fun _ => rfl) fun _ => rfl⟩
    · cases h
      exact ⟨_, rfl, rfl, rfl, Threads.view_eq (fun _ => rfl) (fun _ => rfl) fun _ => rfl⟩
  | glued buf =>
    cases hview
    unfold Threads.advance at h ⊢
    dsimp only at h ⊢
    cases hp : parser buf {} with
    | error e => rw [hp] at h; cases h
    | ok r =>
      rw [hp, ok_bind] at h
      rw [ok_bind]
      -- whatever the answer, it is the history that is replaced or kept
      have hframe : ∀ {u' : Threads}, u'.protocol.inputor = inputor' →
          u'.protocol.waitReadQue = que' → ∀ p, p ≠ .checking → p ≠ .historyData →
            u'.view p = Threads.view p ⟨⟨history, que', inputor'⟩, .glued buf⟩ :=
        fun hi hq => Threads.view_eq (fun _ => hi) (fun hne => absurd rfl hne) fun _ => hq
      split_ifs at h ⊢
      · cases hr : SplProtocol.remainder buf r.ret with
        | error e => rw [hr] at h; cases h
        | ok left =>
          rw [hr] at h
          cases h
          exact ⟨_, rfl, rfl, rfl, hframe rfl rfl⟩
      · cases h
        exact ⟨_, rfl, rfl, rfl, hframe rfl rfl⟩
      · cases h
        exact ⟨_, rfl, rfl, rfl, hframe rfl rfl⟩
      · cases h
        exact ⟨_, rfl, rfl, rfl, hframe rfl rfl⟩
  | parsed et pack =>
    cases hview
    cases h
    exact ⟨_, rfl, rfl, rfl,
      Threads.view_eq (fun _ => rfl) (fun _ => rfl) fun hne => absurd rfl hne⟩

/-- So does a call, without the local variables. -/
theorem call_congr {s s' r : SplProtocol} {op : Op} {reply : Reply} {c d : Checking}
    {part : Part} (hpart : (Event.call op reply).part = part) (h : s.call op = .ok (reply, s'))
    (hview : Threads.view part ⟨r, d⟩ = Threads.view part ⟨s, c⟩) :
    ∃ r', r.call op = .ok (reply, r')
      ∧ Threads.view part ⟨r', d⟩ = Threads.view part ⟨s', c⟩
      ∧ ∀ p, p ≠ part → Threads.view p ⟨r', d⟩ = Threads.view p ⟨r, d⟩ := by
  subst hpart
  obtain ⟨history, que, inputor⟩ := s
  obtain ⟨history', que', inputor'⟩ := r
  cases op with
  | pushData data =>
    cases hview
    cases h
    refine ⟨_, rfl, rfl, fun p hne => ?_⟩
    cases p with
    | inputor => exact absurd rfl hne
    | _ => rfl
  | bufCount => cases hview; cases h; exact ⟨_, rfl, rfl, fun _ _ => rfl⟩
  | historyData => cases hview; cases h; exact ⟨_, rfl, rfl, fun _ _ => rfl⟩
  | historyDataSize => cases hview; cases h; exact ⟨_, rfl, rfl, fun _ _ => rfl⟩
  | readyPackageCount => cases hview; cases h; exact ⟨_, rfl, rfl, fun _ _ => rfl⟩
  | fetchOnePackage =>
    cases hview
    cases que with
    | nil => cases h
    | cons p que =>
      cases h
      refine ⟨_, rfl, rfl, fun p hne => ?_⟩
      cases p with
      | waitReadQue => exact absurd rfl hne
      | _ => rfl

/-- The readers of the history leave the receiver as it is. -/
theorem call_observer {s s' : SplProtocol} {op : Op} {reply : Reply} (hrole : op.role = .observer)
    (h : s.call op = .ok (reply, s')) : s' = s := by
  cases op with
  | historyData => cases h; rfl
  | historyDataSize => cases h; rfl
  | _ => cases hrole

/-- Gluing leaves the receiver as it is. -/
theorem advance_of_stage_one {t t' : Threads} {et : Option CheckType}
    (hstage : t.checking.stage = 1) (h : t.advance = .ok (et, t')) : t'.protocol = t.protocol := by
  obtain ⟨s, checking⟩ := t
  cases checking with
  | fetched chunk =>
    unfold Threads.advance at h
    dsimp only at h
    split_ifs at h
    · cases h; rfl
    · cases h; rfl
  | _ => cases hstage

/-- **The parts each step uses.** -/
theorem footprint_event (e : Event) : Footprint Step Threads.view e e.reads e.writes where
  frame := by
    intro t t' h p hp
    cases h with
    | @advance _ _ et h =>
      obtain ⟨u, hu, -, -, hframe⟩ := advance_congr (u := t) rfl h rfl rfl
      rw [h] at hu
      cases hu
      unfold Event.writes at hp
      dsimp only at hp
      split_ifs at hp with hstage
      · have hsame := advance_of_stage_one hstage h
        exact Threads.view_eq (fun _ => by rw [hsame]) (fun _ => by rw [hsame])
          (fun _ => by rw [hsame]) p hp hp
      · rw [Set.mem_insert_iff, Set.mem_singleton_iff, not_or] at hp
        exact hframe p hp.1 hp.2
    | @call s s' c op reply h =>
      unfold Event.writes at hp
      dsimp only at hp
      split_ifs at hp with hrole
      · rw [call_observer hrole h]
      · obtain ⟨r, hr, -, hframe⟩ := call_congr (r := s) (d := c) (c := c) rfl h rfl
        rw [h] at hr
        cases hr
        exact hframe p hp
  depends := by
    intro t t' u h hu
    cases h with
    | @advance _ _ et h =>
      have hchecking : u.checking = t.checking := hu .checking (Set.mem_insert _ _)
      obtain ⟨u', hu', hchecking', hview, -⟩ :=
        advance_congr rfl h hchecking (hu _ (Set.mem_insert_of_mem _ rfl))
      refine ⟨u', hchecking ▸ .advance hu', fun p hp => ?_⟩
      have hmem : p = .checking ∨ p = (Event.advance t.checking.stage et).part := by
        unfold Event.writes at hp
        dsimp only at hp
        split_ifs at hp
        · exact Or.inl hp
        · exact hp
      rcases hmem with rfl | rfl
      · exact hchecking'
      · exact hview
    | @call s s' c op reply h =>
      obtain ⟨r, d⟩ := u
      obtain ⟨r', hr', hview, -⟩ := call_congr (c := c) rfl h (hu _ rfl)
      refine ⟨⟨r', d⟩, .call hr', fun p hp => ?_⟩
      unfold Event.writes at hp
      dsimp only at hp
      split_ifs at hp
      · exact absurd hp (Set.notMem_empty p)
      · rw [Set.mem_singleton_iff.mp hp]
        exact hview

/-! ### Reduction of the threads -/

/-- The stage of a section. -/
def Event.stage : Event → Option ℕ
  | .advance stage _ => some stage
  | .call _ _ => none

/-- Who takes a step. -/
def Event.role : Event → Role
  | .advance _ _ => .checker
  | .call op _ => op.role

/-- A call of the producer goes in front of a check that has not fetched yet, one
of an observer in front of one that has not stored, and one of a reader in front of
one that has not delivered. -/
def Role.cut : Role → ℕ
  | checker => 0
  | producer => 1
  | observer => 3
  | reader => 4

def Event.cut (e : Event) : ℕ := e.role.cut

/-- Two steps of different threads, the second of which can be taken first. -/
def GivesWay (a b : Event) : Prop := Swaps Step a b ∧ a.role ≠ b.role

theorem swaps_events {a b : Event} (hab : ∀ p ∈ a.writes, p ∉ b.reads)
    (hba : ∀ p ∈ b.writes, p ∉ a.reads) (hww : ∀ p ∈ a.writes, p ∉ b.writes) : Swaps Step a b :=
  swaps_of_footprints (fun _ _ => Threads.ext_view) (footprint_event a) (footprint_event b)
    hab hba hww

theorem thread_check : Thread Step Event.stage (fun t => t.checking.stage) where
  own := by
    intro t t' e j h hstage
    cases h with
    | @advance _ _ et h =>
      cases hstage
      have hnext := Threads.advance_stage h
      refine ⟨rfl, ?_⟩
      split_ifs at hnext
      · rw [hnext]
        exact Or.inl rfl
      · exact Or.inr hnext
    | call h => cases hstage
  other := by
    intro t t' e h hstage
    cases h with
    | advance h => cases hstage
    | call h => rfl

theorem writes_subset_reads (e : Event) : e.writes ⊆ e.reads := by
  intro p hp
  unfold Event.writes at hp
  cases e with
  | advance stage et =>
    dsimp only at hp
    split_ifs at hp
    · exact Or.inl hp
    · exact hp
  | call op reply =>
    dsimp only at hp
    split_ifs at hp
    · exact absurd hp (Set.notMem_empty p)
    · exact hp

/-- Steps that touch no common part. -/
theorem swaps_of_disjoint {a b : Event} (h : ∀ p ∈ a.reads, p ∉ b.reads) :
    Swaps Step a b ∧ Swaps Step b a := by
  have ha := writes_subset_reads a
  have hb := writes_subset_reads b
  constructor
  · exact swaps_events (fun p hp => h p (ha hp)) (fun p hp hp' => h p hp' (hb hp))
      fun p hp hp' => h p (ha hp) (hb hp')
  · exact swaps_events (fun p hp hp' => h p hp' (hb hp)) (fun p hp => h p (ha hp))
      fun p hp hp' => h p (ha hp') (hb hp)

theorem Op.role_ne_checker (op : Op) : op.role ≠ .checker := by
  cases op <;> nofun

theorem stagePart_ne_inputor {j : ℕ} (h : 1 ≤ j) : stagePart j ≠ .inputor := by
  match j with
  | 1 => decide
  | 2 => decide
  | _ + 3 => exact (by decide : Part.waitReadQue ≠ .inputor)

theorem stagePart_ne_historyData {j : ℕ} (h : 3 ≤ j) : stagePart j ≠ .historyData := by
  match j with
  | _ + 3 => exact (by decide : Part.waitReadQue ≠ .historyData)

theorem stagePart_ne_waitReadQue {j : ℕ} (h : j < 3) : stagePart j ≠ .waitReadQue := by
  match j with
  | 0 => decide
  | 1 => decide
  | 2 => decide

/-- A section and a call of another part touch nothing in common. -/
theorem swaps_of_part_ne {op : Op} {reply : Reply} {j : ℕ} {et : Option CheckType}
    (h : stagePart j ≠ op.role.part) :
    Swaps Step (.advance j et) (.call op reply) ∧ Swaps Step (.call op reply) (.advance j et) := by
  have hchecking : op.role.part ≠ .checking := by
    cases op <;> nofun
  apply swaps_of_disjoint
  rintro p (rfl | rfl) hp
  · exact hchecking hp.symm
  · exact h hp

/-- A reader of the history can read it before it is glued to the chunk. -/
theorem swaps_gluing {op : Op} {reply : Reply} {et : Option CheckType}
    (hrole : op.role = .observer) : Swaps Step (.advance 1 et) (.call op reply) := by
  have hwrites : (Event.advance 1 et).writes = {.checking} := rfl
  have hnone : (Event.call op reply).writes = ∅ := if_pos hrole
  have hreads : (Event.call op reply).reads = {.historyData} := by
    show {op.role.part} = _
    rw [hrole]
    rfl
  apply swaps_events
  · rw [hwrites, hreads]
    rintro p rfl
    nofun
  · rw [hnone]
    exact fun p hp => absurd hp (Set.notMem_empty p)
  · rw [hnone]
    exact fun p _ => Set.notMem_empty p

/-- No check has more than four sections. -/
theorem stage_lt {t t' : Threads} {j : ℕ} {et : Option CheckType}
    (h : Step t (.advance j et) t') : j < 4 := by
  cases h with
  | advance h =>
    obtain ⟨s, checking⟩ := t
    unfold Checking.stage
    dsimp only
    split <;> decide

/-- Where the calls of each thread go. -/
theorem movers_check : Movers GivesWay Event.stage Event.cut where
  front := by
    intro c x j hc hx hcut
    cases c with
    | call op reply => cases hc
    | advance j et =>
      cases hc
      cases x with
      | advance j' et' => cases hx
      | call op reply =>
        refine ⟨?_, op.role_ne_checker.symm⟩
        change j + 1 < op.role.cut at hcut
        cases hrole : op.role with
        | checker => exact absurd hrole op.role_ne_checker
        | producer =>
          rw [hrole] at hcut
          exact absurd hcut (Nat.not_lt.mpr (Nat.le_add_left 1 j))
        | observer =>
          rw [hrole] at hcut
          change j + 1 < 3 at hcut
          by_cases h0 : j = 0
          · subst h0
            refine (swaps_of_part_ne ?_).1
            rw [hrole]
            exact (by decide : Part.inputor ≠ .historyData)
          · obtain rfl : j = 1 := by omega
            exact swaps_gluing hrole
        | reader =>
          rw [hrole] at hcut
          change j + 1 < 4 at hcut
          refine (swaps_of_part_ne ?_).1
          rw [hrole]
          exact stagePart_ne_waitReadQue (by omega)
  back := by
    intro x c j hx hc hcut
    cases c with
    | call op reply => cases hc
    | advance j et =>
      cases hc
      cases x with
      | advance j' et' => cases hx
      | call op reply =>
        refine ⟨?_, op.role_ne_checker⟩
        change op.role.cut ≤ j at hcut
        cases hrole : op.role with
        | checker => exact absurd hrole op.role_ne_checker
        | producer =>
          rw [hrole] at hcut
          refine (swaps_of_part_ne ?_).2
          rw [hrole]
          exact stagePart_ne_inputor hcut
        | observer =>
          rw [hrole] at hcut
          refine (swaps_of_part_ne ?_).2
          rw [hrole]
          exact stagePart_ne_historyData hcut
        | reader =>
          -- a reader's calls never go behind a check
          rw [hrole] at hcut
          intro t t₁ t' _ hstep
          exact absurd (stage_lt hstep) (Nat.not_lt.mpr hcut)
  others := by
    intro x y hx hy hcut
    cases x with
    | advance j et => cases hx
    | call op reply =>
      cases y with
      | advance j et => cases hy
      | call op' reply' =>
        change op.role.cut < op'.role.cut at hcut
        have hrole : op.role ≠ op'.role := fun heq => by
          rw [heq] at hcut
          exact lt_irrefl _ hcut
        refine ⟨(swaps_of_disjoint ?_).1, hrole⟩
        rintro p rfl hp
        have hpart : op.role.part = op'.role.part := hp
        revert hrole hpart
        cases op.role <;> cases op'.role <;> nofun

/-- Sections that nobody interrupts are a check. -/
theorem finish_of_sections {b : List Event} : ∀ {t t' : Threads}, Steps Step t b t' →
    b.map Event.stage = (List.range' t.checking.stage b.length).map some → b ≠ [] →
    t'.checking.stage = 0 →
    ∃ et, b.filterMap Event.call? = [.check et] ∧ t.finish = .ok (et, t'.protocol) := by
  induction b with
  | nil => intro t t' _ _ hne; exact absurd rfl hne
  | cons e b ih =>
    intro t t' hrun hstages _ hend
    obtain ⟨t₁, hstep, hrest⟩ := steps_cons_iff.mp hrun
    rw [List.map_cons, List.length_cons, List.range'_succ, List.map_cons, List.cons.injEq]
      at hstages
    cases hstep with
    | call h => cases hstages.1
    | @advance _ _ et h =>
      have hnext := Threads.advance_stage h
      cases b with
      | nil =>
        -- the last section gives the verdict
        rw [steps_nil_iff.mp hrest] at h hnext
        cases et with
        | none =>
          rw [Option.isSome_none, if_neg Bool.false_ne_true] at hnext
          omega
        | some et =>
          refine ⟨et, rfl, ?_⟩
          rw [Threads.finish_eq, h]
          rfl
      | cons e' b =>
        -- another section follows, so this one does not
        obtain ⟨t₂, hstep', -⟩ := steps_cons_iff.mp hrest
        have hstage' : e'.stage = some (t.checking.stage + 1) := by
          have := hstages.2
          rw [List.map_cons, List.length_cons, List.range'_succ, List.map_cons,
            List.cons.injEq] at this
          exact this.1
        have hpc := (thread_check.own hstep' hstage').1
        cases et with
        | some et =>
          rw [Option.isSome_some, if_pos rfl] at hnext
          rw [hnext] at hpc
          exact absurd hpc (Nat.succ_ne_zero _).symm
        | none =>
          obtain ⟨et, hcalls, hfinish⟩ := ih hrest (by rw [hpc]; exact hstages.2)
            (List.cons_ne_nil e' b) hend
          refine ⟨et, ?_, ?_⟩
          · rw [List.filterMap_cons]
            exact hcalls
          · rw [Threads.finish_eq, h]
            exact hfinish

theorem Checking.eq_idle {c : Checking} (h : c.stage = 0) : c = .idle := by
  cases c with
  | idle => rfl
  | _ => cases h

/-- A block of sections is one check. -/
theorem check_of_block {t t' : Threads} {b : List Event} (hb : IsBlock Event.stage b)
    (hne : b ≠ []) (hrun : Steps Step t b t') (hend : t'.checking.stage = 0) :
    ∃ c, b.filterMap Event.call? = [c] ∧ Call.Step t.protocol c t'.protocol := by
  have hstart : t.checking.stage = 0 := (hb.serial).pc_eq_zero thread_check hrun hend
  rw [IsBlock, List.range_eq_range', ← hstart] at hb
  obtain ⟨et, hcalls, hfinish⟩ := finish_of_sections hrun hb hne hend
  refine ⟨.check et, hcalls, .check ?_⟩
  obtain ⟨s, checking⟩ := t
  cases Checking.eq_idle hstart
  exact hfinish

/-- A call of another thread is one call. -/
theorem call_of_other {t t' : Threads} {e : Event} (he : e.stage = none) (h : Step t e t') :
    ∃ c, e.call? = some c ∧ Call.Step t.protocol c t'.protocol := by
  cases h with
  | advance h => cases he
  | @call s s' checking op reply h => exact ⟨.other op reply, rfl, .other h⟩

theorem role_of_call? {e : Event} {c : Call} (h : e.call? = some c) : c.role = e.role := by
  cases e with
  | advance stage et =>
    obtain ⟨et, -, rfl⟩ := Option.map_eq_some_iff.mp h
    rfl
  | call op reply => cases h; rfl

/-- What one thread sees of an event. -/
def Event.seenBy (role : Role) (e : Event) : Option Call :=
  e.call?.filter fun c => c.role = role

theorem seenBy_eq_none {role : Role} {e : Event} (h : e.role ≠ role) : e.seenBy role = none := by
  unfold Event.seenBy
  cases hc : e.call? with
  | none => rfl
  | some c =>
    rw [Option.filter_some, if_neg (by simpa [role_of_call? hc] using h)]

/-- **The threads see a receiver whose checks happen at once.**  In any run, from a
moment when nobody checks to another, the checks and the calls of the other threads
return what they return, and leave what they leave, in some run of whole calls; and
the calls of each thread come in the same order there. -/
theorem threads_serializable {s s' : SplProtocol} {w : List Event}
    (hrun : Steps Step (Threads.rest s) w (Threads.rest s')) :
    ∃ calls : List Call, Steps Call.Step s calls s'
      ∧ ∀ role, calls.filter (fun c => c.role = role)
          = (w.filterMap Event.call?).filter fun c => c.role = role := by
  obtain ⟨w', hmoves, hcalls⟩ := exists_atomic thread_check movers_check
    (fun a b (h : GivesWay a b) => h.1) (fun t t' e => call_of_other)
    (fun t t' b => check_of_block) hrun rfl rfl
  refine ⟨_, hcalls, fun role => ?_⟩
  rw [List.filter_filterMap, List.filter_filterMap]
  refine (hmoves.filterMap_eq fun a b hab => ?_).symm
  -- two steps of different threads are not both seen by one
  by_cases ha : a.role = role
  · exact Or.inr (seenBy_eq_none fun hb => hab.2 (ha.trans hb.symm))
  · exact Or.inl (seenBy_eq_none ha)

/-- A package comes in while another one is parsed, and is not counted before the
check has ended. -/
def pingRun : List Event :=
  [.advance 0 none, .call (.pushData ping.encode) .done, .advance 1 none,
    .call .readyPackageCount (.count 0), .advance 2 none, .call .bufCount (.count 1),
    .advance 3 (some .okAndMore), .call .fetchOnePackage (.package ping.delivered)]

/-- The sections in the middle of a check of one package. -/
theorem advance_ping (input : Option Inputor) :
    Threads.advance ⟨⟨[], [], input⟩, .fetched ping.encode⟩
        = .ok (none, ⟨⟨[], [], input⟩, .glued ping.encode⟩)
      ∧ Threads.advance ⟨⟨[], [], input⟩, .glued ping.encode⟩
        = .ok (none, ⟨⟨[], [], input⟩, .parsed .okAndMore ping.delivered⟩) := by
  have hparse : parser ping.encode {} = .ok ⟨.okAndMore, ping.delivered, ping.encode.length⟩ := by
    decide +kernel
  unfold Threads.advance
  dsimp only
  rw [List.append_nil, if_neg ping.encode_ne_nil, hparse]
  exact ⟨rfl, rfl⟩

theorem steps_pingRun :
    Steps Step (Threads.rest (.pushData .fresh ping.encode)) pingRun
      (Threads.rest (.pushData .fresh ping.encode)) :=
  .cons (.advance rfl) <| .cons (.call rfl) <| .cons (.advance (advance_ping _).1) <|
    .cons (.call rfl) <| .cons (.advance (advance_ping _).2) <| .cons (.call rfl) <|
    .cons (.advance rfl) <| .cons (.call rfl) <| .nil _

theorem threads_serializable_pings :
    ∃ calls : List Call,
      Steps Call.Step (.pushData .fresh ping.encode) calls (.pushData .fresh ping.encode)
      ∧ ∀ role, calls.filter (fun c => c.role = role)
          = (pingRun.filterMap Event.call?).filter fun c => c.role = role :=
  threads_serializable steps_pingRun

end AndrenBoost.Spl
