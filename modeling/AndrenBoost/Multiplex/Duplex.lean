import AndrenBoost.Multiplex.Program

/-!
# Both directions of a connection

A manager holds tasks to send and payloads received, so one manager on each side
serves a connection in both directions.  Here each side adds tasks and runs the sending
loop of `do_client` and the callbacks of `do_session` on the same manager; messages are
on their way in both directions, and the two sides take their steps in any order.  The
two directions do not meet: each is a run of a sender alone and a session alone, even
where both sides use the same ids.

## Main definitions

* `Duplex` — two sides, and the messages between them.
* `Duplex.step` — one step of one side, or what keeps it from one.
* `callsOf` — the calls of one side on its sending half.
* `OneWay` — one direction after such calls.
* `remaining` — the strings of one direction that have not been read.

## Main results

* `oneWay_run` — **a direction is a sender and a session of its own**.
* `duplex_prints` — what has been taken out and printed, at every moment of every run.
* `duplex_completes` — **all of it is taken out after as many messages as remain**, in
  whatever order the sides go on.

## References

The manager of `multiplex.cpp` with both halves in use, under `do_client` and
`do_session` of `example/test_multiplex_transfer.cpp`.
-/

namespace AndrenBoost.Multiplex

/-- The two ends of a connection. -/
inductive Side
  | client
  | server
  deriving DecidableEq, Repr

/-- The end across. -/
def Side.other : Side → Side
  | .client => .server
  | .server => .client

@[simp] theorem Side.other_other (x : Side) : x.other.other = x := by cases x <;> rfl

@[simp] theorem Side.other_ne (x : Side) : x.other ≠ x := by cases x <;> decide

theorem Side.eq_other_of_ne {x y : Side} (h : y ≠ x) : y = x.other := by
  cases x <;> cases y <;> first | exact absurd rfl h | rfl

/-- One end: its manager with the variables of the callbacks, and the list the sending
loop is at. -/
structure Peer where
  session : Session
  /-- `dataList`: what was fetched and `try_send` has not been given. -/
  dataList : List Bytes

/-- Two ends, and the messages a side has sent that the other one has not read, the
oldest first. -/
structure Duplex where
  peer : Side → Peer
  wire : Side → List Bytes

/-- The connection is there, and nothing has been done. -/
def Duplex.new : Duplex := ⟨fun _ => ⟨.new, []⟩, fun _ => []⟩

/-- What a side does next. -/
inductive Duplex.Act
  /-- A call on the sending half of its manager. -/
  | call (x : Side) (op : SendOp)
  /-- `try_send` of the next string of the list. -/
  | send (x : Side)
  /-- `try_recv` of the next message, and its parsing. -/
  | receive (x : Side)

/-- What keeps it from doing it. -/
inductive Duplex.Halt
  /-- The coroutine waits: for the list to be sent, for one to send, or for a message. -/
  | waits
  | fault (f : Fault)

/-- A manager with other tasks to send. -/
def MultiplexManager.withSend (m : MultiplexManager)
    (readySend : QueueNum → SortedMap UInt64 (List Bytes)) : MultiplexManager :=
  { m with readySend := readySend }

/-- A session whose manager has other tasks to send. -/
def Session.withSend (s : Session) (readySend : QueueNum → SortedMap UInt64 (List Bytes)) :
    Session :=
  { s with multiplex := s.multiplex.withSend readySend }

/-- A call on the sending half; what it fetched is next in the list. -/
def Peer.call (p : Peer) (op : SendOp) : Peer :=
  let r := stepOp p.session.multiplex op
  ⟨{ p.session with multiplex := r.2 }, p.dataList ++ r.1⟩

/-- An end becomes another. -/
def Duplex.setPeer (d : Duplex) (x : Side) (p : Peer) : Duplex :=
  { d with peer := Function.update d.peer x p }

/-- The messages of a side become others. -/
def Duplex.setWire (d : Duplex) (x : Side) (raws : List Bytes) : Duplex :=
  { d with wire := Function.update d.wire x raws }

/-- One step. -/
def Duplex.step (d : Duplex) : Act → Except Halt Duplex
  | .call x op =>
      match op, (d.peer x).dataList with
      -- the loop fetches again when the whole list has been sent
      | .fetch, _ :: _ => .error .waits
      | op, _ => .ok (d.setPeer x ((d.peer x).call op))
  | .send x =>
      match (d.peer x).dataList with
      | [] => .error .waits
      | raw :: dataList =>
          .ok ((d.setPeer x { d.peer x with dataList := dataList }).setWire x (d.wire x ++ [raw]))
  | .receive x =>
      match d.wire x.other with
      | [] => .error .waits
      | raw :: raws =>
          match (d.peer x).session.receive raw with
          | .error f => .error (.fault f)
          | .ok s => .ok ((d.setPeer x { d.peer x with session := s }).setWire x.other raws)

/-! ### The halves of a manager -/

theorem Session.withSend_self (s : Session) : s.withSend s.multiplex.readySend = s := rfl

/-- Parsing neither reads nor changes what is to be sent. -/
theorem parseRawData_withSend (m : MultiplexManager)
    (readySend : QueueNum → SortedMap UInt64 (List Bytes)) (raw : Bytes) :
    parseRawData (m.withSend readySend) raw
      = (parseRawData m raw).map fun r => (r.1.withSend readySend, r.2) := by
  by_cases ht : TakenAsPackage raw
  · rw [parseRawData_of_taken ht, parseRawData_of_taken ht]
    cases readBuffer raw sizeofPackageMeta (sizeField raw) <;> rfl
  · obtain ⟨ev, hparse⟩ := parseRawData_of_not_taken ht
    rw [hparse, hparse]
    rfl

theorem takeOutRecvInAdvance_withSend (m : MultiplexManager)
    (readySend : QueueNum → SortedMap UInt64 (List Bytes)) (id : UInt64) :
    takeOutRecvInAdvance (m.withSend readySend) id
      = ((takeOutRecvInAdvance m id).1, (takeOutRecvInAdvance m id).2.withSend readySend) := by
  simp only [takeOutRecvInAdvance, MultiplexManager.withSend]
  cases m.readyRecv.find? id <;> rfl

theorem onRecvPackage_withSend (s : Session)
    (readySend : QueueNum → SortedMap UInt64 (List Bytes)) (packageMeta : MultiplexPackageMeta) :
    onRecvPackage (s.withSend readySend) packageMeta
      = (onRecvPackage s packageMeta).withSend readySend := by
  simp only [onRecvPackage, Session.withSend, takeOutRecvInAdvance_withSend]
  split_ifs <;> rfl

theorem dispatch_withSend (s : Session) (readySend : QueueNum → SortedMap UInt64 (List Bytes))
    (ev : Option Event) :
    dispatch (s.withSend readySend) ev = (dispatch s ev).withSend readySend := by
  cases ev with
  | none => rfl
  | some ev =>
    cases ev with
    | newRequest header => rfl
    | recvPackage header => exact onRecvPackage_withSend s readySend header

/-- **A session reads the same whatever its manager has to send.** -/
theorem receive_withSend (s : Session) (readySend : QueueNum → SortedMap UInt64 (List Bytes))
    (raw : Bytes) : (s.withSend readySend).receive raw
      = (s.receive raw).map fun s => s.withSend readySend := by
  rw [Session.receive, Session.receive, Session.withSend, parseRawData_withSend]
  cases parseRawData s.multiplex raw with
  | error f => rfl
  | ok r => exact congrArg Except.ok (dispatch_withSend { s with multiplex := r.1 } readySend r.2)

/-- What a side has to send, after it has read a message. -/
theorem readySend_of_receive {s t : Session} {raw : Bytes} (h : s.receive raw = .ok t) :
    t.multiplex.readySend = s.multiplex.readySend := by
  have hself := receive_withSend s s.multiplex.readySend raw
  rw [Session.withSend_self, h] at hself
  exact congrArg (fun s => s.multiplex.readySend) (Except.ok.inj hself)

/-- A queue is fetched from what is to be sent. -/
theorem fetchQueues_withRecv (readyRecv : SortedMap UInt64 (List Bytes)) :
    ∀ (qs : List QueueNum) (m : MultiplexManager),
      fetchQueues qs { m with readyRecv := readyRecv }
        = ((fetchQueues qs m).1, { (fetchQueues qs m).2 with readyRecv := readyRecv }) := by
  intro qs
  induction qs with
  | nil => intro m; rfl
  | cons q qs ih =>
    intro m
    have hrest := ih { m with readySend := Function.update m.readySend q
                                (fetchQueue (queConcurrentMap q) (m.readySend q)).2 }
    simp only [fetchQueues, hrest]

/-- **A call on the sending half neither reads nor changes what has been received.** -/
theorem stepOp_eq_of_readySend {m m' : MultiplexManager} (h : m.readySend = m'.readySend)
    (op : SendOp) : (stepOp m op).1 = (stepOp m' op).1 ∧
      (stepOp m op).2 = m.withSend (stepOp m' op).2.readySend := by
  obtain ⟨send, recv⟩ := m
  obtain ⟨send', recv'⟩ := m'
  obtain rfl : send = send' := h
  cases op with
  | add id queueNo data => exact ⟨rfl, rfl⟩
  | fetch =>
    have heq := fetchQueues_withRecv recv QueueNum.all ⟨send, recv'⟩
    rw [stepOp, stepOp, fetchSomeDataToSend, fetchSomeDataToSend, heq]
    exact ⟨rfl, rfl⟩

/-! ### The steps -/

theorem peer_setPeer (d : Duplex) (x y : Side) (p : Peer) :
    (d.setPeer x p).peer y = if y = x then p else d.peer y := Function.update_apply _ _ _ _

@[simp] theorem peer_setPeer_self (d : Duplex) (x : Side) (p : Peer) :
    (d.setPeer x p).peer x = p := Function.update_self _ _ _

theorem wire_setWire (d : Duplex) (x y : Side) (raws : List Bytes) :
    (d.setWire x raws).wire y = if y = x then raws else d.wire y := Function.update_apply _ _ _ _

@[simp] theorem wire_setWire_self (d : Duplex) (x : Side) (raws : List Bytes) :
    (d.setWire x raws).wire x = raws := Function.update_self _ _ _

@[simp] theorem wire_setPeer (d : Duplex) (x : Side) (p : Peer) :
    (d.setPeer x p).wire = d.wire := rfl

@[simp] theorem peer_setWire (d : Duplex) (x : Side) (raws : List Bytes) :
    (d.setWire x raws).peer = d.peer := rfl

namespace Duplex

theorem step_call_eq_ok {d d' : Duplex} {x : Side} {op : SendOp} :
    d.step (.call x op) = .ok d' ↔
      (op = .fetch → (d.peer x).dataList = []) ∧ d.setPeer x ((d.peer x).call op) = d' := by
  cases op with
  | add id queueNo data => simp [step]
  | fetch => cases h : (d.peer x).dataList <;> simp [step, h]

theorem step_send_eq_ok {d d' : Duplex} {x : Side} :
    d.step (.send x) = .ok d' ↔ ∃ raw dataList, (d.peer x).dataList = raw :: dataList ∧
      (d.setPeer x { d.peer x with dataList := dataList }).setWire x (d.wire x ++ [raw]) = d' := by
  rw [step]
  cases h : (d.peer x).dataList <;> simp

theorem step_receive_eq_ok {d d' : Duplex} {x : Side} :
    d.step (.receive x) = .ok d' ↔ ∃ raw raws s, d.wire x.other = raw :: raws ∧
      (d.peer x).session.receive raw = .ok s ∧
        (d.setPeer x { d.peer x with session := s }).setWire x.other raws = d' := by
  rw [step]
  cases h : d.wire x.other with
  | nil => simp
  | cons raw raws => cases hs : (d.peer x).session.receive raw <;> simp [hs]

/-- Only reading a message can be a fault. -/
theorem step_eq_fault {d : Duplex} {a : Act} {f : Fault} (h : d.step a = .error (.fault f)) :
    ∃ x raw raws, a = .receive x ∧ d.wire x.other = raw :: raws ∧
      (d.peer x).session.receive raw = .error f := by
  cases a with
  | call x op =>
    cases op with
    | add id queueNo data => simp [step] at h
    | fetch => cases hl : (d.peer x).dataList <;> simp [step, hl] at h
  | send x => cases hl : (d.peer x).dataList <;> simp [step, hl] at h
  | receive x =>
    cases hw : d.wire x.other with
    | nil => simp [step, hw] at h
    | cons raw raws =>
      cases hs : (d.peer x).session.receive raw with
      | error f' =>
        -- there is one kind of fault
        obtain rfl : f = f' := by cases f; cases f'; rfl
        exact ⟨x, raw, raws, rfl, hw, hs⟩
      | ok s => simp [step, hw, hs] at h

end Duplex

/-! ### One direction -/

/-- The calls of a side on its sending half, by an action. -/
def callOf (x : Side) : Duplex.Act → List SendOp
  | .call y op => if y = x then [op] else []
  | .send _ => []
  | .receive _ => []

/-- The calls of a side on its sending half, in order. -/
def callsOf (x : Side) (acts : List Duplex.Act) : List SendOp := acts.flatMap (callOf x)

theorem callsOf_cons (x : Side) (a : Duplex.Act) (acts : List Duplex.Act) :
    callsOf x (a :: acts) = callOf x a ++ callsOf x acts := List.flatMap_cons

theorem callsOf_append (x : Side) (acts acts' : List Duplex.Act) :
    callsOf x (acts ++ acts') = callsOf x acts ++ callsOf x acts' := List.flatMap_append

theorem tasksOf_append (ops' : List SendOp) : ∀ ops : List SendOp,
    tasksOf (ops ++ ops') = tasksOf ops ++ tasksOf ops' := by
  intro ops
  induction ops with
  | nil => rfl
  | cons op ops ih =>
    cases op with
    | add id queueNo data => rw [List.cons_append, tasksOf, tasksOf, ih, List.cons_append]
    | fetch => exact ih

/-- The sizes are a matter of the tasks. -/
theorem sizesFit_iff {ops : List SendOp} :
    SizesFit ops ↔ ∀ t ∈ tasksOf ops, t.data.length < 2 ^ 64 :=
  ⟨fun h t ht => h t.id t.queueNo t.data (mem_tasksOf ht),
    fun h _ _ _ hadd => h _ (mem_tasksOf_of_add hadd)⟩

/-- The direction that begins at `x`, after the given calls of `x`: the other side has
read `seen`, which would have made `s` of a session alone. -/
structure OneWay (x : Side) (ops : List SendOp) (seen : List Bytes) (s : Session)
    (d : Duplex) : Prop where
  /-- What is to be sent is what a manager that only sends would have. -/
  sending : (d.peer x).session.multiplex.readySend = (runOps .new ops).2.readySend
  /-- No string is lost, none comes twice, and they keep their order. -/
  strings : seen ++ d.wire x ++ (d.peer x).dataList = (runOps .new ops).1
  run : seen.foldlM Session.receive .new = .ok s
  /-- The other side is that session, but for what it has to send itself. -/
  received : (d.peer x.other).session
    = s.withSend (d.peer x.other).session.multiplex.readySend

theorem oneWay_new (x : Side) : OneWay x [] [] .new .new := ⟨rfl, rfl, rfl, rfl⟩

section Direction

variable {x : Side} {ops : List SendOp} {seen : List Bytes} {s : Session} {d d' : Duplex}
  (h : OneWay x ops seen s d)
include h

/-- Every string of the direction is one that the sender has cut. -/
theorem OneWay.mem_runOps {raw : Bytes} (hraw : raw ∈ seen ++ d.wire x) :
    raw ∈ (runOps .new ops).1 := by
  rw [← h.strings]
  exact List.mem_append_left _ hraw

/-- A call of the side itself. -/
theorem OneWay.call (op : SendOp) :
    OneWay x (ops ++ [op]) seen s (d.setPeer x ((d.peer x).call op)) := by
  obtain ⟨hout, hnext⟩ := stepOp_eq_of_readySend h.sending op
  constructor
  · rw [peer_setPeer_self, runOps_append, Peer.call, hnext]
    rfl
  · rw [wire_setPeer, peer_setPeer_self, runOps_append, Peer.call, ← List.append_assoc, h.strings,
      hout]
    simp [runOps]
  · exact h.run
  · rw [peer_setPeer, if_neg x.other_ne]
    exact h.received

/-- A call of the other side. -/
theorem OneWay.call_other (op : SendOp) :
    OneWay x ops seen s (d.setPeer x.other ((d.peer x.other).call op)) := by
  have hnext := (stepOp_eq_of_readySend (m := (d.peer x.other).session.multiplex) rfl op).2
  constructor
  · rw [peer_setPeer, if_neg x.other_ne.symm]
    exact h.sending
  · rw [wire_setPeer, peer_setPeer, if_neg x.other_ne.symm]
    exact h.strings
  · exact h.run
  · rw [peer_setPeer_self, Peer.call, hnext, h.received]
    rfl

/-- A string is sent. -/
theorem OneWay.send {raw : Bytes} {dataList : List Bytes}
    (hlist : (d.peer x).dataList = raw :: dataList) :
    OneWay x ops seen s
      ((d.setPeer x { d.peer x with dataList := dataList }).setWire x (d.wire x ++ [raw])) := by
  constructor
  · simpa using h.sending
  · rw [← h.strings, hlist]
    simp
  · exact h.run
  · rw [peer_setWire, peer_setPeer, if_neg x.other_ne]
    exact h.received

/-- The other side sends one. -/
theorem OneWay.send_other (dataList raws : List Bytes) :
    OneWay x ops seen s
      ((d.setPeer x.other { d.peer x.other with dataList := dataList }).setWire x.other raws) := by
  constructor
  · rw [peer_setWire, peer_setPeer, if_neg x.other_ne.symm]
    exact h.sending
  · rw [peer_setWire, peer_setPeer, wire_setWire, if_neg x.other_ne.symm, if_neg x.other_ne.symm]
    exact h.strings
  · exact h.run
  · simpa using h.received

/-- The other side reads a message: it does what the session alone does. -/
theorem OneWay.receive_other {raw : Bytes} {raws : List Bytes} {t : Session}
    (hwire : d.wire x = raw :: raws) (ht : (d.peer x.other).session.receive raw = .ok t) :
    ∃ s', OneWay x ops (seen ++ [raw]) s'
      ((d.setPeer x.other { d.peer x.other with session := t }).setWire x raws) := by
  rw [h.received, receive_withSend] at ht
  cases hs : s.receive raw with
  | error f => simp [hs, Except.map] at ht
  | ok s' =>
    obtain rfl := Except.ok.inj ((congrArg (Except.map _) hs).symm.trans ht)
    refine ⟨s', ?_, ?_, ?_, ?_⟩
    · rw [peer_setWire, peer_setPeer, if_neg x.other_ne.symm]
      exact h.sending
    · rw [peer_setWire, peer_setPeer, if_neg x.other_ne.symm, wire_setWire_self, ← h.strings, hwire]
      simp
    · exact Component.foldlM_append_eq_ok.mpr
        ⟨s, h.run, Component.foldlM_cons_eq_ok.mpr ⟨s', hs, rfl⟩⟩
    · rw [peer_setWire, peer_setPeer_self]
      rfl

/-- The side itself reads one. -/
theorem OneWay.receive {raw : Bytes} {raws : List Bytes} {t : Session}
    (ht : (d.peer x).session.receive raw = .ok t) :
    OneWay x ops seen s
      ((d.setPeer x { d.peer x with session := t }).setWire x.other raws) := by
  constructor
  · rw [peer_setWire, peer_setPeer_self, readySend_of_receive ht]
    exact h.sending
  · rw [peer_setWire, peer_setPeer_self, wire_setWire, if_neg x.other_ne.symm]
    exact h.strings
  · exact h.run
  · rw [peer_setWire, peer_setPeer, if_neg x.other_ne]
    exact h.received

/-- **What a step makes of a direction.** -/
theorem oneWay_step {a : Duplex.Act} (hstep : d.step a = .ok d') :
    ∃ seen' s', OneWay x (ops ++ callOf x a) seen' s' d' := by
  cases a with
  | call y op =>
    obtain ⟨-, rfl⟩ := Duplex.step_call_eq_ok.mp hstep
    by_cases hy : y = x
    · subst hy
      rw [callOf, if_pos rfl]
      exact ⟨_, _, h.call op⟩
    · obtain rfl := Side.eq_other_of_ne hy
      rw [callOf, if_neg hy, List.append_nil]
      exact ⟨_, _, h.call_other op⟩
  | send y =>
    obtain ⟨raw, dataList, hlist, rfl⟩ := Duplex.step_send_eq_ok.mp hstep
    rw [callOf, List.append_nil]
    by_cases hy : y = x
    · subst hy
      exact ⟨_, _, h.send hlist⟩
    · obtain rfl := Side.eq_other_of_ne hy
      exact ⟨_, _, h.send_other dataList _⟩
  | receive y =>
    obtain ⟨raw, raws, t, hwire, ht, rfl⟩ := Duplex.step_receive_eq_ok.mp hstep
    rw [callOf, List.append_nil]
    by_cases hy : y = x
    · subst hy
      exact ⟨_, _, h.receive ht⟩
    · obtain rfl := Side.eq_other_of_ne hy
      rw [Side.other_other] at hwire ⊢
      obtain ⟨s', hs'⟩ := h.receive_other hwire ht
      exact ⟨_, s', hs'⟩

end Direction

/-- **A direction is a sender and a session of its own**, whatever the other direction
does and however the two are interleaved. -/
theorem oneWay_run {x : Side} : ∀ {acts : List Duplex.Act} {ops : List SendOp}
    {seen : List Bytes} {s : Session} {d d' : Duplex}, OneWay x ops seen s d →
      acts.foldlM Duplex.step d = .ok d' →
        ∃ seen' s', OneWay x (ops ++ callsOf x acts) seen' s' d' := by
  intro acts
  induction acts with
  | nil =>
    intro ops seen s d d' h hrun
    cases hrun
    rw [callsOf, List.flatMap_nil, List.append_nil]
    exact ⟨_, _, h⟩
  | cons a acts ih =>
    intro ops seen s d d' h hrun
    obtain ⟨d₁, hstep, hrest⟩ := Component.foldlM_cons_eq_ok.mp hrun
    obtain ⟨seen₁, s₁, h₁⟩ := oneWay_step h hstep
    rw [callsOf_cons, ← List.append_assoc]
    exact ih h₁ hrest

/-- A direction of a connection in use. -/
theorem exists_oneWay {acts : List Duplex.Act} {d : Duplex}
    (hrun : acts.foldlM Duplex.step .new = .ok d) (x : Side) :
    ∃ seen s, OneWay x (callsOf x acts) seen s d := oneWay_run (oneWay_new x) hrun

/-- No message makes either side read outside of it. -/
theorem step_ne_fault {acts : List Duplex.Act} {d : Duplex}
    (hrun : acts.foldlM Duplex.step .new = .ok d) (a : Duplex.Act) (f : Fault) :
    d.step a ≠ .error (.fault f) := by
  intro hfault
  obtain ⟨y, raw, raws, -, hwire, hread⟩ := Duplex.step_eq_fault hfault
  -- the message is one that the other side has cut
  obtain ⟨seen, s, h⟩ := exists_oneWay hrun y.other
  have hmem := h.mem_runOps (show raw ∈ seen ++ d.wire y.other by rw [hwire]; simp)
  obtain ⟨t, ht⟩ := exists_receive (wellFormed_of_mem_runOps hmem) (d.peer y).session
  rw [ht] at hread
  exact absurd hread (by simp)

/-- What the other side has taken out and printed is what the session alone has. -/
theorem OneWay.told {x : Side} {ops : List SendOp} {seen : List Bytes} {s : Session}
    {d : Duplex} (h : OneWay x ops seen s d) : (d.peer x.other).session.taken = s.taken
      ∧ (d.peer x.other).session.done = (d.peer x.other).session.taken.map printed := by
  rw [h.received]
  exact ⟨rfl, (told_run h.run).printed⟩

/-- **What has been taken out and printed, at every moment of every run of both sides.**  If
the ids one side has added are distinct, the other side has taken out each of its tasks
all of whose strings it has read, once, with its data, unless it leaves a segment of
eight bytes, and nothing else, whatever it has added itself, and has printed of each what
stands before the first zero byte; the strings it has read, those on their way and those
in the list are the strings fetched, in order.  No step is a fault. -/
theorem duplex_prints {acts : List Duplex.Act} {d : Duplex}
    (hrun : acts.foldlM Duplex.step .new = .ok d) (x : Side)
    (hids : (addedIds (callsOf x acts)).Nodup) (hsize : SizesFit (callsOf x acts)) :
    (∃ seen, seen ++ d.wire x ++ (d.peer x).dataList = (runOps .new (callsOf x acts)).1 ∧
      (d.peer x.other).session.taken.Perm (reported seen (tasksOf (callsOf x acts)))) ∧
    (d.peer x.other).session.done = (d.peer x.other).session.taken.map printed ∧
    ∀ a f, d.step a ≠ .error (.fault f) := by
  obtain ⟨seen, s, h⟩ := exists_oneWay hrun x
  obtain ⟨htaken, hdone⟩ := h.told
  refine ⟨⟨seen, h.strings, ?_⟩, hdone, step_ne_fault hrun⟩
  rw [htaken]
  refine taken_perm_of_run hids hsize ?_ h.run
  rw [← h.strings, List.append_assoc]
  exact List.prefix_append _ _

/-- Both sides send a task of their own under one id. -/
def bothWays : List Duplex.Act :=
  [.call .client (.add 7 .que0 [1]), .call .server (.add 7 .que1 [2]), .call .server .fetch,
    .call .client .fetch, .send .server, .send .client, .receive .client, .call .client .fetch,
    .send .client, .receive .server, .receive .server]

/-- What can be observed of a run that is not refused. -/
theorem exists_ok_of_map {A : Type*} {r : Except Duplex.Halt Duplex} {view : Duplex → A} {v : A}
    (h : r.toOption.map view = some v) : ∃ d, r = .ok d ∧ view d = v := by
  cases r with
  | error e => exact absurd h (by simp [Except.toOption])
  | ok d => exact ⟨d, rfl, Option.some.inj h⟩

theorem duplex_prints_bothWays : ∃ d, bothWays.foldlM Duplex.step .new = .ok d ∧
    (d.peer .server).session.taken.Perm [(7, [1])] := by
  obtain ⟨d, hrun, hrest⟩ := @exists_ok_of_map _ (bothWays.foldlM Duplex.step .new)
    (fun d => d.wire .client ++ (d.peer .client).dataList) [] (by decide +kernel)
  obtain ⟨⟨seen, hstrings, htaken⟩, -, -⟩ :=
    duplex_prints hrun .client (by decide) (sizesFit_iff.mpr (by decide))
  rw [List.append_assoc, hrest, List.append_nil] at hstrings
  have hreported : reported (runOps .new (callsOf .client bothWays)).1
      (tasksOf (callsOf .client bothWays)) = [(7, [1])] := by decide +kernel
  rw [hstrings, hreported] at htaken
  exact ⟨d, hrun, htaken⟩

/-! ### What remains -/

/-- The strings of a direction that have not been read: those waiting in the manager,
those in the list and those on their way. -/
def remaining (x : Side) (d : Duplex) : ℕ :=
  pendingCount (d.peer x).session.multiplex + (d.peer x).dataList.length + (d.wire x).length

/-- The messages of a direction that an action reads. -/
def readOf (x : Side) : Duplex.Act → ℕ
  | .call _ _ => 0
  | .send _ => 0
  | .receive y => if y = x.other then 1 else 0

/-- The messages of a direction that are read. -/
def readsOf (x : Side) (acts : List Duplex.Act) : ℕ := (acts.map (readOf x)).sum

theorem pendingCount_congr {m m' : MultiplexManager} (h : m.readySend = m'.readySend) :
    pendingCount m = pendingCount m' := by rw [pendingCount, pendingCount, h]

/-- No string is waiting when every deque is empty. -/
theorem pendingCount_eq_zero_iff {m : MultiplexManager} :
    pendingCount m = 0 ↔ ∀ k, m.pending k = [] := by
  constructor
  · intro hzero
    have hfetch := pendingCount_fetchSomeDataToSend m
    exact (fetch_eq_nil_iff m).mp (List.length_eq_zero_iff.mp (by omega))
  · intro h
    refine List.sum_eq_zero fun n hn => ?_
    obtain ⟨q, -, rfl⟩ := List.mem_map.mp hn
    refine List.sum_eq_zero fun n hn => ?_
    obtain ⟨e, he, rfl⟩ := List.mem_map.mp hn
    have hq := h (q, e.1)
    rw [MultiplexManager.pending, SortedMap.getD,
      SortedMap.find?_eq_some_iff.mpr (show (e.1, e.2) ∈ (m.readySend q).entries from he)] at hq
    exact List.length_eq_zero_iff.mpr hq

/-- A call that adds nothing leaves as much. -/
theorem pendingCount_call {p : Peer} {op : SendOp} (h : tasksOf [op] = []) :
    pendingCount (p.call op).session.multiplex + (p.call op).dataList.length
      = pendingCount p.session.multiplex + p.dataList.length := by
  cases op with
  | add id queueNo data => exact absurd h (List.cons_ne_nil _ _)
  | fetch =>
    have hcount := pendingCount_fetchSomeDataToSend p.session.multiplex
    simp only [Peer.call, stepOp, List.length_append]
    omega

/-- **Each message read is one less**, and nothing else changes their number as long as
no task is added. -/
theorem remaining_step {x : Side} {d d' : Duplex} {a : Duplex.Act} (hstep : d.step a = .ok d')
    (hnone : tasksOf (callOf x a) = []) : remaining x d' + readOf x a = remaining x d := by
  cases a with
  | call y op =>
    obtain ⟨-, rfl⟩ := Duplex.step_call_eq_ok.mp hstep
    by_cases hy : y = x
    · subst hy
      rw [callOf, if_pos rfl] at hnone
      have hcount := pendingCount_call (p := d.peer y) hnone
      simp only [remaining, readOf, peer_setPeer_self, wire_setPeer]
      omega
    · simp [remaining, readOf, peer_setPeer, Ne.symm hy]
  | send y =>
    obtain ⟨raw, dataList, hlist, rfl⟩ := Duplex.step_send_eq_ok.mp hstep
    by_cases hy : y = x
    · subst hy
      simp only [remaining, readOf, peer_setWire, peer_setPeer_self, wire_setWire_self, hlist,
        List.length_append, List.length_cons, List.length_nil]
      omega
    · simp [remaining, readOf, peer_setPeer, wire_setWire, Ne.symm hy]
  | receive y =>
    obtain ⟨raw, raws, t, hwire, ht, rfl⟩ := Duplex.step_receive_eq_ok.mp hstep
    by_cases hy : y = x
    · -- a message of the other direction
      subst hy
      have hcount := pendingCount_congr (readySend_of_receive ht)
      simp [remaining, readOf, wire_setWire, y.other_ne.symm, hcount]
    · obtain rfl := Side.eq_other_of_ne hy
      rw [Side.other_other] at hwire
      simp only [remaining, readOf, peer_setWire, peer_setPeer, if_neg x.other_ne.symm,
        Side.other_other, wire_setWire_self, hwire, List.length_cons, if_true]
      omega

theorem remaining_run {x : Side} : ∀ {more : List Duplex.Act} {d d' : Duplex},
    more.foldlM Duplex.step d = .ok d' → tasksOf (callsOf x more) = [] →
      remaining x d' + readsOf x more = remaining x d := by
  intro more
  induction more with
  | nil => intro d d' hrun _; cases hrun; rfl
  | cons a more ih =>
    intro d d' hrun hnone
    obtain ⟨d₁, hstep, hrest⟩ := Component.foldlM_cons_eq_ok.mp hrun
    rw [callsOf_cons, tasksOf_append, List.append_eq_nil_iff] at hnone
    have hone := remaining_step hstep hnone.1
    have hmore := ih hrest hnone.2
    rw [readsOf, List.map_cons, List.sum_cons, ← readsOf]
    omega

/-- When nothing remains, the session has been given all strings. -/
theorem OneWay.taken_of_remaining {x : Side} {ops : List SendOp} {seen : List Bytes} {s : Session}
    {d : Duplex} (h : OneWay x ops seen s d) (hids : (addedIds ops).Nodup) (hsize : SizesFit ops)
    (hzero : remaining x d = 0) : (d.peer x.other).session.taken.Perm
      (((tasksOf ops).filter fun t => t.Intact).map fun t => (t.id, t.data)) := by
  simp only [remaining, Nat.add_eq_zero_iff, List.length_eq_zero_iff] at hzero
  obtain ⟨⟨hcount, hlist⟩, hwire⟩ := hzero
  -- nothing is waiting in the manager
  rw [pendingCount_congr h.sending] at hcount
  have hpend := pendingCount_eq_zero_iff.mp hcount
  have hseen := h.strings
  rw [hlist, hwire, List.append_nil, List.append_nil] at hseen
  rw [h.told.1, ← reported_of_pending_nil hids hpend, ← hseen]
  exact taken_perm_of_run hids hsize (hseen ▸ List.prefix_refl _) h.run

/-- While something remains, a step brings a string nearer to the other side. -/
theorem OneWay.exists_step {x : Side} {ops : List SendOp} {seen : List Bytes} {s : Session}
    {d : Duplex} (h : OneWay x ops seen s d) (hpos : remaining x d ≠ 0) :
    (∃ d', d.step (.receive x.other) = .ok d') ∨ (∃ d', d.step (.send x) = .ok d') ∨
      ∃ d', d.step (.call x .fetch) = .ok d' ∧ (d'.peer x).dataList ≠ [] := by
  cases hwire : d.wire x with
  | cons raw raws =>
    -- it can be read
    have hmem := h.mem_runOps (show raw ∈ seen ++ d.wire x by rw [hwire]; simp)
    obtain ⟨t, ht⟩ := exists_receive (wellFormed_of_mem_runOps hmem) (d.peer x.other).session
    exact Or.inl ⟨_, Duplex.step_receive_eq_ok.mpr
      ⟨raw, raws, t, by rw [Side.other_other, hwire], ht, rfl⟩⟩
  | nil =>
    refine Or.inr ?_
    cases hlist : (d.peer x).dataList with
    | cons raw dataList =>
      exact Or.inl ⟨_, Duplex.step_send_eq_ok.mpr ⟨raw, dataList, hlist, rfl⟩⟩
    | nil =>
      -- all that remains is waiting in the manager
      refine Or.inr ⟨_, Duplex.step_call_eq_ok.mpr ⟨fun _ => hlist, rfl⟩, ?_⟩
      rw [peer_setPeer_self, Peer.call, hlist, List.nil_append]
      intro hnil
      refine hpos ?_
      rw [remaining, hwire, hlist, pendingCount_eq_zero_iff.mpr ((fetch_eq_nil_iff _).mp hnil)]
      rfl

/-- **All of it is taken out after as many messages as remain**, in whatever order the two
sides go on, as long as no task is added: no more than these can be read, when they
have been read every task is taken out that leaves no segment of eight bytes, and
printed up to its first zero byte, and before that the direction is never stuck. -/
theorem duplex_completes {acts more : List Duplex.Act} {d d' : Duplex}
    (hrun : acts.foldlM Duplex.step .new = .ok d) (hmore : more.foldlM Duplex.step d = .ok d')
    (x : Side) (hids : (addedIds (callsOf x acts)).Nodup) (hsize : SizesFit (callsOf x acts))
    (hnone : tasksOf (callsOf x more) = []) :
    readsOf x more ≤ remaining x d ∧
    (readsOf x more = remaining x d → (d'.peer x.other).session.taken.Perm
      (((tasksOf (callsOf x acts)).filter fun t => t.Intact).map fun t => (t.id, t.data))) ∧
    (d'.peer x.other).session.done = (d'.peer x.other).session.taken.map printed ∧
    (readsOf x more < remaining x d →
      (∃ d'', d'.step (.receive x.other) = .ok d'') ∨ (∃ d'', d'.step (.send x) = .ok d'') ∨
        ∃ d'', d'.step (.call x .fetch) = .ok d'' ∧ (d''.peer x).dataList ≠ []) := by
  have hcount := remaining_run hmore hnone
  obtain ⟨seen, s, h⟩ := exists_oneWay (Component.foldlM_append_eq_ok.mpr ⟨d, hrun, hmore⟩) x
  rw [callsOf_append] at h
  have htasks : tasksOf (callsOf x acts ++ callsOf x more) = tasksOf (callsOf x acts) := by
    rw [tasksOf_append, hnone, List.append_nil]
  refine ⟨by omega, fun hall => ?_, h.told.2, fun hlt => h.exists_step (by omega)⟩
  rw [← htasks]
  refine h.taken_of_remaining ?_ ?_ (by omega)
  · rwa [← map_id_tasksOf, htasks, map_id_tasksOf]
  · rwa [sizesFit_iff, htasks, ← sizesFit_iff]

/-- The client has fetched its announcement: two messages of its direction remain. -/
theorem duplex_completes_bothWays : ∃ d d', (bothWays.take 4).foldlM Duplex.step .new = .ok d ∧
    (bothWays.drop 4).foldlM Duplex.step d = .ok d' ∧
      (d'.peer .server).session.taken.Perm [(7, [1])] := by
  obtain ⟨d', hall, -⟩ := @exists_ok_of_map _ (bothWays.foldlM Duplex.step .new)
    (fun _ => ()) () (by decide +kernel)
  obtain ⟨d, hrun, hmore⟩ := Component.foldlM_append_eq_ok.mp
    (show (bothWays.take 4 ++ bothWays.drop 4).foldlM Duplex.step .new = .ok d' from hall)
  obtain ⟨d₁, hrun₁, htwo⟩ := @exists_ok_of_map _ ((bothWays.take 4).foldlM Duplex.step .new)
    (remaining .client) 2 (by decide +kernel)
  obtain rfl : d = d₁ := Except.ok.inj (hrun.symm.trans hrun₁)
  obtain ⟨-, htaken, -, -⟩ := duplex_completes hrun hmore .client (by decide)
    (sizesFit_iff.mpr (by decide)) rfl
  exact ⟨d, d', hrun, hmore, htaken (by rw [htwo]; rfl)⟩

end AndrenBoost.Multiplex
