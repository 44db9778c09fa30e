import AndrenBoost.Spl.Exchange

/-!
# Receivers that share input queues

An input queue is an object of its own: it has its own lock, receivers point to it,
and `setInputor` makes a receiver point to another one, or to none.  So several
receivers, each with a thread that checks it, may fetch from one queue, and a receiver
may go from queue to queue with messages left over.  Each chunk of whole messages goes
to one receiver, and its messages come out of that one.

## Main definitions

* `Receiver`, `Pool` — receivers with their threads, and the queues they point to.
* `Pool.threads`, `Pool.store` — what the thread of a receiver sees, and what it
  leaves.
* `Checking.room`, `Threads.load` — the bytes a receiver may come to keep.
* `Reached o pushed got` — the states of the program; what was pushed to each queue,
  and what was read from each receiver.

## Main results

* `advance_inputor` — only the first section of a check looks at the queue.
* `Holds.replug` — a receiver with its messages at another queue.
* `shared_exactly_once` — **every chunk is fetched by one receiver, in the order of
  its queue, and comes out of it exactly once.**

## References

`inputor_t` and `setInputor` in `include/spl_protocol.h` and
`src/spl_protocol.cpp`.
-/

namespace AndrenBoost.Spl

open StdString

/-! ### Queues and receivers -/

/-- A receiver and the thread that checks it; `inputor` is the queue it points to. -/
structure Receiver (I : Type*) where
  historyData : Bytes := []
  waitReadQue : List SplPackage := []
  inputor : Option I := none
  checking : Checking := .idle

/-- Input queues and receivers. -/
structure Pool (I P : Type*) where
  inputors : I → Inputor := fun _ => {}
  receivers : P → Receiver I := fun _ => {}

namespace Receiver

variable {I : Type*} (r : Receiver I)

/-- What the thread of a receiver sees if this is the queue. -/
def threads (input : Option Inputor) : Threads :=
  ⟨⟨r.historyData, r.waitReadQue, input⟩, r.checking⟩

/-- What it leaves of the receiver. -/
def after (t : Threads) : Receiver I :=
  ⟨t.protocol.historyData, t.protocol.waitReadQue, r.inputor, t.checking⟩

end Receiver

namespace Pool

variable {I P : Type*} [DecidableEq I] [DecidableEq P]

/-- What the thread of a receiver sees. -/
def threads (o : Pool I P) (p : P) : Threads :=
  (o.receivers p).threads ((o.receivers p).inputor.map o.inputors)

/-- What it leaves. -/
def store (o : Pool I P) (p : P) (t : Threads) : Pool I P where
  inputors :=
    match (o.receivers p).inputor, t.protocol.inputor with
    | some i, some input => Function.update o.inputors i input
    | _, _ => o.inputors
  receivers := Function.update o.receivers p ((o.receivers p).after t)

/-- `inputor_t::push_data` on one of the queues. -/
def pushData (o : Pool I P) (i : I) (data : Bytes) : Pool I P :=
  { o with inputors := Function.update o.inputors i ((o.inputors i).pushData data) }

/-- `spl_protocol_t::setInputor` on one of the receivers. -/
def setInputor (o : Pool I P) (p : P) (input : Option I) : Pool I P :=
  { o with receivers := Function.update o.receivers p { o.receivers p with inputor := input } }

end Pool

/-! ### What a receiver may come to keep -/

/-- The bytes that may be in the history after the check. -/
def Checking.room (history : ℕ) : Checking → ℕ
  | fetched chunk => chunk.length + history
  | glued buf => max history buf.length
  | _ => history

/-- The bytes of the queue, and those that may be in the history. -/
def Threads.load (t : Threads) : ℕ :=
  t.protocol.pending + t.checking.room t.protocol.historyData.length

theorem length_le_room {s s' : SplProtocol} {c : Checking} {et : CheckType} (hc : c ≠ .idle)
    (h : Threads.finish ⟨s, c⟩ = .ok (et, s')) :
    s'.historyData.length ≤ c.room s.historyData.length := by
  have hparse : ∀ buf : Bytes, (parser buf {} >>= s.settle buf) = .ok (et, s') →
      s'.historyData.length ≤ max s.historyData.length buf.length := by
    intro buf h
    cases hp : parser buf {} with
    | error e => rw [hp] at h; cases h
    | ok r =>
      rw [hp, ok_bind] at h
      obtain ⟨-, -, -, hlen, -⟩ := settle_frame h
      exact hlen
  cases c with
  | idle => exact absurd rfl hc
  | fetched chunk =>
    unfold Threads.finish at h
    dsimp only at h
    split_ifs at h
    · cases h
      exact Nat.le_add_left _ _
    · have hlen := hparse _ h
      rwa [List.length_append, max_eq_right (Nat.le_add_left _ _)] at hlen
  | glued buf => exact hparse buf h
  | parsed et pack =>
    cases h
    exact le_refl _

/-- Only the first section of a check looks at the input queue. -/
theorem advance_inputor {s : SplProtocol} {c : Checking} {t' : Threads} {et : Option CheckType}
    (hc : c ≠ .idle) (h : Threads.advance ⟨s, c⟩ = .ok (et, t')) :
    t'.protocol.inputor = s.inputor
      ∧ t'.checking.room t'.protocol.historyData.length ≤ c.room s.historyData.length
      ∧ ∀ input, Threads.advance ⟨{ s with inputor := input }, c⟩
          = .ok (et, ⟨{ t'.protocol with inputor := input }, t'.checking⟩) := by
  cases c with
  | idle => exact absurd rfl hc
  | fetched chunk =>
    unfold Threads.advance at h ⊢
    dsimp only at h ⊢
    split_ifs at h ⊢
    · cases h
      exact ⟨rfl, Nat.le_add_left _ _, fun _ => rfl⟩
    · cases h
      refine ⟨rfl, ?_, fun _ => rfl⟩
      show max s.historyData.length (chunk ++ s.historyData).length ≤ _
      rw [List.length_append, max_eq_right (Nat.le_add_left _ _)]
      exact le_refl _
  | glued buf =>
    unfold Threads.advance at h ⊢
    dsimp only at h ⊢
    cases hp : parser buf {} with
    | error e => rw [hp] at h; cases h
    | ok r =>
      rw [hp, ok_bind] at h
      simp only [ok_bind]
      split_ifs at h ⊢
      · cases hr : SplProtocol.remainder buf r.ret with
        | error e => rw [hr] at h; cases h
        | ok left =>
          rw [hr] at h
          cases h
          refine ⟨rfl, ?_, fun _ => rfl⟩
          unfold SplProtocol.remainder at hr
          split_ifs at hr
          cases hr
          show (buf.drop r.ret.toNat).length ≤ _
          rw [List.length_drop]
          exact (Nat.sub_le _ _).trans (le_max_right _ _)
      · cases h
        exact ⟨rfl, le_max_left _ _, fun _ => rfl⟩
      · cases h
        exact ⟨rfl, le_max_right _ _, fun _ => rfl⟩
      · cases h
        exact ⟨rfl, le_max_left _ _, fun _ => rfl⟩
  | parsed et pack =>
    cases h
    exact ⟨rfl, le_refl _, fun _ => rfl⟩

/-- A receiver with its messages at another queue. -/
theorem Holds.replug {b : Mailbox Message} {s : SplProtocol} {c : Checking}
    (h : Holds b ⟨s, c⟩) {waiting : List (List Message)} (hne : ∀ g ∈ waiting, g ≠ [])
    (hdata : ∀ g ∈ waiting, ∀ m ∈ g, m.data ≠ [])
    (hload : Threads.load ⟨{ s with inputor := some ⟨waiting.map encodeAll⟩ }, c⟩ ≤ maxHeld) :
    Holds { b with waiting := waiting }
      ⟨{ s with inputor := some ⟨waiting.map encodeAll⟩ }, c⟩ := by
  have hall : ∀ {s' : SplProtocol}, Represents b s' →
      ∀ m ∈ Mailbox.undelivered { b with waiting := waiting }, m.data ≠ [] := by
    intro s' h m hm
    rcases List.mem_append.mp hm with hm | hm
    · obtain ⟨g, hg, hm⟩ := List.mem_flatten.mp hm
      exact hdata g hg m hm
    · exact h.data_ne_nil m (List.mem_append_right _ hm)
  cases h with
  | resting h => exact .resting ⟨rfl, h.historyData, h.waitReadQue, hne, hall h, hload⟩
  | @checking _ s' _ et hc hf h =>
    obtain ⟨new, hque, -, -, hframe⟩ := finish_frame hc hf
    refine .checking hc (hframe s.waitReadQue (some ⟨waiting.map encodeAll⟩))
      ⟨rfl, h.historyData, ?_, hne, hall h, ?_⟩
    · rw [← hque]
      exact h.waitReadQue
    · exact (Nat.add_le_add_left (length_le_room hc hf) _).trans hload

/-! ### One receiver -/

section Receiver

variable {I : Type*} {r : Receiver I} {left ready : List Message}

/-- The receiver keeps messages that it delivers and others that are ready, the check
under way counting as done; whatever its queue is. -/
def Receiver.Keeps (r : Receiver I) (left ready : List Message) : Prop :=
  ∃ waiting, Holds ⟨waiting, left, ready⟩ (r.threads (some ⟨waiting.map encodeAll⟩))

namespace Receiver.Keeps

theorem holds (h : r.Keeps left ready) {waiting : List (List Message)}
    (hne : ∀ g ∈ waiting, g ≠ []) (hdata : ∀ g ∈ waiting, ∀ m ∈ g, m.data ≠ [])
    (hload : (r.threads (some ⟨waiting.map encodeAll⟩)).load ≤ maxHeld) :
    Holds ⟨waiting, left, ready⟩ (r.threads (some ⟨waiting.map encodeAll⟩)) := by
  obtain ⟨waiting', h⟩ := h
  exact h.replug hne hdata hload

/-- No later section of a check faults, and each leaves the messages where they
are. -/
theorem advance (h : r.Keeps left ready) (hc : r.checking ≠ .idle) (input : Option Inputor) :
    ∃ et t', (r.threads input).advance = .ok (et, t') ∧ t'.protocol.inputor = input
      ∧ t'.load ≤ (r.threads input).load ∧ (r.after t').Keeps left ready := by
  obtain ⟨waiting, h⟩ := h
  obtain ⟨⟨et, t⟩, ht⟩ := h.exists_advance
  obtain ⟨hinput, hroom, hframe⟩ := advance_inputor hc ht
  have hkept := h.advance ht
  have hidle : (r.threads (some ⟨waiting.map encodeAll⟩)).checking ≠ .idle := hc
  rw [if_neg hidle] at hkept
  refine ⟨et, _, hframe input, rfl, Nat.add_le_add_left hroom _, waiting, ?_⟩
  obtain ⟨⟨history, que, input'⟩, c⟩ := t
  cases hinput
  exact hkept

/-- A package that is read was the first that is ready. -/
theorem read (h : r.Keeps left ready) {input : Option Inputor} {p : SplPackage} {s' : SplProtocol}
    (hfetch : (r.threads input).protocol.fetchOnePackage = .ok (p, s')) :
    s'.inputor = input ∧ s'.historyData = r.historyData
      ∧ ∃ m rest, ready = m :: rest ∧ p = m.delivered
        ∧ (r.after ⟨s', r.checking⟩).Keeps left rest := by
  obtain ⟨waiting, h⟩ := h
  obtain ⟨history, que, i, c⟩ := r
  cases que with
  | nil => cases hfetch
  | cons p que =>
    cases hfetch
    obtain ⟨hread, m, hready, hp⟩ := h.read rfl
    exact ⟨rfl, rfl, m, _, hready, hp, waiting, hread⟩

/-- What is ready, and what the check under way will add. -/
theorem exists_ready (h : r.Keeps left ready) :
    ∃ new, ready.map Message.delivered = r.waitReadQue ++ new ∧ (r.checking = .idle → new = []) := by
  obtain ⟨waiting, h⟩ := h
  exact h.exists_ready

/-- While no check is under way, the history is what is left. -/
theorem historyData (h : r.Keeps left ready) (hc : r.checking = .idle) :
    r.historyData = encodeAll left := by
  obtain ⟨waiting, h⟩ := h
  obtain ⟨history, que, i, c⟩ := r
  cases hc
  cases h with
  | resting h => exact h.historyData
  | checking hc hf h => exact absurd rfl hc

/-- The first section fetches the next chunk and is a check of the mailbox. -/
theorem fetch (h : r.Keeps left ready) (hc : r.checking = .idle) {waiting : List (List Message)}
    (hne : ∀ g ∈ waiting, g ≠ []) (hdata : ∀ g ∈ waiting, ∀ m ∈ g, m.data ≠ [])
    (hload : (r.threads (some ⟨waiting.map encodeAll⟩)).load ≤ maxHeld) :
    ∃ t', (r.threads (some ⟨waiting.map encodeAll⟩)).advance = .ok (none, t')
      ∧ t'.protocol.inputor = some ⟨waiting.tail.map encodeAll⟩ ∧ t'.load ≤ maxHeld
      ∧ (r.after t').Keeps (Mailbox.check ⟨waiting, left, ready⟩).left
          (Mailbox.check ⟨waiting, left, ready⟩).ready := by
  have hidle : (r.threads (some ⟨waiting.map encodeAll⟩)).checking = .idle := hc
  obtain ⟨t', ht, hinput, hload'⟩ : ∃ t',
      (r.threads (some ⟨waiting.map encodeAll⟩)).advance = .ok (none, t')
        ∧ t'.protocol.inputor = some ⟨waiting.tail.map encodeAll⟩ ∧ t'.load ≤ maxHeld := by
    obtain ⟨history, que, i, c⟩ := r
    cases hc
    cases waiting with
    | nil =>
      exact ⟨_, rfl, rfl, (Nat.add_le_add_left (Nat.zero_add history.length).le _).trans hload⟩
    | cons g rest =>
      refine ⟨_, rfl, rfl, le_trans (le_of_eq ?_) hload⟩
      show ((rest.map encodeAll).map List.length).sum + ((encodeAll g).length + history.length)
        = (((g :: rest).map encodeAll).map List.length).sum + history.length
      rw [List.map_cons, List.map_cons, List.sum_cons]
      omega
  have hcheck : Mailbox.check ⟨waiting, left, ready⟩ = ⟨waiting.tail,
      (Mailbox.check ⟨waiting, left, ready⟩).left,
      (Mailbox.check ⟨waiting, left, ready⟩).ready⟩ := by
    unfold Mailbox.check
    split
    · rfl
    · rfl
  have hkept := (h.holds hne hdata hload).advance ht
  rw [if_pos hidle, hcheck] at hkept
  refine ⟨t', ht, hinput, hload', waiting.tail, ?_⟩
  obtain ⟨⟨history, que, input⟩, c⟩ := t'
  cases hinput
  exact hkept

end Receiver.Keeps

end Receiver

/-! ### All of them -/

section Pool

variable {I P : Type*} [DecidableEq I] [DecidableEq P] {o : Pool I P}

/-- The queues hold chunks of messages, and the receivers keep messages. -/
structure Shared (o : Pool I P) (waiting : I → List (List Message)) (left ready : P → List Message) :
    Prop where
  inputors : ∀ i, o.inputors i = ⟨(waiting i).map encodeAll⟩
  chunk_ne_nil : ∀ i, ∀ g ∈ waiting i, g ≠ []
  data_ne_nil : ∀ i, ∀ g ∈ waiting i, ∀ m ∈ g, m.data ≠ []
  keeps : ∀ p, (o.receivers p).Keeps (left p) (ready p)
  load : ∀ p, (o.threads p).load ≤ maxHeld

/-- A chunk that was fetched from a queue by a receiver. -/
structure Fetch (I P : Type*) where
  inputor : I
  receiver : P
  chunk : List Message

/-- What was pushed to a queue was fetched from it, or waits in it; what a receiver has
fetched was read from it, or it keeps it. -/
structure Traced (waiting pushed : I → List (List Message)) (left ready : P → List Message)
    (got : P → List SplPackage) (log : List (Fetch I P)) : Prop where
  inputor : ∀ i, (log.filter fun f => f.inputor = i).map Fetch.chunk ++ waiting i = pushed i
  receiver : ∀ p, (got p ++ (ready p ++ left p).map Message.delivered).Perm
    (((log.filter fun f => f.receiver = p).flatMap Fetch.chunk).map Message.delivered)

/-- A check of a mailbox takes the messages it looks at in their order. -/
theorem Mailbox.check_ready_left {M : Type*} (b : Mailbox M) :
    b.check.ready ++ b.check.left = b.ready ++ b.front := by
  cases hf : b.front with
  | nil =>
    have hleft := (List.append_eq_nil_iff.mp hf).2
    rw [check, hf]
    dsimp only
    rw [hleft]
  | cons m rest =>
    rw [check, hf]
    exact List.append_assoc _ _ _

section Traced

variable {waiting pushed : I → List (List Message)} {left ready : P → List Message}
  {got : P → List SplPackage} {log : List (Fetch I P)}

theorem Traced.pushData (h : Traced waiting pushed left ready got log) (i : I) (g : List Message) :
    Traced (Function.update waiting i (waiting i ++ [g]))
      (Function.update pushed i (pushed i ++ [g])) left ready got log where
  inputor := by
    intro j
    by_cases hj : j = i
    · subst hj
      rw [Function.update_self, Function.update_self, ← h.inputor j, List.append_assoc]
    · rw [Function.update_of_ne hj, Function.update_of_ne hj, h.inputor j]
  receiver := h.receiver

/-- A receiver fetches a chunk, if there is one. -/
theorem Traced.fetch (h : Traced waiting pushed left ready got log) (i : I) (p : P)
    {b : Mailbox Message} (hb : b = ⟨waiting i, left p, ready p⟩) :
    ∃ log', Traced (Function.update waiting i (waiting i).tail) pushed
      (Function.update left p b.check.left) (Function.update ready p b.check.ready) got log' := by
  refine ⟨log ++ (waiting i).head?.toList.map (Fetch.mk i p), fun j => ?_, fun q => ?_⟩
  · rw [List.filter_append, List.map_append]
    by_cases hj : j = i
    · subst hj
      rw [Function.update_self, ← h.inputor j, List.append_assoc]
      cases waiting j with
      | nil => rfl
      | cons g rest => simp
    · rw [Function.update_of_ne hj, ← h.inputor j]
      cases waiting i with
      | nil => simp
      | cons g rest => simp [Ne.symm hj]
  · rw [List.filter_append, List.flatMap_append]
    by_cases hq : q = p
    · subst hq
      have hchunk : (((waiting i).head?.toList.map (Fetch.mk i q)).filter
          fun f => f.receiver = q).flatMap Fetch.chunk = (waiting i).headD [] := by
        cases waiting i with
        | nil => rfl
        | cons g rest => simp
      rw [Function.update_self, Function.update_self, b.check_ready_left, hchunk, hb,
        Mailbox.front]
      dsimp only
      rw [@List.map_append _ _ Message.delivered ((log.filter _).flatMap _)]
      refine List.Perm.trans ?_ ((h.receiver q).append_right _)
      simp only [List.map_append, List.append_assoc]
      exact (List.perm_append_comm.append_left _).append_left _
    · rw [Function.update_of_ne hq, Function.update_of_ne hq]
      refine (h.receiver q).trans (List.Perm.of_eq ?_)
      cases waiting i with
      | nil => simp
      | cons g rest => simp [Ne.symm hq]

theorem Traced.read (h : Traced waiting pushed left ready got log) (p : P) {m : Message}
    {rest : List Message} (hready : ready p = m :: rest) :
    Traced waiting pushed left (Function.update ready p rest)
      (Function.update got p (got p ++ [m.delivered])) log where
  inputor := h.inputor
  receiver := by
    intro q
    by_cases hq : q = p
    · subst hq
      have hperm := h.receiver q
      rw [hready] at hperm
      rw [Function.update_self, Function.update_self, List.append_assoc]
      exact hperm
    · rw [Function.update_of_ne hq, Function.update_of_ne hq]
      exact h.receiver q

end Traced

/-! ### Steps -/

section Step

variable {waiting : I → List (List Message)} {left ready : P → List Message}

theorem Pool.threads_store {p : P} {t : Threads}
    (h : t.protocol.inputor = (o.receivers p).inputor.map (o.store p t).inputors) :
    (o.store p t).threads p = t := by
  have hreceiver : (o.store p t).receivers p = (o.receivers p).after t :=
    Function.update_self _ _ _
  rw [Pool.threads, hreceiver]
  show Threads.mk ⟨t.protocol.historyData, t.protocol.waitReadQue,
    (o.receivers p).inputor.map (o.store p t).inputors⟩ t.checking = t
  rw [← h]

/-- The bytes of a queue. -/
def Inputor.size (input : Inputor) : ℕ := (input.data.map List.length).sum

omit [DecidableEq I] in
theorem Receiver.load_threads (r : Receiver I) (input : Option Inputor) :
    (r.threads input).load
      = input.elim 0 Inputor.size + r.checking.room r.historyData.length := rfl

/-- The thread of a receiver leaves chunks in the queues and messages in the
receiver. -/
theorem Shared.store (h : Shared o waiting left ready) {p : P} {t : Threads}
    {waiting' : I → List (List Message)} {l d : List Message}
    (hinputors : ∀ i, (o.store p t).inputors i = ⟨(waiting' i).map encodeAll⟩)
    (hsuffix : ∀ i, waiting' i <:+ waiting i)
    (hinput : t.protocol.inputor = (o.receivers p).inputor.map (o.store p t).inputors)
    (hload : t.load ≤ maxHeld) (hkeeps : ((o.receivers p).after t).Keeps l d) :
    Shared (o.store p t) waiting' (Function.update left p l) (Function.update ready p d) where
  inputors := hinputors
  chunk_ne_nil := fun i g hg => h.chunk_ne_nil i g ((hsuffix i).mem hg)
  data_ne_nil := fun i g hg => h.data_ne_nil i g ((hsuffix i).mem hg)
  keeps := by
    intro q
    by_cases hq : q = p
    · subst hq
      rw [Function.update_self, Function.update_self, Pool.store]
      dsimp only
      rwa [Function.update_self]
    · rw [Function.update_of_ne hq, Function.update_of_ne hq, Pool.store]
      dsimp only
      rw [Function.update_of_ne hq]
      exact h.keeps q
  load := by
    intro q
    by_cases hq : q = p
    · subst hq
      rwa [Pool.threads_store hinput]
    · have hold := h.load q
      have hreceiver : (o.store p t).receivers q = o.receivers q := Function.update_of_ne hq _ _
      rw [Pool.threads, Receiver.load_threads] at hold ⊢
      rw [hreceiver]
      cases hi : (o.receivers q).inputor with
      | none =>
        rw [hi] at hold
        exact hold
      | some i =>
        rw [hi] at hold
        refine le_trans (Nat.add_le_add_right ?_ _) hold
        show ((o.store p t).inputors i).size ≤ (o.inputors i).size
        obtain ⟨gs, hgs⟩ := hsuffix i
        rw [hinputors i, h.inputors i, ← hgs]
        unfold Inputor.size
        dsimp only
        rw [List.map_append, List.map_append, List.sum_append]
        exact Nat.le_add_left _ _

/-- Nothing happens to the queues. -/
theorem Pool.inputors_store {p : P} {t : Threads}
    (h : t.protocol.inputor = (o.receivers p).inputor.map o.inputors) :
    (o.store p t).inputors = o.inputors := by
  unfold Pool.store
  dsimp only
  rw [h]
  cases (o.receivers p).inputor with
  | none => rfl
  | some i => exact Function.update_eq_self i _

omit [DecidableEq P] in
theorem Shared.pushData (h : Shared o waiting left ready) {i : I} {g : List Message}
    (hg : g ≠ []) (hdata : ∀ m ∈ g, m.data ≠ [])
    (hload : ∀ p, ((o.pushData i (encodeAll g)).threads p).load ≤ maxHeld) :
    Shared (o.pushData i (encodeAll g)) (Function.update waiting i (waiting i ++ [g])) left ready where
  inputors := by
    intro j
    by_cases hj : j = i
    · subst hj
      rw [Pool.pushData, Function.update_self]
      dsimp only
      rw [Function.update_self, h.inputors j, List.map_append]
      rfl
    · rw [Pool.pushData, Function.update_of_ne hj]
      dsimp only
      rw [Function.update_of_ne hj, h.inputors j]
  chunk_ne_nil := by
    intro j g' hg'
    by_cases hj : j = i
    · subst hj
      rw [Function.update_self, List.mem_append, List.mem_singleton] at hg'
      exact hg'.elim (h.chunk_ne_nil j g') fun heq => heq ▸ hg
    · rw [Function.update_of_ne hj] at hg'
      exact h.chunk_ne_nil j g' hg'
  data_ne_nil := by
    intro j g' hg'
    by_cases hj : j = i
    · subst hj
      rw [Function.update_self, List.mem_append, List.mem_singleton] at hg'
      exact hg'.elim (h.data_ne_nil j g') fun heq => heq ▸ hdata
    · rw [Function.update_of_ne hj] at hg'
      exact h.data_ne_nil j g' hg'
  keeps := h.keeps
  load := hload

omit [DecidableEq I] in
theorem Shared.setInputor (h : Shared o waiting left ready) {p : P} {input : Option I}
    (hload : ((o.setInputor p input).threads p).load ≤ maxHeld) :
    Shared (o.setInputor p input) waiting left ready where
  inputors := h.inputors
  chunk_ne_nil := h.chunk_ne_nil
  data_ne_nil := h.data_ne_nil
  keeps := by
    intro q
    by_cases hq : q = p
    · subst hq
      rw [Pool.setInputor]
      dsimp only
      rw [Function.update_self]
      exact h.keeps q
    · rw [Pool.setInputor]
      dsimp only
      rw [Function.update_of_ne hq]
      exact h.keeps q
  load := by
    intro q
    by_cases hq : q = p
    · exact hq ▸ hload
    · have hold := h.load q
      have hreceiver : (o.setInputor p input).receivers q = o.receivers q :=
        Function.update_of_ne hq _ _
      rw [Pool.threads] at hold ⊢
      rw [hreceiver]
      exact hold

/-- A section of a check: it fetches a chunk and takes a message, or it leaves the
messages where they are. -/
theorem Shared.advance (h : Shared o waiting left ready) (p : P) :
    ∃ et t, (o.threads p).advance = .ok (et, t)
      ∧ (Shared (o.store p t) waiting left ready
        ∨ ∃ i b, (o.receivers p).inputor = some i ∧ b = Mailbox.mk (waiting i) (left p) (ready p)
          ∧ Shared (o.store p t) (Function.update waiting i (waiting i).tail)
              (Function.update left p b.check.left) (Function.update ready p b.check.ready)) := by
  have hkeeps := h.keeps p
  by_cases hc : (o.receivers p).checking = .idle
  · cases hi : (o.receivers p).inputor with
    | none =>
      -- the check returns at once
      have hthreads : o.threads p = (o.receivers p).threads none := by
        rw [Pool.threads, hi]
        rfl
      have hinputors := @Pool.inputors_store I P _ _ o p (o.threads p) rfl
      have hstored := h.store (fun i => by rw [hinputors]; exact h.inputors i)
        (fun i => List.suffix_refl _) (by rw [hinputors]; rfl) (h.load p) hkeeps
      rw [Function.update_eq_self, Function.update_eq_self] at hstored
      refine ⟨some .failedEmptyInputor, o.threads p, ?_, Or.inl hstored⟩
      rw [hthreads, Receiver.threads, hc]
      rfl
    | some i =>
      have hthreads : o.threads p
          = (o.receivers p).threads (some ⟨(waiting i).map encodeAll⟩) := by
        rw [Pool.threads, hi, Option.map_some, h.inputors i]
      have hload := h.load p
      rw [hthreads] at hload ⊢
      obtain ⟨t, ht, hinput, hload', hkept⟩ :=
        hkeeps.fetch hc (h.chunk_ne_nil i) (h.data_ne_nil i) hload
      have hinputors : (o.store p t).inputors
          = Function.update o.inputors i ⟨(waiting i).tail.map encodeAll⟩ := by
        unfold Pool.store
        dsimp only
        rw [hi, hinput]
      refine ⟨none, t, ht, Or.inr ⟨i, _, rfl, rfl, h.store ?_ ?_ ?_ hload' hkept⟩⟩
      · intro j
        rw [hinputors]
        by_cases hj : j = i
        · rw [hj, Function.update_self, Function.update_self]
        · rw [Function.update_of_ne hj, Function.update_of_ne hj, h.inputors j]
      · intro j
        by_cases hj : j = i
        · rw [hj, Function.update_self]
          exact List.tail_suffix _
        · simp only [Function.update_of_ne hj, List.suffix_refl]
      · rw [hinput, hi, hinputors, Option.map_some, Function.update_self]
  · obtain ⟨et, t, ht, hinput, hload, hkept⟩ :=
      hkeeps.advance hc ((o.receivers p).inputor.map o.inputors)
    have hinputors := Pool.inputors_store hinput
    have hstored := h.store (fun i => by rw [hinputors]; exact h.inputors i)
      (fun i => List.suffix_refl _) (by rw [hinputors]; exact hinput) (hload.trans (h.load p)) hkept
    rw [Function.update_eq_self, Function.update_eq_self] at hstored
    exact ⟨et, t, ht, Or.inl hstored⟩

theorem Shared.read (h : Shared o waiting left ready) {p : P} {pack : SplPackage}
    {s' : SplProtocol} (hfetch : (o.threads p).protocol.fetchOnePackage = .ok (pack, s')) :
    ∃ m rest, ready p = m :: rest ∧ pack = m.delivered
      ∧ Shared (o.store p ⟨s', (o.receivers p).checking⟩) waiting left
          (Function.update ready p rest) := by
  obtain ⟨hinput, hhistory, m, rest, hready, hpack, hkept⟩ := (h.keeps p).read hfetch
  have hinputors := @Pool.inputors_store I P _ _ o p ⟨s', (o.receivers p).checking⟩ hinput
  have hload : Threads.load ⟨s', (o.receivers p).checking⟩ = (o.threads p).load := by
    unfold Threads.load SplProtocol.pending
    dsimp only
    rw [hinput, hhistory]
    rfl
  have hstored := h.store (fun i => by rw [hinputors]; exact h.inputors i)
    (fun i => List.suffix_refl _) (by rw [hinputors]; exact hinput)
    (hload.le.trans (h.load p)) hkept
  rw [Function.update_eq_self] at hstored
  exact ⟨m, rest, hready, hpack, hstored⟩

end Step

/-! ### The program -/

/-- The states of the program.  A chunk is pushed, or a receiver made to point to a
queue, only if there is memory for what the receivers may come to keep; and the thread
of a receiver does the latter between two checks. -/
inductive Reached : Pool I P → (I → List (List Message)) → (P → List SplPackage) → Prop
  | start : Reached {} (fun _ => []) fun _ => []
  | pushData {o : Pool I P} {pushed : I → List (List Message)} {got : P → List SplPackage}
      (i : I) {g : List Message} (hr : Reached o pushed got) (hg : g ≠ [])
      (hdata : ∀ m ∈ g, m.data ≠ [])
      (hload : ∀ p, ((o.pushData i (encodeAll g)).threads p).load ≤ maxHeld) :
      Reached (o.pushData i (encodeAll g)) (Function.update pushed i (pushed i ++ [g])) got
  | setInputor {o : Pool I P} {pushed : I → List (List Message)} {got : P → List SplPackage}
      (p : P) (input : Option I) (hr : Reached o pushed got)
      (hidle : (o.receivers p).checking = .idle)
      (hload : ((o.setInputor p input).threads p).load ≤ maxHeld) :
      Reached (o.setInputor p input) pushed got
  | advance {o : Pool I P} {pushed : I → List (List Message)} {got : P → List SplPackage}
      {et : Option CheckType} {t : Threads} (p : P) (hr : Reached o pushed got)
      (ha : (o.threads p).advance = .ok (et, t)) : Reached (o.store p t) pushed got
  | read {o : Pool I P} {pushed : I → List (List Message)} {got : P → List SplPackage}
      {pack : SplPackage} {s' : SplProtocol} (p : P) (hr : Reached o pushed got)
      (hfetch : (o.threads p).protocol.fetchOnePackage = .ok (pack, s')) :
      Reached (o.store p ⟨s', (o.receivers p).checking⟩) pushed
        (Function.update got p (got p ++ [pack]))

/-- Every state of the program holds the messages of some log. -/
theorem Reached.exists_shared {pushed : I → List (List Message)} {got : P → List SplPackage}
    (hr : Reached o pushed got) :
    ∃ waiting left ready log, Shared o waiting left ready
      ∧ Traced waiting pushed left ready got log := by
  induction hr with
  | start =>
    refine ⟨fun _ => [], fun _ => [], fun _ => [], [], ⟨fun _ => rfl, ?_, ?_, ?_, ?_⟩,
      fun _ => rfl, fun _ => List.Perm.refl _⟩
    · intro i g hg
      cases hg
    · intro i g hg
      cases hg
    · refine fun p => ⟨[], .resting ⟨rfl, rfl, rfl, ?_, ?_, Nat.zero_le _⟩⟩
      · intro g hg
        cases hg
      · intro m hm
        cases hm
    · exact fun p => Nat.zero_le _
  | pushData i hr hg hdata hload ih =>
    obtain ⟨waiting, left, ready, log, hs, ht⟩ := ih
    exact ⟨_, left, ready, log, hs.pushData hg hdata hload, ht.pushData i _⟩
  | setInputor p input hr hidle hload ih =>
    obtain ⟨waiting, left, ready, log, hs, ht⟩ := ih
    exact ⟨waiting, left, ready, log, hs.setInputor hload, ht⟩
  | advance p hr ha ih =>
    obtain ⟨waiting, left, ready, log, hs, ht⟩ := ih
    obtain ⟨et, t, ha', hstored | ⟨i, b, -, hb, hstored⟩⟩ := hs.advance p
    · rw [ha] at ha'
      cases ha'
      exact ⟨waiting, left, ready, log, hstored, ht⟩
    · rw [ha] at ha'
      cases ha'
      obtain ⟨log', ht'⟩ := ht.fetch i p hb
      exact ⟨_, _, _, log', hstored, ht'⟩
  | read p hr hfetch ih =>
    obtain ⟨waiting, left, ready, log, hs, ht⟩ := ih
    obtain ⟨m, rest, hready, rfl, hstored⟩ := hs.read hfetch
    exact ⟨waiting, left, _, log, hstored, ht.read p hready⟩

/-- **Every chunk is fetched by one receiver, in the order of its queue, and comes out
of it exactly once.**  At every moment of every interleaving the next section of each
receiver's check succeeds; what was pushed to a queue is what was fetched from it, by
one receiver each, and what waits in it; and what was read from a receiver, what is
ready in it and what it has under way is what it has fetched.  Between two checks what
is under way is its history, and the next check takes a message if there is one. -/
theorem shared_exactly_once {pushed : I → List (List Message)} {got : P → List SplPackage}
    (hr : Reached o pushed got) :
    (∀ p, ∃ x, (o.threads p).advance = .ok x)
      ∧ ∃ (log : List (Fetch I P)) (waiting : I → List (List Message)),
        (∀ i, o.inputors i = ⟨(waiting i).map encodeAll⟩
          ∧ (log.filter fun f => f.inputor = i).map Fetch.chunk ++ waiting i = pushed i)
        ∧ ∀ p, ∃ onTheWay : List Message,
          (got p ++ (o.receivers p).waitReadQue ++ onTheWay.map Message.delivered).Perm
            (((log.filter fun f => f.receiver = p).flatMap Fetch.chunk).map Message.delivered)
          ∧ ((o.receivers p).checking = .idle →
            (o.receivers p).historyData = encodeAll onTheWay
            ∧ ∀ i, (o.receivers p).inputor = some i → (waiting i).flatten ++ onTheWay ≠ [] →
              ∃ et s', (o.threads p).protocol.check = .ok (et, s') ∧ et.hasOk = true) := by
  obtain ⟨waiting, left, ready, log, hs, ht⟩ := hr.exists_shared
  refine ⟨fun p => ?_, log, waiting, fun i => ⟨hs.inputors i, ht.inputor i⟩, fun p => ?_⟩
  · obtain ⟨et, t, ha, -⟩ := hs.advance p
    exact ⟨_, ha⟩
  · obtain ⟨new, hready, hidle⟩ := (hs.keeps p).exists_ready
    -- the messages of the check under way are the last ones that are ready
    obtain ⟨before, under, hsplit, hbefore, hunder⟩ := List.map_eq_append_iff.mp hready
    refine ⟨under ++ left p, ?_, fun hc => ?_⟩
    · rw [← hbefore, List.append_assoc, ← List.map_append, ← List.append_assoc, ← hsplit]
      exact ht.receiver p
    · rw [hidle hc] at hunder
      rw [List.map_eq_nil_iff.mp hunder, List.nil_append]
      refine ⟨(hs.keeps p).historyData hc, fun i hi hne => ?_⟩
      have hthreads : o.threads p
          = (o.receivers p).threads (some ⟨(waiting i).map encodeAll⟩) := by
        rw [Pool.threads, hi, Option.map_some, hs.inputors i]
      have hload := hs.load p
      rw [hthreads] at hload ⊢
      have hholds := (hs.keeps p).holds (hs.chunk_ne_nil i) (hs.data_ne_nil i) hload
      rw [Receiver.threads, hc] at hholds ⊢
      cases hholds with
      | resting h =>
        obtain ⟨et, s', hcheck, -, hok⟩ := h.check
        exact ⟨et, s', hcheck, hok hne⟩
      | checking hc' _ _ => exact absurd rfl hc'

end Pool

/-- Two receivers have fetched a package each from the queue that they share. -/
theorem shared_exactly_once_pings :
    ∃ o : Pool Unit Bool, (o.receivers false).checking = .fetched (encodeAll [ping])
      ∧ (o.receivers true).checking = .fetched (encodeAll [ping])
      ∧ (∀ p, ∃ x, (o.threads p).advance = .ok x)
      ∧ ∃ log : List (Fetch Unit Bool), log.map Fetch.chunk = [[ping], [ping]] := by
  have hset := (Reached.start (I := Unit) (P := Bool)).setInputor false (some ()) rfl
    (by decide +kernel)
  have hset' := hset.setInputor true (some ()) rfl (by decide +kernel)
  have hpush := hset'.pushData () (g := [ping]) (by decide) (by decide) (by decide +kernel)
  have hpush' := hpush.pushData () (g := [ping]) (by decide) (by decide) (by decide +kernel)
  have hfetch := hpush'.advance false rfl
  have hfetch' := hfetch.advance true rfl
  obtain ⟨hadvance, log, waiting, hqueue, -⟩ := shared_exactly_once hfetch'
  refine ⟨_, rfl, rfl, hadvance, log, ?_⟩
  obtain ⟨hdata, hpushed⟩ := hqueue ()
  have hnil : waiting () = [] :=
    List.map_eq_nil_iff.mp (congrArg Inputor.data hdata).symm
  rw [hnil, List.append_nil, List.filter_eq_self.mpr fun f _ => decide_eq_true rfl] at hpushed
  exact hpushed

end AndrenBoost.Spl
