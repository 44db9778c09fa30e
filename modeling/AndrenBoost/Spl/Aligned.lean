import AndrenBoost.Spl.Messages

/-!
# Delivery from whole messages

When every chunk that is pushed is made of whole messages with data, each check
delivers one of them, whatever the order of pushes and checks.

## Main definitions

* `Mailbox` — what a receiver is for: chunks of messages come in, the checks move
  them one by one to a queue.
* `Represents b s` — the receiver `s` holds the messages of the mailbox `b`.
* `Reachable s pushed` — the states after pushes, of these messages in all, and
  checks.

## Main results

* `Mailbox.check_perm` — a check loses and invents nothing.
* `Represents.check` — **the receiver refines the mailbox**, and answers `OK` as
  long as there is something to deliver.
* `delivered_exactly_once` — **nothing is lost, duplicated or altered.**
-/

namespace AndrenBoost.Spl

/-! ### What a receiver is for -/

/-- Chunks of messages that were not looked at yet, messages left over from those
that were, and messages that are ready to be read. -/
structure Mailbox (M : Type*) where
  waiting : List (List M)
  left : List M
  ready : List M

namespace Mailbox

variable {M : Type*} (b : Mailbox M)

/-- The messages that are not ready yet. -/
def undelivered : List M := b.waiting.flatten ++ b.left

/-- The messages a check looks at: the next chunk, then what is left over. -/
def front : List M := b.waiting.headD [] ++ b.left

/-- A chunk comes in. -/
def push (g : List M) : Mailbox M := { b with waiting := b.waiting ++ [g] }

/-- The first message of the front becomes ready. -/
def check : Mailbox M :=
  match b.front with
  | [] => { b with waiting := b.waiting.tail }
  | m :: rest => { waiting := b.waiting.tail, left := rest, ready := b.ready ++ [m] }

/-- A message is read. -/
def read : Mailbox M := { b with ready := b.ready.tail }

theorem undelivered_perm : b.undelivered.Perm (b.front ++ b.waiting.tail.flatten) := by
  cases hw : b.waiting with
  | nil =>
    rw [undelivered, front, hw]
    exact List.Perm.of_eq (List.append_nil _).symm
  | cons g rest =>
    rw [undelivered, front, hw, List.flatten_cons, List.headD_cons, List.tail_cons,
      List.append_assoc, List.append_assoc]
    exact List.Perm.append_left g List.perm_append_comm

theorem check_perm : (b.check.ready ++ b.check.undelivered).Perm (b.ready ++ b.undelivered) := by
  refine List.Perm.trans ?_ (List.Perm.append_left b.ready b.undelivered_perm.symm)
  cases hf : b.front with
  | nil =>
    rw [check, hf, undelivered]
    dsimp only
    rw [front] at hf
    rw [(List.append_eq_nil_iff.1 hf).2, List.append_nil, List.nil_append]
  | cons m rest =>
    rw [check, hf, undelivered]
    dsimp only
    rw [List.append_assoc]
    apply List.Perm.append_left
    show (m :: (b.waiting.tail.flatten ++ rest)).Perm (m :: (rest ++ b.waiting.tail.flatten))
    exact List.Perm.cons m List.perm_append_comm

/-- A check makes no message undelivered. -/
theorem mem_of_mem_check_undelivered {m : M} (h : m ∈ b.check.undelivered) :
    m ∈ b.undelivered := by
  rw [b.undelivered_perm.mem_iff, List.mem_append]
  cases hf : b.front with
  | nil =>
    rw [check, hf, undelivered] at h
    rw [front] at hf
    rw [(List.append_eq_nil_iff.1 hf).2, List.append_nil] at h
    exact Or.inr h
  | cons m' rest =>
    rw [check, hf, undelivered, List.mem_append] at h
    exact h.elim Or.inr fun hrest => Or.inl (List.mem_cons_of_mem m' hrest)

theorem push_undelivered_perm (g : List M) :
    (b.push g).undelivered.Perm (b.undelivered ++ g) := by
  rw [undelivered, undelivered, push]
  dsimp only
  rw [List.flatten_append, List.flatten_singleton, List.append_assoc, List.append_assoc]
  exact List.Perm.append_left _ List.perm_append_comm

end Mailbox

/-! ### The receiver as a mailbox -/

/-- The receiver holds the messages of the mailbox, and no more bytes than a
memory has. -/
structure Represents (b : Mailbox Message) (s : SplProtocol) : Prop where
  inputor : s.inputor = some ⟨b.waiting.map encodeAll⟩
  historyData : s.historyData = encodeAll b.left
  waitReadQue : s.waitReadQue = b.ready.map Message.delivered
  chunk_ne_nil : ∀ g ∈ b.waiting, g ≠ []
  data_ne_nil : ∀ m ∈ b.undelivered, m.data ≠ []
  held : s.held ≤ maxHeld

namespace Represents

variable {b : Mailbox Message} {s : SplProtocol}

theorem nextBuffer (h : Represents b s) : s.nextBuffer = encodeAll b.front := by
  unfold SplProtocol.nextBuffer
  rw [h.inputor, Mailbox.front]
  dsimp only
  rw [h.historyData]
  cases b.waiting with
  | nil => rfl
  | cons g rest =>
    rw [List.headD_cons, encodeAll_append]
    rfl

theorem fetched_inputor (h : Represents b s) :
    s.fetched.inputor = some ⟨b.waiting.tail.map encodeAll⟩ := by
  unfold SplProtocol.fetched
  dsimp only
  rw [h.inputor]
  cases b.waiting with
  | nil => rfl
  | cons g rest => rfl

theorem front_ne_nil (h : Represents b s) (hne : b.undelivered ≠ []) : b.front ≠ [] := by
  intro hf
  obtain ⟨hhead, hleft⟩ := List.append_eq_nil_iff.1 hf
  cases hw : b.waiting with
  | nil => exact hne (by rw [Mailbox.undelivered, hw, hleft]; rfl)
  | cons g rest =>
    rw [hw, List.headD_cons] at hhead
    exact h.chunk_ne_nil g (by rw [hw]; exact List.mem_cons_self) hhead

theorem push (h : Represents b s) {g : List Message} (hg : g ≠ [])
    (hdata : ∀ m ∈ g, m.data ≠ []) (hheld : s.held + (encodeAll g).length ≤ maxHeld) :
    Represents (b.push g) (s.pushData (encodeAll g)) where
  inputor := by
    unfold SplProtocol.pushData
    dsimp only
    rw [h.inputor, Mailbox.push]
    dsimp only
    rw [List.map_append]
    rfl
  historyData := h.historyData
  waitReadQue := h.waitReadQue
  chunk_ne_nil := by
    intro g' hg'
    rw [Mailbox.push, List.mem_append, List.mem_singleton] at hg'
    obtain hmem | rfl := hg'
    · exact h.chunk_ne_nil g' hmem
    · exact hg
  data_ne_nil := by
    intro m hm
    rw [(b.push_undelivered_perm g).mem_iff, List.mem_append] at hm
    exact hm.elim (h.data_ne_nil m) (hdata m)
  held := by
    rw [SplProtocol.held_pushData h.inputor]
    exact hheld

/-- A check of the receiver is a check of the mailbox, and succeeds unless there
is nothing to deliver. -/
theorem check (h : Represents b s) :
    ∃ et s', s.check = .ok (et, s') ∧ Represents b.check s'
      ∧ (b.undelivered ≠ [] → et.hasOk = true) := by
  have hbuf := h.nextBuffer
  have hheld := SplProtocol.held_eq h.inputor
  have hdata : ∀ m ∈ b.check.undelivered, m.data ≠ [] := fun m hm =>
    h.data_ne_nil m (b.mem_of_mem_check_undelivered hm)
  have htail : ∀ g ∈ b.waiting.tail, g ≠ [] := fun g hg =>
    h.chunk_ne_nil g (List.mem_of_mem_tail hg)
  cases hf : b.front with
  | nil =>
    rw [hf] at hbuf
    obtain ⟨et, hcheck, -⟩ := SplProtocol.check_of_nil hbuf
    have hb : b.check = { b with waiting := b.waiting.tail } := by rw [Mailbox.check, hf]
    rw [hb] at hdata ⊢
    refine ⟨et, s.fetched, hcheck, ⟨h.fetched_inputor, h.historyData, h.waitReadQue, htail, hdata,
      ?_⟩, fun hne => absurd hf (h.front_ne_nil hne)⟩
    have hle := h.held
    rw [hheld, hbuf] at hle
    rw [SplProtocol.held, SplProtocol.fetched_historyData, h.historyData]
    rw [Mailbox.front] at hf
    rw [(List.append_eq_nil_iff.1 hf).2]
    exact hle
  | cons m rest =>
    have hm : m ∈ b.undelivered := by
      rw [b.undelivered_perm.mem_iff, hf]
      exact List.mem_append_left _ List.mem_cons_self
    have hne : m.data ++ encodeAll rest ≠ [] :=
      List.append_ne_nil_of_left_ne_nil (h.data_ne_nil m hm) _
    -- the message at the front has data, so the parser takes it
    rw [hf, encodeAll_cons] at hbuf
    obtain ⟨et, het, hcheck⟩ := SplProtocol.check_encode hbuf hne (by have := h.held; omega)
    have hb : b.check = ⟨b.waiting.tail, rest, b.ready ++ [m]⟩ := by rw [Mailbox.check, hf]
    rw [hb] at hdata ⊢
    refine ⟨et, _, hcheck, ⟨h.fetched_inputor, rfl, ?_, htail, hdata, ?_⟩, fun _ => het⟩
    · show s.waitReadQue ++ [m.delivered] = _
      rw [h.waitReadQue, List.map_append]
      rfl
    · show s.fetched.pending + (encodeAll rest).length ≤ maxHeld
      have hle := h.held
      rw [hheld, hbuf, List.length_append] at hle
      omega

/-- A package that is read is that of the message that is. -/
theorem read (h : Represents b s) {s' : SplProtocol} {p : SplPackage}
    (hfetch : s.fetchOnePackage = .ok (p, s')) :
    Represents b.read s' ∧ ∃ m, b.ready = m :: b.read.ready ∧ p = m.delivered := by
  obtain ⟨history, que, input⟩ := s
  cases que with
  | nil => cases hfetch
  | cons p que =>
    cases hfetch
    have hque : p :: que = b.ready.map Message.delivered := h.waitReadQue
    cases hready : b.ready with
    | nil =>
      rw [hready] at hque
      cases hque
    | cons m ready =>
      rw [hready, List.map_cons, List.cons.injEq] at hque
      refine ⟨⟨h.inputor, h.historyData, ?_, h.chunk_ne_nil, h.data_ne_nil, h.held⟩, m, ?_, hque.1⟩
      · rw [Mailbox.read, hready]
        exact hque.2
      · rw [Mailbox.read, hready]
        rfl

end Represents

theorem represents_fresh : Represents ⟨[], [], []⟩ .fresh where
  inputor := rfl
  historyData := rfl
  waitReadQue := rfl
  chunk_ne_nil := fun _ hg => absurd hg List.not_mem_nil
  data_ne_nil := fun _ hm => absurd hm List.not_mem_nil
  held := Nat.zero_le _

/-! ### Runs -/

/-- The states of a receiver with an input queue after pushes and checks, and the
messages that were pushed.  A chunk is pushed only if there is memory for it. -/
inductive Reachable : SplProtocol → List Message → Prop
  | start : Reachable .fresh []
  | push {s : SplProtocol} {pushed g : List Message} (hr : Reachable s pushed) (hg : g ≠ [])
      (hdata : ∀ m ∈ g, m.data ≠ []) (hheld : s.held + (encodeAll g).length ≤ maxHeld) :
      Reachable (s.pushData (encodeAll g)) (pushed ++ g)
  | check {s s' : SplProtocol} {pushed : List Message} {et : CheckType}
      (hr : Reachable s pushed) (hc : s.check = .ok (et, s')) : Reachable s' pushed

/-- A reachable receiver is a mailbox with the messages that were pushed. -/
theorem Reachable.exists_represents {s : SplProtocol} {pushed : List Message}
    (hr : Reachable s pushed) :
    ∃ b, Represents b s ∧ (b.ready ++ b.undelivered).Perm pushed := by
  induction hr with
  | start => exact ⟨_, represents_fresh, List.Perm.refl _⟩
  | @push s pushed g hr hg hdata hheld ih =>
    obtain ⟨b, hb, hperm⟩ := ih
    refine ⟨b.push g, hb.push hg hdata hheld, ?_⟩
    refine (List.Perm.append_left b.ready (b.push_undelivered_perm g)).trans ?_
    rw [← List.append_assoc]
    exact List.Perm.append_right g hperm
  | check hr hc ih =>
    obtain ⟨b, hb, hperm⟩ := ih
    obtain ⟨et, s', hcheck, hb', -⟩ := hb.check
    rw [hc] at hcheck
    cases hcheck
    exact ⟨b.check, hb', b.check_perm.trans hperm⟩

/-- From whole messages with data, the history is made of whole messages; a check
before everything is delivered answers `OK` and delivers one message; and what is
ready and what is still encoded is what was pushed. -/
theorem delivered_exactly_once {s : SplProtocol} {pushed : List Message}
    (hr : Reachable s pushed) :
    ∃ (waiting : List (List Message)) (left : List Message),
      s.inputor = some ⟨waiting.map encodeAll⟩ ∧ s.historyData = encodeAll left
      ∧ (∃ et s', s.check = .ok (et, s') ∧ (waiting.flatten ++ left ≠ [] → et.hasOk = true
          ∧ ∃ m ∈ waiting.flatten ++ left, s'.waitReadQue = s.waitReadQue ++ [m.delivered]))
      ∧ (s.waitReadQue ++ (waiting.flatten ++ left).map Message.delivered).Perm
          (pushed.map Message.delivered) := by
  -- what holds of the mailbox holds of the receiver
  obtain ⟨b, hb, hperm⟩ := hr.exists_represents
  obtain ⟨et, s', hcheck, hb', hok⟩ := hb.check
  refine ⟨b.waiting, b.left, hb.inputor, hb.historyData, ⟨et, s', hcheck, fun hne => ?_⟩, ?_⟩
  · refine ⟨hok hne, ?_⟩
    obtain ⟨m, rest, hf⟩ := List.exists_cons_of_ne_nil (hb.front_ne_nil hne)
    refine ⟨m, ?_, ?_⟩
    · show m ∈ b.undelivered
      rw [b.undelivered_perm.mem_iff, hf]
      exact List.mem_append_left _ List.mem_cons_self
    · rw [hb'.waitReadQue, hb.waitReadQue, Mailbox.check, hf]
      exact List.map_append
  · rw [hb.waitReadQue, ← List.map_append]
    exact hperm.map Message.delivered

/-- Two packages in one chunk, and none of them checked. -/
theorem delivered_exactly_once_pings :
    ∃ (waiting : List (List Message)) (left : List Message),
      (SplProtocol.fresh.pushData (encodeAll [ping, ping])).inputor
          = some ⟨waiting.map encodeAll⟩
      ∧ (SplProtocol.fresh.pushData (encodeAll [ping, ping])).historyData = encodeAll left
      ∧ (∃ et s', (SplProtocol.fresh.pushData (encodeAll [ping, ping])).check = .ok (et, s')
          ∧ (waiting.flatten ++ left ≠ [] → et.hasOk = true
            ∧ ∃ m ∈ waiting.flatten ++ left, s'.waitReadQue
                = (SplProtocol.fresh.pushData (encodeAll [ping, ping])).waitReadQue
                  ++ [m.delivered]))
      ∧ ((SplProtocol.fresh.pushData (encodeAll [ping, ping])).waitReadQue
            ++ (waiting.flatten ++ left).map Message.delivered).Perm
          (([] ++ [ping, ping]).map Message.delivered) :=
  delivered_exactly_once (.push .start (by decide) (by decide) (by decide +kernel))

end AndrenBoost.Spl
