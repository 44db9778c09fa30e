import AndrenBoost.Spl.Aligned
import AndrenBoost.Spl.Outcome

/-!
# Messages between noise

A receiver may hold bytes left over from an earlier stream that will never become a
package, and chunks may come in that differ from the first line of a package before
its end.  Neither stands in the way of whole messages: a chunk of noise costs one
check and leaves nothing, and what is left over stays behind the messages for ever.

## Main definitions

* `Inert g` — the bytes `g` alone are refused and kept.
* `Noise c` — `c` differs from the first line of a package before its end.
* `Desk` — a mailbox some of whose chunks are noise.
* `Resumed s₀ s pushed` — the states after pushes of messages and of noise, and
  checks, from `s₀` on; where nothing is left over, the messages have data.

## Main results

* `Covers.check` — **the receiver refines the desk.**
* `delivered_through_noise` — **everything comes out, and what was left over is left
  over.**
-/

namespace AndrenBoost.Spl

open StdString

/-! ### Leftovers and noise -/

/-- Alone in the buffer, the bytes are refused, and nothing of them is taken. -/
def Inert (g : Bytes) : Prop := g = [] ∨ ∃ r, parser g {} = .ok r ∧ r.ret < 0

/-- A check of inert bytes changes nothing but the input queue. -/
theorem check_of_inert {s : SplProtocol} (hbuf : s.nextBuffer = s.historyData)
    (hg : Inert s.historyData) : ∃ et, s.check = .ok (et, s.fetched) := by
  by_cases hnil : s.historyData = []
  · obtain ⟨et, hcheck, -⟩ := SplProtocol.check_of_nil (hbuf.trans hnil)
    exact ⟨et, hcheck⟩
  · obtain ⟨r, hr, hneg⟩ := hg.resolve_left hnil
    rw [SplProtocol.check_eq (by rwa [hbuf]), hbuf, hr, ok_bind]
    by_cases het : r.et = .failedHead
    · exact ⟨_, SplProtocol.settle_head _ hneg het⟩
    · exact ⟨_, SplProtocol.settle_neg _ hneg het⟩

/-- The bytes differ from the first line of a package before its end, and before
theirs: neither begins with the other. -/
def Noise (c : Bytes) : Prop := ¬ c <+: firstLine ∧ ¬ firstLine <+: c

instance (c : Bytes) : Decidable (Noise c) := inferInstanceAs (Decidable (_ ∧ _))

theorem Noise.not_firstLine {c : Bytes} (h : Noise c) (x : Bytes) : ¬ firstLine <+: c ++ x := by
  intro hpre
  rcases List.prefix_or_prefix_of_prefix hpre (List.prefix_append c x) with hle | hle
  · exact h.2 hle
  · exact h.1 hle

/-! ### A desk -/

/-- A chunk that comes in. -/
inductive Chunk
  | messages (g : List Message)
  | noise (c : Bytes)

namespace Chunk

/-- The bytes of a chunk. -/
def bytes : Chunk → Bytes
  | messages g => encodeAll g
  | noise c => c

/-- The messages of a chunk. -/
def contents : Chunk → List Message
  | messages g => g
  | noise _ => []

/-- A chunk of messages is not empty; and in front of nothing they all have data. -/
def Valid (g : Bytes) : Chunk → Prop
  | messages ms => ms ≠ [] ∧ (g = [] → ∀ m ∈ ms, m.data ≠ [])
  | noise c => Noise c

end Chunk

/-- A mailbox some of whose chunks are noise. -/
structure Desk where
  waiting : List Chunk
  left : List Message
  ready : List Message

namespace Desk

/-- The desk without the noise. -/
def mailbox (d : Desk) : Mailbox Message := ⟨d.waiting.map Chunk.contents, d.left, d.ready⟩

/-- A chunk comes in. -/
def push (d : Desk) (c : Chunk) : Desk := { d with waiting := d.waiting ++ [c] }

/-- Noise is thrown away; otherwise a check is that of the mailbox. -/
def check (d : Desk) : Desk :=
  match d.waiting with
  | .noise _ :: rest => { d with waiting := rest }
  | waiting => ⟨waiting.tail, d.mailbox.check.left, d.mailbox.check.ready⟩

/-- The checks that are needed. -/
def size (d : Desk) : ℕ := d.waiting.length + d.mailbox.undelivered.length

variable {d : Desk}

theorem check_of_noise {c : Bytes} {rest : List Chunk} (h : d.waiting = .noise c :: rest) :
    d.check = { d with waiting := rest } := by
  rw [check, h]

theorem check_of_not_noise (h : ∀ c rest, d.waiting ≠ .noise c :: rest) :
    d.check = ⟨d.waiting.tail, d.mailbox.check.left, d.mailbox.check.ready⟩ := by
  unfold check
  split
  · next c rest hw => exact absurd hw (h c rest)
  · rfl

theorem mailbox_check_of_not_noise (h : ∀ c rest, d.waiting ≠ .noise c :: rest) :
    d.check.mailbox = d.mailbox.check := by
  rw [check_of_not_noise h, mailbox, List.map_tail]
  unfold Mailbox.check
  split <;> rfl

/-- Throwing noise away leaves the mailbox's messages. -/
theorem undelivered_of_noise {c : Bytes} {rest : List Chunk} (h : d.waiting = .noise c :: rest) :
    d.check.mailbox.undelivered = d.mailbox.undelivered := by
  rw [check_of_noise h, mailbox, mailbox, h]
  rfl

/-- A check loses and invents nothing. -/
theorem check_perm (d : Desk) : (d.check.ready ++ d.check.mailbox.undelivered).Perm
    (d.ready ++ d.mailbox.undelivered) := by
  by_cases h : ∃ c rest, d.waiting = .noise c :: rest
  · obtain ⟨c, rest, hw⟩ := h
    rw [undelivered_of_noise hw, check_of_noise hw]
  · have hnot : ∀ c rest, d.waiting ≠ .noise c :: rest := fun c rest hw => h ⟨c, rest, hw⟩
    have hready : d.check.ready = d.mailbox.check.ready := by rw [check_of_not_noise hnot]
    rw [mailbox_check_of_not_noise hnot, hready]
    exact d.mailbox.check_perm

theorem mem_of_mem_check_undelivered {m : Message} (hm : m ∈ d.check.mailbox.undelivered) :
    m ∈ d.mailbox.undelivered := by
  by_cases h : ∃ c rest, d.waiting = .noise c :: rest
  · obtain ⟨c, rest, hw⟩ := h
    rwa [undelivered_of_noise hw] at hm
  · rw [mailbox_check_of_not_noise fun c rest hw => h ⟨c, rest, hw⟩] at hm
    exact d.mailbox.mem_of_mem_check_undelivered hm

theorem waiting_check (d : Desk) : d.check.waiting = d.waiting.tail := by
  unfold check
  split
  · next c rest hw => rw [hw]; rfl
  · rfl

end Desk

/-! ### The receiver as a desk -/

/-- The receiver holds the chunks and the messages of the desk, with `g` behind the
messages, and the packages `que` in front of those that are ready. -/
structure Covers (g : Bytes) (que : List SplPackage) (d : Desk) (s : SplProtocol) : Prop where
  inputor : s.inputor = some ⟨d.waiting.map Chunk.bytes⟩
  historyData : s.historyData = encodeAll d.left ++ g
  waitReadQue : s.waitReadQue = que ++ d.ready.map Message.delivered
  valid : ∀ c ∈ d.waiting, c.Valid g
  data_ne_nil : g = [] → ∀ m ∈ d.mailbox.undelivered, m.data ≠ []
  held : s.held ≤ maxHeld

namespace Covers

variable {g : Bytes} {que : List SplPackage} {d : Desk} {s : SplProtocol}

theorem push (h : Covers g que d s) {c : Chunk} (hc : c.Valid g)
    (hheld : s.held + c.bytes.length ≤ maxHeld) :
    Covers g que (d.push c) (s.pushData c.bytes) where
  inputor := by
    unfold SplProtocol.pushData
    dsimp only
    rw [h.inputor, Desk.push, List.map_append]
    rfl
  historyData := h.historyData
  waitReadQue := h.waitReadQue
  valid := by
    intro c' hc'
    rw [Desk.push, List.mem_append, List.mem_singleton] at hc'
    obtain hmem | rfl := hc'
    · exact h.valid c' hmem
    · exact hc
  data_ne_nil := by
    intro hg m hm
    have hpush : (d.push c).mailbox = d.mailbox.push c.contents := by
      rw [Desk.push, Desk.mailbox, List.map_append]
      rfl
    rw [hpush, (d.mailbox.push_undelivered_perm c.contents).mem_iff, List.mem_append] at hm
    refine hm.elim (h.data_ne_nil hg m) fun hm => ?_
    cases c with
    | messages ms => exact hc.2 hg m hm
    | noise c => exact absurd hm List.not_mem_nil
  held := by
    rw [SplProtocol.held_pushData h.inputor]
    exact hheld

theorem fetched_inputor (h : Covers g que d s) :
    s.fetched.inputor = some ⟨d.waiting.tail.map Chunk.bytes⟩ := by
  unfold SplProtocol.fetched
  dsimp only
  rw [h.inputor]
  cases d.waiting with
  | nil => rfl
  | cons c rest => rfl

/-- Messages, or nothing, are next. -/
theorem nextBuffer (h : Covers g que d s) (hnot : ∀ c rest, d.waiting ≠ .noise c :: rest) :
    s.nextBuffer = encodeAll d.mailbox.front ++ g := by
  unfold SplProtocol.nextBuffer
  rw [h.inputor, Mailbox.front, Desk.mailbox]
  dsimp only
  rw [h.historyData, encodeAll_append, List.append_assoc]
  cases hw : d.waiting with
  | nil => rfl
  | cons c rest =>
    cases c with
    | messages ms => rfl
    | noise c => exact absurd hw (hnot c rest)

/-- Noise is next. -/
theorem not_firstLine (h : Covers g que d s) {c : Bytes} {rest : List Chunk}
    (hw : d.waiting = .noise c :: rest) : ¬ firstLine <+: s.nextBuffer := by
  have hc : Noise c := h.valid (.noise c) (by rw [hw]; exact List.mem_cons_self)
  unfold SplProtocol.nextBuffer
  rw [h.inputor, hw]
  exact hc.not_firstLine _

/-- What a check leaves, apart from the history and the queue of packages. -/
theorem checked (h : Covers g que d s) {s' : SplProtocol}
    (hinput : s'.inputor = s.fetched.inputor)
    (hhist : s'.historyData = encodeAll d.check.left ++ g)
    (hque : s'.waitReadQue = que ++ d.check.ready.map Message.delivered)
    (hheld : s'.held ≤ s.held) : Covers g que d.check s' where
  inputor := by rw [hinput, h.fetched_inputor, d.waiting_check]
  historyData := hhist
  waitReadQue := hque
  valid := by
    rw [d.waiting_check]
    exact fun c hc => h.valid c (List.mem_of_mem_tail hc)
  data_ne_nil := fun hg m hm => h.data_ne_nil hg m (Desk.mem_of_mem_check_undelivered hm)
  held := hheld.trans h.held

/-- While nothing is delivered, the front of the desk is empty. -/
theorem waiting_eq_nil (h : Covers g que d s) (hnot : ∀ c rest, d.waiting ≠ .noise c :: rest)
    (hf : d.mailbox.front = []) : d.waiting = [] ∧ d.left = [] := by
  obtain ⟨hhead, hleft⟩ := List.append_eq_nil_iff.1 hf
  refine ⟨?_, hleft⟩
  cases hw : d.waiting with
  | nil => rfl
  | cons c rest =>
    cases c with
    | noise c => exact absurd hw (hnot c rest)
    | messages ms =>
      rw [Desk.mailbox, hw] at hhead
      exact absurd hhead (h.valid (.messages ms) (by rw [hw]; exact List.mem_cons_self)).1

/-- **The receiver refines the desk.** -/
theorem check (h : Covers g que d s) (hg : Inert g) :
    ∃ et s', s.check = .ok (et, s') ∧ Covers g que d.check s' := by
  have hheld := SplProtocol.held_eq h.inputor
  have hfetched : s.fetched.held ≤ s.held := by
    rw [hheld]
    exact Nat.add_le_add_left (historyData_length_le h.inputor) _
  by_cases hnoise : ∃ c rest, d.waiting = .noise c :: rest
  · -- the chunk is dropped
    obtain ⟨c, rest, hw⟩ := hnoise
    obtain ⟨et, hcheck, -⟩ := check_of_not_firstLine (h.not_firstLine hw)
    refine ⟨et, s.fetched, hcheck, h.checked rfl ?_ ?_ hfetched⟩
    · rw [Desk.check_of_noise hw]
      exact h.historyData
    · rw [Desk.check_of_noise hw]
      exact h.waitReadQue
  · have hnot : ∀ c rest, d.waiting ≠ .noise c :: rest := fun c rest hw => hnoise ⟨c, rest, hw⟩
    have hbuf := h.nextBuffer hnot
    cases hf : d.mailbox.front with
    | nil =>
      -- nothing but the leftover is there
      obtain ⟨hw, hleft⟩ := h.waiting_eq_nil hnot hf
      have hhist : s.historyData = g := by rw [h.historyData, hleft]; rfl
      rw [hf] at hbuf
      obtain ⟨et, hcheck⟩ := check_of_inert (hbuf.trans hhist.symm) (by rwa [hhist])
      have hcheckd : d.check = ⟨d.waiting.tail, d.left, d.ready⟩ := by
        rw [Desk.check_of_not_noise hnot, Mailbox.check, hf]
        rfl
      refine ⟨et, s.fetched, hcheck, h.checked rfl ?_ ?_ hfetched⟩
      · rw [hcheckd]
        exact h.historyData
      · rw [hcheckd]
        exact h.waitReadQue
    | cons m rest =>
      have hne : m.data ++ (encodeAll rest ++ g) ≠ [] := by
        by_cases hnil : g = []
        · refine List.append_ne_nil_of_left_ne_nil (h.data_ne_nil hnil m ?_) _
          rw [d.mailbox.undelivered_perm.mem_iff, hf]
          exact List.mem_append_left _ List.mem_cons_self
        · exact List.append_ne_nil_of_right_ne_nil _ (List.append_ne_nil_of_right_ne_nil _ hnil)
      rw [hf, encodeAll_cons, List.append_assoc] at hbuf
      have hlen : s.nextBuffer.length ≤ maxHeld := by
        have := h.held
        omega
      obtain ⟨et, -, hcheck⟩ := SplProtocol.check_encode hbuf hne hlen
      have hcheckd : d.check = ⟨d.waiting.tail, rest, d.ready ++ [m]⟩ := by
        rw [Desk.check_of_not_noise hnot, Mailbox.check, hf]
        rfl
      refine ⟨et, _, hcheck, h.checked rfl ?_ ?_ ?_⟩
      · rw [hcheckd]
      · rw [hcheckd, List.map_append, ← List.append_assoc, ← h.waitReadQue]
        rfl
      · show s.fetched.pending + (encodeAll rest ++ g).length ≤ s.held
        rw [hheld, hbuf]
        simp only [List.length_append]
        omega

end Covers

/-! ### Runs -/

/-- The states after pushes of messages and of noise, and checks, from `s₀` on, and
the messages that were pushed.  Messages without data are pushed only if something
is left over in `s₀`: a check does not take one that ends the buffer. -/
inductive Resumed (s₀ : SplProtocol) : SplProtocol → List Message → Prop
  | start : Resumed s₀ s₀ []
  | messages {s : SplProtocol} {pushed ms : List Message} (hr : Resumed s₀ s pushed)
      (hne : ms ≠ []) (hdata : s₀.historyData = [] → ∀ m ∈ ms, m.data ≠ [])
      (hheld : s.held + (encodeAll ms).length ≤ maxHeld) :
      Resumed s₀ (s.pushData (encodeAll ms)) (pushed ++ ms)
  | noise {s : SplProtocol} {pushed : List Message} {c : Bytes} (hr : Resumed s₀ s pushed)
      (hc : Noise c) (hheld : s.held + c.length ≤ maxHeld) : Resumed s₀ (s.pushData c) pushed
  | check {s s' : SplProtocol} {pushed : List Message} {et : CheckType}
      (hr : Resumed s₀ s pushed) (hc : s.check = .ok (et, s')) : Resumed s₀ s' pushed

/-- `n` checks. -/
def checkTimes : ℕ → SplProtocol → Except Fault SplProtocol
  | 0, s => .ok s
  | n + 1, s => do
    let (_, s) ← s.check
    checkTimes n s

/-- The receiver is a desk with the messages that were pushed. -/
theorem Resumed.exists_covers {s₀ s : SplProtocol} {pushed : List Message}
    (hr : Resumed s₀ s pushed) (hin : s₀.inputor = some {}) (hheld : s₀.held ≤ maxHeld)
    (hg : Inert s₀.historyData) :
    ∃ d, Covers s₀.historyData s₀.waitReadQue d s
      ∧ (d.ready ++ d.mailbox.undelivered).Perm pushed := by
  induction hr with
  | start =>
    refine ⟨⟨[], [], []⟩, ⟨hin, rfl, (List.append_nil _).symm, ?_, ?_, hheld⟩, List.Perm.refl _⟩
    · intro c hc
      exact absurd hc List.not_mem_nil
    · intro _ m hm
      exact absurd hm List.not_mem_nil
  | @messages s pushed ms hr hne hdata hheld ih =>
    obtain ⟨d, hd, hperm⟩ := ih
    have hvalid : (Chunk.messages ms).Valid s₀.historyData := ⟨hne, hdata⟩
    refine ⟨d.push (.messages ms), hd.push hvalid hheld, ?_⟩
    have hpush : (d.push (.messages ms)).mailbox = d.mailbox.push ms := by
      rw [Desk.push, Desk.mailbox, List.map_append]
      rfl
    rw [hpush]
    refine (List.Perm.append_left d.ready (d.mailbox.push_undelivered_perm ms)).trans ?_
    rw [← List.append_assoc]
    exact List.Perm.append_right ms hperm
  | @noise s pushed c hr hc hheld ih =>
    obtain ⟨d, hd, hperm⟩ := ih
    have hvalid : (Chunk.noise c).Valid s₀.historyData := hc
    refine ⟨d.push (.noise c), hd.push hvalid hheld, ?_⟩
    have hpush : (d.push (.noise c)).mailbox = d.mailbox.push [] := by
      rw [Desk.push, Desk.mailbox, List.map_append]
      rfl
    rw [hpush]
    refine (List.Perm.append_left d.ready (d.mailbox.push_undelivered_perm [])).trans ?_
    rwa [List.append_nil]
  | check hr hc ih =>
    obtain ⟨d, hd, hperm⟩ := ih
    obtain ⟨et, s', hcheck, hd'⟩ := hd.check hg
    rw [hc] at hcheck
    cases hcheck
    exact ⟨d.check, hd', d.check_perm.trans hperm⟩

/-- A check brings the desk nearer to being empty. -/
theorem Covers.size_check {g : Bytes} {que : List SplPackage} {d : Desk} {s : SplProtocol}
    (h : Covers g que d s) (hpos : 0 < d.size) : d.check.size < d.size := by
  unfold Desk.size at hpos ⊢
  rw [d.waiting_check, List.length_tail]
  by_cases hnoise : ∃ c rest, d.waiting = .noise c :: rest
  · obtain ⟨c, rest, hw⟩ := hnoise
    rw [Desk.undelivered_of_noise hw, hw, List.length_cons]
    omega
  · have hnot : ∀ c rest, d.waiting ≠ .noise c :: rest := fun c rest hw => hnoise ⟨c, rest, hw⟩
    rw [Desk.mailbox_check_of_not_noise hnot]
    cases hf : d.mailbox.front with
    | nil =>
      obtain ⟨hw, hleft⟩ := h.waiting_eq_nil hnot hf
      rw [Desk.mailbox, hw, hleft] at hpos
      exact absurd hpos (lt_irrefl 0)
    | cons m rest =>
      have hlen := d.mailbox.undelivered_perm.length_eq
      have hcheck : d.mailbox.check.undelivered = d.mailbox.waiting.tail.flatten ++ rest := by
        rw [Mailbox.check, hf]
        rfl
      rw [hcheck, List.length_append]
      rw [hf, List.length_append, List.length_cons] at hlen
      omega

/-- As many checks as the desk needs empty it. -/
theorem Covers.exists_checkTimes {g : Bytes} {que : List SplPackage} (hg : Inert g) :
    ∀ {n : ℕ} {d : Desk} {s : SplProtocol}, Covers g que d s → d.size ≤ n →
      ∃ k s' d', checkTimes k s = .ok s' ∧ Covers g que d' s' ∧ d'.size = 0
        ∧ (d'.ready ++ d'.mailbox.undelivered).Perm (d.ready ++ d.mailbox.undelivered) := by
  intro n
  induction n with
  | zero =>
    intro d s h hn
    exact ⟨0, s, d, rfl, h, Nat.le_zero.mp hn, List.Perm.refl _⟩
  | succ n ih =>
    intro d s h hn
    by_cases hzero : d.size = 0
    · exact ⟨0, s, d, rfl, h, hzero, List.Perm.refl _⟩
    · obtain ⟨et, s₁, hcheck, h₁⟩ := h.check hg
      have hlt := h.size_check (Nat.pos_of_ne_zero hzero)
      obtain ⟨k, s', d', hk, h', hsize, hperm⟩ := ih h₁ (by omega)
      refine ⟨k + 1, s', d', ?_, h', hsize, hperm.trans d.check_perm⟩
      rw [checkTimes, hcheck]
      exact hk

/-- **Everything comes out, and what was left over is left over.**  From a receiver
whose leftover is inert, whatever noise comes in between the messages: no check
faults, no message is lost or duplicated at any moment, and some number of checks
brings out all of them and leaves the leftover as it was. -/
theorem delivered_through_noise {s₀ s : SplProtocol} {pushed : List Message}
    (hr : Resumed s₀ s pushed) (hin : s₀.inputor = some {}) (hheld : s₀.held ≤ maxHeld)
    (hg : Inert s₀.historyData) :
    (∃ x, s.check = .ok x)
      ∧ (∃ ready left : List Message,
          s.waitReadQue = s₀.waitReadQue ++ ready.map Message.delivered
          ∧ (ready ++ left).Perm pushed)
      ∧ ∃ n s', checkTimes n s = .ok s' ∧ s'.inputor = some {}
          ∧ s'.historyData = s₀.historyData
          ∧ s'.waitReadQue.Perm (s₀.waitReadQue ++ pushed.map Message.delivered) := by
  obtain ⟨d, hd, hperm⟩ := hr.exists_covers hin hheld hg
  obtain ⟨et, s₁, hcheck, -⟩ := hd.check hg
  refine ⟨⟨_, hcheck⟩, ⟨d.ready, d.mailbox.undelivered, hd.waitReadQue, hperm⟩, ?_⟩
  obtain ⟨n, s', d', hn, hd', hsize, hperm'⟩ := Covers.exists_checkTimes hg hd le_rfl
  -- nothing waits at an empty desk
  have hw : d'.waiting = [] := List.eq_nil_of_length_eq_zero (Nat.eq_zero_of_add_eq_zero_right hsize)
  have hu : d'.mailbox.undelivered = [] :=
    List.eq_nil_of_length_eq_zero (Nat.eq_zero_of_add_eq_zero_left hsize)
  have hleft : d'.left = [] := (List.append_eq_nil_iff.mp hu).2
  refine ⟨n, s', hn, ?_, ?_, ?_⟩
  · rw [hd'.inputor, hw]
    rfl
  · rw [hd'.historyData, hleft]
    rfl
  · rw [hu, List.append_nil] at hperm'
    rw [hd'.waitReadQue]
    exact List.Perm.append_left _ ((hperm'.trans hperm).map Message.delivered)

theorem inert_firstLine : Inert firstLine :=
  Or.inr ⟨⟨.failedService, { head := protocolHead }, -1⟩, by decide +kernel, by decide⟩

/-- What is left of a package that was cut off, and noise in front of a message. -/
theorem delivered_through_noise_ping :
    (∃ x, SplProtocol.check ⟨firstLine, [], some ⟨[[0, 1], encodeAll [ping]]⟩⟩ = .ok x)
      ∧ (∃ ready left : List Message,
          ([] : List SplPackage) = [] ++ ready.map Message.delivered
          ∧ (ready ++ left).Perm ([] ++ [ping]))
      ∧ ∃ n s', checkTimes n ⟨firstLine, [], some ⟨[[0, 1], encodeAll [ping]]⟩⟩ = .ok s'
          ∧ s'.inputor = some {} ∧ s'.historyData = firstLine
          ∧ s'.waitReadQue.Perm ([] ++ ([] ++ [ping]).map Message.delivered) := by
  have hr : Resumed ⟨firstLine, [], some {}⟩
      ⟨firstLine, [], some ⟨[[0, 1], encodeAll [ping]]⟩⟩ ([] ++ [ping]) :=
    (Resumed.start.noise (by decide) (by decide +kernel)).messages (by decide) (by decide)
      (by decide +kernel)
  exact delivered_through_noise hr rfl (by decide +kernel) inert_firstLine

end AndrenBoost.Spl
