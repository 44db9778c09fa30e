import AndrenBoost.Spl.Aligned
import AndrenBoost.Spl.Threads

/-!
# Messages exchanged between threads

One thread pushes chunks of whole messages with data, one calls `check` again and
again, and one reads packages, as many as it has been told are ready.  A check under
way counts as done: what it will leave is a mailbox at every moment, whatever the
other threads do before it has ended.

## Main definitions

* `Threads.held` — the bytes held by the receiver and by the check under way.
* `Holds b t` — the threads hold the messages of the mailbox `b`.
* `Running t pushed got known begun` — the states of the program; the messages that
  were pushed, the packages that were read, how many more the reader knows of, and
  the checks begun since the last push.

## Main results

* `finish_frame` — a check under way does not mind a push or a read.
* `Holds.advance` — the first section of a check is a check of the mailbox.
* `exchanged_exactly_once` — **nothing is lost or duplicated, no thread reaches a
  fault, and everything becomes ready.**
-/

namespace AndrenBoost.Spl

open StdString

/-! ### The check under way -/

/-- The bytes in the local variables of a check. -/
def Checking.held : Checking → ℕ
  | fetched buf => buf.length
  | glued buf => buf.length
  | _ => 0

/-- The bytes held by the receiver and by the check under way. -/
def Threads.held (t : Threads) : ℕ := t.protocol.held + t.checking.held

/-- Settling goes by the history, adds to the queue of packages, and does not look
at the input queue. -/
theorem settle_frame {s s' : SplProtocol} {buf : Bytes} {r : ParserResult} {et : CheckType}
    (h : s.settle buf r = .ok (et, s')) :
    ∃ new, s'.waitReadQue = s.waitReadQue ++ new ∧ s'.inputor = s.inputor
      ∧ s'.historyData.length ≤ max s.historyData.length buf.length
      ∧ ∀ que input, SplProtocol.settle ⟨s.historyData, que, input⟩ buf r
          = .ok (et, ⟨s'.historyData, que ++ new, input⟩) := by
  have hs := s.settle_settled buf r
  rw [h] at hs
  cases hs with
  | sliced hpos hle =>
    refine ⟨[r.pack], rfl, rfl, ?_, fun que input => SplProtocol.settle_pos _ hpos hle⟩
    show (buf.drop r.ret.toNat).length ≤ _
    rw [List.length_drop]
    exact (Nat.sub_le _ _).trans (le_max_right _ _)
  | pushed hzero =>
    exact ⟨[r.pack], rfl, rfl, le_max_left _ _, fun que input => SplProtocol.settle_zero _ hzero⟩
  | forgotten hneg het =>
    refine ⟨[], (List.append_nil _).symm, rfl, le_max_left _ _, fun que input => ?_⟩
    rw [List.append_nil]
    exact SplProtocol.settle_head _ hneg het
  | stored hneg het =>
    refine ⟨[], (List.append_nil _).symm, rfl, le_max_right _ _, fun que input => ?_⟩
    rw [List.append_nil]
    exact SplProtocol.settle_neg _ hneg het

/-- A check under way does not mind what others do to the input queue and to the
front of the queue of packages. -/
theorem finish_frame {s s' : SplProtocol} {c : Checking} {et : CheckType} (hc : c ≠ .idle)
    (h : Threads.finish ⟨s, c⟩ = .ok (et, s')) :
    ∃ new, s'.waitReadQue = s.waitReadQue ++ new ∧ s'.inputor = s.inputor
      ∧ s'.historyData.length ≤ s.historyData.length + c.held
      ∧ ∀ que input, Threads.finish ⟨⟨s.historyData, que, input⟩, c⟩
          = .ok (et, ⟨s'.historyData, que ++ new, input⟩) := by
  have hparse : ∀ buf : Bytes, (parser buf {} >>= s.settle buf) = .ok (et, s') →
      ∃ new, s'.waitReadQue = s.waitReadQue ++ new ∧ s'.inputor = s.inputor
        ∧ s'.historyData.length ≤ max s.historyData.length buf.length
        ∧ ∀ que input, (parser buf {} >>= SplProtocol.settle ⟨s.historyData, que, input⟩ buf)
            = .ok (et, ⟨s'.historyData, que ++ new, input⟩) := by
    intro buf h
    cases hp : parser buf {} with
    | error e => rw [hp] at h; cases h
    | ok r =>
      rw [hp, ok_bind] at h
      exact settle_frame h
  cases c with
  | idle => exact absurd rfl hc
  | fetched chunk =>
    unfold Threads.finish at h ⊢
    dsimp only at h ⊢
    split_ifs at h ⊢
    · cases h
      refine ⟨[], (List.append_nil _).symm, rfl, Nat.le_add_right _ _, fun que input => ?_⟩
      rw [List.append_nil]
    · obtain ⟨new, hque, hinput, hlen, hframe⟩ := hparse _ h
      refine ⟨new, hque, hinput, hlen.trans ?_, hframe⟩
      rw [List.length_append, Checking.held]
      omega
  | glued buf =>
    obtain ⟨new, hque, hinput, hlen, hframe⟩ := hparse buf h
    exact ⟨new, hque, hinput, hlen.trans (max_le_add_of_nonneg (Nat.zero_le _) (Nat.zero_le _)),
      hframe⟩
  | parsed et pack =>
    cases h
    exact ⟨[pack], rfl, rfl, Nat.le_add_right _ _, fun que input => rfl⟩

/-- No section takes a package away. -/
theorem length_waitReadQue_le {t t' : Threads} {et : Option CheckType}
    (h : t.advance = .ok (et, t')) :
    t.protocol.waitReadQue.length ≤ t'.protocol.waitReadQue.length := by
  by_cases hpart : (Event.advance t.checking.stage et).part = .waitReadQue
  · obtain ⟨s, checking⟩ := t
    cases checking with
    | parsed et pack =>
      cases h
      show s.waitReadQue.length ≤ (s.waitReadQue ++ [pack]).length
      rw [List.length_append]
      exact Nat.le_add_right _ _
    | _ => cases hpart
  · obtain ⟨u, hu, -, -, hframe⟩ := advance_congr rfl h rfl rfl
    rw [h] at hu
    cases hu
    have hque : t'.protocol.waitReadQue = t.protocol.waitReadQue :=
      hframe .waitReadQue nofun fun heq => hpart heq.symm
    rw [hque]

/-! ### The threads as a mailbox -/

/-- The threads hold the messages of a mailbox, the check under way counting as
done. -/
inductive Holds (b : Mailbox Message) : Threads → Prop
  | resting {s : SplProtocol} (h : Represents b s) : Holds b (Threads.rest s)
  | checking {s s' : SplProtocol} {c : Checking} {et : CheckType} (hc : c ≠ .idle)
      (hf : Threads.finish ⟨s, c⟩ = .ok (et, s')) (h : Represents b s') : Holds b ⟨s, c⟩

namespace Holds

variable {b : Mailbox Message} {t t' : Threads}

/-- The call under way, or the next one, ends well. -/
theorem exists_finish (h : Holds b t) : ∃ x, t.finish = .ok x := by
  cases h with
  | resting h =>
    obtain ⟨et, s', hcheck, -⟩ := h.check
    exact ⟨_, hcheck⟩
  | checking hc hf h => exact ⟨_, hf⟩

/-- No section of a check faults. -/
theorem exists_advance (h : Holds b t) : ∃ x, t.advance = .ok x := by
  obtain ⟨x, hx⟩ := h.exists_finish
  rw [Threads.finish_eq] at hx
  cases ha : t.advance with
  | error e => rw [ha] at hx; cases hx
  | ok y => exact ⟨y, rfl⟩

/-- The first section of a check is a check of the mailbox, the others leave it. -/
theorem advance (h : Holds b t) {et : Option CheckType} (ha : t.advance = .ok (et, t')) :
    Holds (if t.checking = .idle then b.check else b) t' := by
  have hstage := Threads.advance_stage ha
  -- what the call comes to, and what that holds
  obtain ⟨et', s', hf, hs'⟩ : ∃ et' s', t.finish = .ok (et', s')
      ∧ Represents (if t.checking = .idle then b.check else b) s' := by
    cases h with
    | @resting s h =>
      obtain ⟨et', s', hcheck, hb, -⟩ := h.check
      have hidle : (Threads.rest s).checking = .idle := rfl
      exact ⟨et', s', hcheck, by rwa [if_pos hidle]⟩
    | checking hc hf h => exact ⟨_, _, hf, by rwa [if_neg hc]⟩
  rw [Threads.finish_eq, ha] at hf
  obtain ⟨s₁, c₁⟩ := t'
  cases et with
  | some et =>
    rw [Option.isSome_some, if_pos rfl] at hstage
    cases hstage
    cases hf
    exact .resting hs'
  | none =>
    rw [Option.isSome_none, if_neg Bool.false_ne_true] at hstage
    refine .checking (fun hc => ?_) hf hs'
    rw [hc] at hstage
    exact absurd hstage (Nat.succ_ne_zero _).symm

/-- While nobody checks, a check has something to look at. -/
theorem front_ne_nil (h : Holds b t) (hidle : t.checking = .idle) (hne : b.undelivered ≠ []) :
    b.front ≠ [] := by
  cases h with
  | resting h => exact h.front_ne_nil hne
  | checking hc hf h => exact absurd hidle hc

/-- A chunk of messages comes in. -/
theorem push {s : SplProtocol} {c : Checking} (h : Holds b ⟨s, c⟩) {g : List Message}
    (hg : g ≠ []) (hdata : ∀ m ∈ g, m.data ≠ [])
    (hheld : Threads.held ⟨s, c⟩ + (encodeAll g).length ≤ maxHeld) :
    Holds (b.push g) ⟨s.pushData (encodeAll g), c⟩ := by
  cases h with
  | resting h => exact .resting (h.push hg hdata hheld)
  | @checking _ s' _ et hc hf h =>
    obtain ⟨new, hque, hinput, hlen, hframe⟩ := finish_frame hc hf
    have hpending : s'.pending = s.pending := by
      unfold SplProtocol.pending
      rw [hinput]
    have hf' : Threads.finish ⟨s.pushData (encodeAll g), c⟩
        = .ok (et, s'.pushData (encodeAll g)) := by
      have := hframe s.waitReadQue (s.pushData (encodeAll g)).inputor
      rw [← hque] at this
      rw [SplProtocol.pushData, SplProtocol.pushData, hinput]
      exact this
    refine .checking hc hf' (h.push hg hdata ?_)
    unfold Threads.held SplProtocol.held at hheld
    unfold SplProtocol.held
    dsimp only at hheld
    omega

/-- A package is read. -/
theorem read {s s' : SplProtocol} {c : Checking} {p : SplPackage} (h : Holds b ⟨s, c⟩)
    (hfetch : s.fetchOnePackage = .ok (p, s')) :
    Holds b.read ⟨s', c⟩ ∧ ∃ m, b.ready = m :: b.read.ready ∧ p = m.delivered := by
  cases h with
  | resting h => exact ⟨.resting (h.read hfetch).1, (h.read hfetch).2⟩
  | @checking _ s₁ _ et hc hf h =>
    obtain ⟨new, hque, hinput, -, hframe⟩ := finish_frame hc hf
    obtain ⟨history, que, input⟩ := s
    obtain ⟨history₁, que₁, input₁⟩ := s₁
    cases hque
    cases hinput
    cases que with
    | nil => cases hfetch
    | cons p que =>
      cases hfetch
      have hfetch : SplProtocol.fetchOnePackage ⟨history₁, p :: que ++ new, input⟩
          = .ok (p, ⟨history₁, que ++ new, input⟩) := rfl
      have hread := h.read hfetch
      exact ⟨.checking hc (hframe que input) hread.1, hread.2⟩

/-- What is ready is at the front of the mailbox's queue; behind it is what the
check under way delivers. -/
theorem exists_ready (h : Holds b t) : ∃ new, b.ready.map Message.delivered
      = t.protocol.waitReadQue ++ new ∧ (t.checking = .idle → new = []) := by
  cases h with
  | resting h => exact ⟨[], by rw [List.append_nil]; exact h.waitReadQue.symm, fun _ => rfl⟩
  | checking hc hf h =>
    obtain ⟨new, hque, -⟩ := finish_frame hc hf
    exact ⟨new, by rw [← hque]; exact h.waitReadQue.symm, fun hidle => absurd hidle hc⟩

end Holds

/-! ### The program -/

/-- The states of the program.  A chunk is pushed only if there is memory for it,
and a package is read only if the reader knows that it is ready. -/
inductive Running : Threads → List Message → List SplPackage → ℕ → ℕ → Prop
  | start : Running (Threads.rest .fresh) [] [] 0 0
  | push {s : SplProtocol} {c : Checking} {pushed g : List Message} {got : List SplPackage}
      {known begun : ℕ} (hr : Running ⟨s, c⟩ pushed got known begun) (hg : g ≠ [])
      (hdata : ∀ m ∈ g, m.data ≠ [])
      (hheld : Threads.held ⟨s, c⟩ + (encodeAll g).length ≤ maxHeld) :
      Running ⟨s.pushData (encodeAll g), c⟩ (pushed ++ g) got known 0
  | advance {t t' : Threads} {pushed : List Message} {got : List SplPackage} {known begun : ℕ}
      {et : Option CheckType} (hr : Running t pushed got known begun)
      (ha : t.advance = .ok (et, t')) :
      Running t' pushed got known (if t.checking = .idle then begun + 1 else begun)
  | count {t : Threads} {pushed : List Message} {got : List SplPackage} {known begun : ℕ}
      (hr : Running t pushed got known begun) :
      Running t pushed got t.protocol.readyPackageCount.toNat begun
  | read {s s' : SplProtocol} {c : Checking} {pushed : List Message} {got : List SplPackage}
      {p : SplPackage} {known begun : ℕ} (hr : Running ⟨s, c⟩ pushed got (known + 1) begun)
      (hfetch : s.fetchOnePackage = .ok (p, s')) :
      Running ⟨s', c⟩ pushed (got ++ [p]) known begun

/-- What holds in every state of the program. -/
structure Exchanged (b : Mailbox Message) (t : Threads) (pushed : List Message)
    (got : List SplPackage) (known begun : ℕ) : Prop where
  holds : Holds b t
  perm : (got ++ (b.ready ++ b.undelivered).map Message.delivered).Perm
    (pushed.map Message.delivered)
  known : known ≤ t.protocol.waitReadQue.length
  begun : b.undelivered = [] ∨ b.undelivered.length + begun ≤ pushed.length

/-- A check of a mailbox delivers a message, if there is one. -/
theorem Mailbox.length_check {M : Type*} (b : Mailbox M) (h : b.front ≠ []) :
    b.check.undelivered.length + 1 = b.undelivered.length := by
  obtain ⟨m, rest, hf⟩ := List.exists_cons_of_ne_nil h
  rw [b.undelivered_perm.length_eq, hf, check, hf, undelivered]
  dsimp only
  rw [List.length_append, List.length_append, List.length_cons]
  omega

theorem Mailbox.check_undelivered_of_nil {M : Type*} {b : Mailbox M} (h : b.undelivered = []) :
    b.check.undelivered = [] :=
  List.eq_nil_iff_forall_not_mem.mpr fun _ hm =>
    List.not_mem_nil (h ▸ b.mem_of_mem_check_undelivered hm)

namespace Exchanged

variable {b : Mailbox Message} {pushed : List Message} {got : List SplPackage} {known begun : ℕ}

theorem push {s : SplProtocol} {c : Checking} (h : Exchanged b ⟨s, c⟩ pushed got known begun)
    {g : List Message} (hg : g ≠ []) (hdata : ∀ m ∈ g, m.data ≠ [])
    (hheld : Threads.held ⟨s, c⟩ + (encodeAll g).length ≤ maxHeld) :
    Exchanged (b.push g) ⟨s.pushData (encodeAll g), c⟩ (pushed ++ g) got known 0 where
  holds := h.holds.push hg hdata hheld
  perm := by
    have hperm : (b.ready ++ (b.push g).undelivered).Perm ((b.ready ++ b.undelivered) ++ g) := by
      rw [List.append_assoc]
      exact List.Perm.append_left b.ready (b.push_undelivered_perm g)
    refine (List.Perm.append_left got (hperm.map Message.delivered)).trans ?_
    have hright := h.perm.append_right (g.map Message.delivered)
    rwa [List.append_assoc, ← List.map_append, ← List.map_append] at hright
  known := h.known
  begun := by
    refine Or.inr ?_
    have hlen := h.perm.length_eq
    rw [(b.push_undelivered_perm g).length_eq]
    simp only [List.length_append, List.length_map] at hlen ⊢
    omega

/-- A section keeps what was read and what is known. -/
theorem advance {t t' : Threads} (h : Exchanged b t pushed got known begun)
    {et : Option CheckType} (ha : t.advance = .ok (et, t')) :
    Exchanged (if t.checking = .idle then b.check else b) t' pushed got known
      (if t.checking = .idle then begun + 1 else begun) where
  holds := h.holds.advance ha
  perm := by
    split_ifs
    · exact (List.Perm.append_left got (b.check_perm.map Message.delivered)).trans h.perm
    · exact h.perm
  known := h.known.trans (length_waitReadQue_le ha)
  begun := by
    split_ifs with hidle
    · by_cases hnil : b.undelivered = []
      · exact Or.inl (Mailbox.check_undelivered_of_nil hnil)
      · refine Or.inr ?_
        have := b.length_check (h.holds.front_ne_nil hidle hnil)
        have := h.begun.resolve_left hnil
        omega
    · exact h.begun

theorem read {s s' : SplProtocol} {c : Checking} {p : SplPackage}
    (h : Exchanged b ⟨s, c⟩ pushed got (known + 1) begun)
    (hfetch : s.fetchOnePackage = .ok (p, s')) :
    Exchanged b.read ⟨s', c⟩ pushed (got ++ [p]) known begun := by
  obtain ⟨hholds, m, hready, rfl⟩ := h.holds.read hfetch
  refine ⟨hholds, ?_, ?_, h.begun⟩
  · have hperm := h.perm
    rw [hready, List.cons_append, List.map_cons] at hperm
    rw [List.append_assoc]
    exact hperm
  · have hknown := h.known
    obtain ⟨history, que, input⟩ := s
    cases que with
    | nil => cases hfetch
    | cons p que =>
      cases hfetch
      exact Nat.le_of_succ_le_succ hknown

end Exchanged

/-- The count is never too large, even if it does not fit in its type. -/
theorem readyPackageCount_toNat_le (s : SplProtocol) :
    s.readyPackageCount.toNat ≤ s.waitReadQue.length := by
  unfold SplProtocol.readyPackageCount
  rw [Int.bmod_def]
  split_ifs <;> omega

/-- Every state of the program is a mailbox. -/
theorem Running.exists_exchanged {t : Threads} {pushed : List Message} {got : List SplPackage}
    {known begun : ℕ} (hr : Running t pushed got known begun) :
    ∃ b, Exchanged b t pushed got known begun := by
  induction hr with
  | start =>
    exact ⟨_, .resting represents_fresh, List.Perm.refl _, Nat.zero_le _, Or.inl rfl⟩
  | push hr hg hdata hheld ih =>
    obtain ⟨b, hb⟩ := ih
    exact ⟨b.push _, hb.push hg hdata hheld⟩
  | advance hr ha ih =>
    obtain ⟨b, hb⟩ := ih
    exact ⟨_, hb.advance ha⟩
  | @count t pushed got known begun hr ih =>
    obtain ⟨b, hb⟩ := ih
    exact ⟨b, hb.holds, hb.perm, readyPackageCount_toNat_le t.protocol, hb.begun⟩
  | read hr hfetch ih =>
    obtain ⟨b, hb⟩ := ih
    exact ⟨b.read, hb.read hfetch⟩

/-- **Nothing is lost or duplicated, no thread reaches a fault, and everything
becomes ready.**  At every moment the next section of the check succeeds, and so
does a read, if the reader knows of a package; what was read, what is ready and some
messages still on their way are what was pushed; and none is on its way any more
once as many checks were begun since the last push as messages were pushed, and the
last of them has ended. -/
theorem exchanged_exactly_once {t : Threads} {pushed : List Message} {got : List SplPackage}
    {known begun : ℕ} (hr : Running t pushed got known begun) :
    (∃ x, t.advance = .ok x) ∧ (0 < known → ∃ x, t.protocol.fetchOnePackage = .ok x)
      ∧ ∃ onTheWay : List Message,
        (got ++ t.protocol.waitReadQue ++ onTheWay.map Message.delivered).Perm
          (pushed.map Message.delivered)
        ∧ (t.checking = .idle → pushed.length ≤ begun → onTheWay = []) := by
  obtain ⟨b, hb⟩ := hr.exists_exchanged
  refine ⟨hb.holds.exists_advance, fun hknown => ?_, ?_⟩
  · have hlen := hb.known
    obtain ⟨p, que, hque⟩ := List.exists_cons_of_length_pos (hknown.trans_le hlen)
    unfold SplProtocol.fetchOnePackage
    rw [hque]
    exact ⟨_, rfl⟩
  · obtain ⟨new, hready, hidle⟩ := hb.holds.exists_ready
    -- the messages of the check under way are the last ones of the queue
    obtain ⟨before, under, hsplit, hbefore, hunder⟩ := List.map_eq_append_iff.mp hready
    refine ⟨under ++ b.undelivered, ?_, fun hc hbegun => ?_⟩
    · rw [← hbefore, List.append_assoc, ← List.map_append, ← List.append_assoc, ← hsplit]
      exact hb.perm
    · rw [hidle hc] at hunder
      rw [List.map_eq_nil_iff.mp hunder, List.nil_append]
      rcases hb.begun with hnil | hle
      · exact hnil
      · exact List.eq_nil_of_length_eq_zero (by omega)

/-- A package has been parsed and counted, and another one is being fetched. -/
theorem running_pings :
    Running ⟨⟨[], [ping.delivered], some ⟨[]⟩⟩, .fetched ping.encode⟩ [ping, ping] [] 1 1 := by
  have hpush : ∀ {s : SplProtocol} {pushed : List Message} {known begun : ℕ},
      Running (Threads.rest s) pushed [] known begun → s.held + ping.encode.length ≤ maxHeld →
        Running (Threads.rest (s.pushData ping.encode)) (pushed ++ [ping]) [] known 0 := by
    intro s pushed known begun hr hheld
    have hrun := hr.push (g := [ping]) (by decide) (by decide)
    rw [encodeAll_cons, encodeAll, List.flatMap_nil, List.append_nil] at hrun
    exact hrun hheld
  have hone := hpush .start (by decide +kernel)
  have hfetched : Running ⟨⟨[], [], some ⟨[]⟩⟩, .fetched ping.encode⟩ [ping] [] 0 1 :=
    hone.advance rfl
  have hparsed : Running ⟨⟨[], [], some ⟨[]⟩⟩, .parsed .okAndMore ping.delivered⟩ [ping] [] 0 1 :=
    (hfetched.advance (advance_ping _).1).advance (advance_ping _).2
  have hresting : Running (Threads.rest ⟨[], [ping.delivered], some ⟨[]⟩⟩) [ping] [] 0 1 :=
    hparsed.advance rfl
  have hready : Running (Threads.rest ⟨[], [ping.delivered], some ⟨[]⟩⟩) [ping] [] 1 1 := by
    have hcount : (SplProtocol.readyPackageCount ⟨[], [ping.delivered], some ⟨[]⟩⟩).toNat = 1 := by
      decide
    rw [← hcount]
    exact hresting.count
  exact (hpush hready (by decide +kernel)).advance rfl

theorem exchanged_exactly_once_pings :
    (∃ x, Threads.advance ⟨⟨[], [ping.delivered], some ⟨[]⟩⟩, .fetched ping.encode⟩ = .ok x)
      ∧ (0 < 1 → ∃ x,
          SplProtocol.fetchOnePackage ⟨[], [ping.delivered], some ⟨[]⟩⟩ = .ok x)
      ∧ ∃ onTheWay : List Message,
        ([] ++ [ping.delivered] ++ onTheWay.map Message.delivered).Perm
          ([ping, ping].map Message.delivered)
        ∧ (Checking.fetched ping.encode = .idle → [ping, ping].length ≤ 1 → onTheWay = []) :=
  exchanged_exactly_once running_pings

end AndrenBoost.Spl
