import AndrenBoost.Spl.Aligned
import AndrenBoost.Spl.Outcome

/-!
# Any calls on any bytes

A client may push what it likes, check when it likes, read packages that are ready
and take the history away.  Whatever it pushed, a package that comes out is one that
`package` could have sent, or a header whose data is missing; and the bytes of the
former, of the histories taken and of what the receiver still holds have all been
pushed.

## Main definitions

* `SplProtocol.fetchHistoryData` — the history is taken away.
* `Phantom p` — a package whose data is missing.
* `Calls s pushed got cleared` — the states after any calls; the bytes that were
  pushed, the packages that were read, and the histories that were taken.
* `Relayed s t sent got` — two receivers in a row: what is read from the first one
  is encoded again and pushed to the second, and read from there.

## Main results

* `check_ledger` — what one check can push, and what it costs.
* `calls_genuine` — **what comes out of any bytes.**
* `calls_conserve` — **no bytes come into being.**
* `relayed_exactly_once` — **what comes out can be sent on.**
-/

namespace AndrenBoost.Spl

open StdString

/-- `spl_protocol_t::fetchHistoryData`: the string that is moved from is left empty. -/
def SplProtocol.fetchHistoryData (s : SplProtocol) : Bytes × SplProtocol :=
  (s.historyData, { s with historyData := [] })

/-! ### One check -/

/-- A header's package that declares data and has none. -/
structure Phantom (p : SplPackage) : Prop where
  head : p.head = protocolHead
  service : newLine ∉ p.service
  request : newLine ∉ p.request
  data : p.data = []
  dataSize : 0 < p.dataSize

/-- A complete package is what the receiver makes of a message. -/
theorem exists_message {h : Header} {d : Int} {data : Bytes} (hsize : (data.length : Int) = d) :
    ∃ m : Message, { h.pack d with data := data } = m.delivered := by
  refine ⟨⟨h.service, h.request, data, h.service_newLine, h.request_newLine⟩, ?_⟩
  rw [← hsize]
  rfl

theorem weight_delivered (m : Message) : weight m.delivered = m.encode.length := rfl

/-- What a check makes of the queue of packages, and of the bytes held. -/
inductive Ledger (s s' : SplProtocol) : Prop
  | nothing (hque : s'.waitReadQue = s.waitReadQue) (hheld : s'.held ≤ s.held)
  | message (m : Message) (hque : s'.waitReadQue = s.waitReadQue ++ [m.delivered])
      (hheld : m.encode.length + s'.held ≤ s.held)
  | phantom {p : SplPackage} (hp : Phantom p) (hque : s'.waitReadQue = s.waitReadQue ++ [p])
      (hheld : s'.held ≤ s.held)

/-- The bytes held after the input queue was fetched from. -/
theorem held_mk {s : SplProtocol} (history : Bytes) (que : List SplPackage) :
    (⟨history, que, s.fetched.inputor⟩ : SplProtocol).held = s.fetched.pending + history.length :=
  rfl

/-- A header without a body. -/
theorem ledger_of_missing {s s' : SplProtocol} {i : Inputor} (hi : s.inputor = some i)
    {h : Header} {d : Int} (hd : h.Declares d) {et : CheckType}
    (hc : s.fetched.settle s.nextBuffer ⟨.failedData, h.pack d, int64 (d - 1)⟩ = .ok (et, s'))
    (hlen : s.nextBuffer.length ≤ maxHeld) : Ledger s s' := by
  have hheld := SplProtocol.held_eq hi
  have hhist := historyData_length_le hi
  have hrange := stoll_range hd
  have hphantom : 0 ≤ int64 (d - 1) → int64 (d - 1) ≤ s.nextBuffer.length →
      Phantom (h.pack d) := by
    intro h0 hle
    refine ⟨rfl, h.service_newLine, h.request_newLine, rfl, ?_⟩
    -- the smallest number of the type, less one, is larger than any buffer
    by_cases hmin : d = -2 ^ 63
    · rw [int64_of_lt (by omega)] at hle
      rw [maxHeld] at hlen
      omega
    · rw [int64_eq (by omega)] at h0
      show 0 < d
      omega
  have hs := s.fetched.settle_settled s.nextBuffer ⟨.failedData, h.pack d, int64 (d - 1)⟩
  rw [hc] at hs
  cases hs with
  | sliced hpos hle =>
    refine .phantom (hphantom hpos.le hle) rfl ?_
    rw [held_mk, hheld, List.length_drop]
    omega
  | pushed hzero =>
    refine .phantom (hphantom (le_of_eq hzero.symm) (by dsimp only at hzero; omega)) rfl ?_
    show s.fetched.pending + s.historyData.length ≤ _
    omega
  | forgotten hneg het => cases het
  | stored hneg het =>
    refine .nothing rfl ?_
    rw [held_mk, hheld]

/-- The verdict is the parser's. -/
theorem settle_verdict {s s' : SplProtocol} {buf : Bytes} {r : ParserResult} {et : CheckType}
    (h : s.settle buf r = .ok (et, s')) : et = r.et := by
  have hs := s.settle_settled buf r
  rw [h] at hs
  cases hs <;> rfl

/-- A check fetches from the input queue, and does nothing else to it. -/
theorem check_inputor {s s' : SplProtocol} {et : CheckType} (hc : s.check = .ok (et, s')) :
    s'.inputor = s.fetched.inputor := by
  by_cases hbuf : s.nextBuffer = []
  · obtain ⟨et', hcheck, -⟩ := SplProtocol.check_of_nil hbuf
    rw [hcheck] at hc
    cases hc
    rfl
  · rw [SplProtocol.check_eq hbuf] at hc
    cases hp : parser s.nextBuffer {} with
    | error e => rw [hp] at hc; cases hc
    | ok r =>
      rw [hp, ok_bind] at hc
      have hs := s.fetched.settle_settled s.nextBuffer r
      rw [hc] at hs
      cases hs <;> rfl

/-- A check that succeeds delivers a message. -/
theorem Outcome.ledger {s s' : SplProtocol} {i : Inputor} (hi : s.inputor = some i)
    {et : CheckType} (h : Outcome s et s') (hok : et.hasOk = true) : Ledger s s' := by
  cases h with
  | dropped hno hline => exact absurd (hno.symm.trans hok) Bool.false_ne_true
  | kept hno => exact absurd (hno.symm.trans hok) Bool.false_ne_true
  | emptied hno hp hlen => exact absurd (hno.symm.trans hok) Bool.false_ne_true
  | @delivered h d body _ hd hbuf h0 hle =>
    have htake : (body.take d.toNat).length = d.toNat := by
      rw [List.length_take]
      omega
    have hsize : ((body.take d.toNat).length : Int) = d := by omega
    have hweight := weight_le_of_declares hd hsize
    obtain ⟨m, hm⟩ := exists_message (h := h) hsize
    refine .message m (by rw [← hm]) ?_
    rw [← weight_delivered, ← hm, held_mk, SplProtocol.held_eq hi, hbuf, List.length_append,
      List.length_drop]
    omega

/-- **What one check can push, and what it costs.** -/
theorem check_ledger {s s' : SplProtocol} {i : Inputor} (hi : s.inputor = some i)
    (hlen : s.nextBuffer.length ≤ maxHeld) {et : CheckType} (hc : s.check = .ok (et, s')) :
    Ledger s s' := by
  have hheld := SplProtocol.held_eq hi
  have hkept : Ledger s { s.fetched with historyData := s.nextBuffer } :=
    .nothing rfl (by rw [held_mk, hheld])
  have hdropped : Ledger s s.fetched :=
    .nothing rfl (by rw [hheld]; exact Nat.add_le_add_left (historyData_length_le hi) _)
  by_cases hbuf : s.nextBuffer = []
  · obtain ⟨et', hcheck, -⟩ := SplProtocol.check_of_nil hbuf
    rw [hcheck] at hc
    cases hc
    exact hdropped
  rw [SplProtocol.check_eq hbuf] at hc
  obtain ⟨h, d, body, hd, hdata⟩ | ⟨-, et', p, hr, -, hhead⟩ | ⟨hline, hr⟩ :=
    parser_cases s.nextBuffer
  · have hans : DataAnswer h d body (parser (h.bytes ++ body) {}) :=
      parser_dataAnswer hd (by rw [← hdata]; exact lt_of_le_of_lt hlen (by decide))
    rw [← hdata] at hans
    generalize parser s.nextBuffer {} = x at hans hc
    cases hans with
    | missing hb => exact ledger_of_missing hi hd hc hlen
    | failed hb hneg hret =>
      rw [ok_bind, SplProtocol.settle_neg s.fetched hret (fun heq => by cases heq)] at hc
      cases hc
      exact hkept
    | complete hb h0 hle hsum het =>
      rw [ok_bind] at hc
      have hverdict := settle_verdict hc
      dsimp only at hverdict
      have hok : et.hasOk = true := by
        rw [hverdict, het]
        split_ifs <;> rfl
      exact (settle_delivered (hverdict ▸ hok) hd hdata h0 hle hc).ledger hi hok
    | fault hb hbad hsum => cases hc
  · rw [hr, ok_bind, SplProtocol.settle_neg s.fetched (by dsimp only; omega) hhead] at hc
    cases hc
    exact hkept
  · rw [hr, ok_bind, SplProtocol.settle_head s.fetched (by dsimp only; omega) rfl] at hc
    cases hc
    exact hdropped

/-! ### Any calls -/

/-- The states after any calls, the number of bytes that were pushed, the packages
that were read, and the histories that were taken.  A chunk is pushed only if there
is memory for it. -/
inductive Calls : SplProtocol → ℕ → List SplPackage → List Bytes → Prop
  | start : Calls .fresh 0 [] []
  | push {s : SplProtocol} {pushed : ℕ} {got : List SplPackage} {cleared : List Bytes}
      (hr : Calls s pushed got cleared) (chunk : Bytes) (hheld : s.held + chunk.length ≤ maxHeld) :
      Calls (s.pushData chunk) (pushed + chunk.length) got cleared
  | check {s s' : SplProtocol} {pushed : ℕ} {got : List SplPackage} {cleared : List Bytes}
      {et : CheckType} (hr : Calls s pushed got cleared) (hc : s.check = .ok (et, s')) :
      Calls s' pushed got cleared
  | fetch {s s' : SplProtocol} {pushed : ℕ} {got : List SplPackage} {cleared : List Bytes}
      {p : SplPackage} (hr : Calls s pushed got cleared)
      (hf : s.fetchOnePackage = .ok (p, s')) : Calls s' pushed (got ++ [p]) cleared
  | clear {s s' : SplProtocol} {pushed : ℕ} {got : List SplPackage} {cleared : List Bytes}
      {history : Bytes} (hr : Calls s pushed got cleared)
      (hf : s.fetchHistoryData = (history, s')) : Calls s' pushed got (cleared ++ [history])

/-- The bytes a package took, if it is not a phantom. -/
def credit (p : SplPackage) : ℕ := if (p.data.length : Int) = p.dataSize then weight p else 0

theorem credit_delivered (m : Message) : credit m.delivered = m.encode.length := if_pos rfl

theorem Phantom.credit {p : SplPackage} (h : Phantom p) : credit p = 0 := by
  refine if_neg fun heq => ?_
  have := h.dataSize
  rw [h.data, List.length_nil] at heq
  omega

/-- What holds after any calls. -/
structure Accounted (s : SplProtocol) (pushed : ℕ) (got : List SplPackage)
    (cleared : List Bytes) : Prop where
  inputor : ∃ i, s.inputor = some i
  held : s.held ≤ maxHeld
  genuine : ∀ p ∈ got ++ s.waitReadQue, (∃ m : Message, p = m.delivered) ∨ Phantom p
  conserved : ((got ++ s.waitReadQue).map credit).sum + (cleared.map List.length).sum + s.held
    ≤ pushed

namespace Accounted

variable {s s' : SplProtocol} {pushed : ℕ} {got : List SplPackage} {cleared : List Bytes}

theorem push (h : Accounted s pushed got cleared) {chunk : Bytes}
    (hheld : s.held + chunk.length ≤ maxHeld) :
    Accounted (s.pushData chunk) (pushed + chunk.length) got cleared := by
  obtain ⟨i, hi⟩ := h.inputor
  have hpush := SplProtocol.held_pushData hi chunk
  refine ⟨⟨i.pushData chunk, ?_⟩, by rwa [hpush], h.genuine, ?_⟩
  · rw [SplProtocol.pushData, hi]
    rfl
  · have := h.conserved
    rw [hpush]
    show ((got ++ s.waitReadQue).map _).sum + _ + _ ≤ _
    omega

theorem check (h : Accounted s pushed got cleared) {et : CheckType}
    (hc : s.check = .ok (et, s')) : Accounted s' pushed got cleared := by
  obtain ⟨i, hi⟩ := h.inputor
  have hconserved := h.conserved
  have hheld := h.held
  have hlen : s.nextBuffer.length ≤ maxHeld := by
    rw [SplProtocol.held_eq hi] at hheld
    omega
  have hinput : ∃ i, s'.inputor = some i := by
    rw [check_inputor hc, SplProtocol.fetched, hi]
    exact ⟨_, rfl⟩
  cases check_ledger hi hlen hc with
  | nothing hque hle =>
    refine ⟨hinput, by omega, by rw [hque]; exact h.genuine, ?_⟩
    rw [hque]
    omega
  | message m hque hle =>
    refine ⟨hinput, by omega, ?_, ?_⟩
    · rw [hque, ← List.append_assoc]
      intro p hp
      rcases List.mem_append.mp hp with hp | hp
      · exact h.genuine p hp
      · exact Or.inl ⟨m, List.mem_singleton.mp hp⟩
    · rw [hque, ← List.append_assoc, List.map_append, List.sum_append, List.map_singleton,
        List.sum_singleton, credit_delivered]
      omega
  | @phantom p hp hque hle =>
    refine ⟨hinput, by omega, ?_, ?_⟩
    · rw [hque, ← List.append_assoc]
      intro q hq
      rcases List.mem_append.mp hq with hq | hq
      · exact h.genuine q hq
      · rw [List.mem_singleton.mp hq]
        exact Or.inr hp
    · rw [hque, ← List.append_assoc, List.map_append, List.sum_append, List.map_singleton,
        List.sum_singleton, hp.credit]
      omega

/-- A package that is read was ready, and is no longer. -/
theorem fetch (h : Accounted s pushed got cleared) {p : SplPackage}
    (hf : s.fetchOnePackage = .ok (p, s')) : Accounted s' pushed (got ++ [p]) cleared := by
  obtain ⟨history, que, input⟩ := s
  cases que with
  | nil => cases hf
  | cons p que =>
    cases hf
    have happend : got ++ p :: que = got ++ [p] ++ que := (List.append_cons got p que)
    exact ⟨h.inputor, h.held, happend ▸ h.genuine, happend ▸ h.conserved⟩

theorem clear (h : Accounted s pushed got cleared) {history : Bytes}
    (hf : s.fetchHistoryData = (history, s')) :
    Accounted s' pushed got (cleared ++ [history]) := by
  cases hf
  have hconserved := h.conserved
  have hheld := h.held
  unfold SplProtocol.held at hconserved hheld
  refine ⟨h.inputor, ?_, h.genuine, ?_⟩
  · show s.pending + 0 ≤ _
    omega
  · have hcleared : ((cleared ++ [s.historyData]).map List.length).sum
        = (cleared.map List.length).sum + s.historyData.length := by
      rw [List.map_append, List.sum_append, List.map_singleton, List.sum_singleton]
    show ((got ++ s.waitReadQue).map credit).sum + _ + (s.pending + 0) ≤ _
    omega

end Accounted

/-- All of this holds after any calls. -/
theorem Calls.accounted {s : SplProtocol} {pushed : ℕ} {got : List SplPackage}
    {cleared : List Bytes} (hr : Calls s pushed got cleared) : Accounted s pushed got cleared := by
  induction hr with
  | start =>
    exact ⟨⟨{}, rfl⟩, Nat.zero_le _, fun p hp => absurd hp List.not_mem_nil, Nat.le_refl _⟩
  | push hr chunk hheld ih => exact ih.push hheld
  | check hr hc ih => exact ih.check hc
  | fetch hr hf ih => exact ih.fetch hf
  | clear hr hf ih => exact ih.clear hf

/-- **What comes out of any bytes.**  Every package is the one the receiver makes of
some message, as if `package` had sent it, or lacks the data its header declares. -/
theorem calls_genuine {s : SplProtocol} {pushed : ℕ} {got : List SplPackage}
    {cleared : List Bytes} (hr : Calls s pushed got cleared) :
    ∀ p ∈ got ++ s.waitReadQue, (∃ m : Message, p = m.delivered) ∨ Phantom p :=
  hr.accounted.genuine

/-- **No bytes come into being.**  The shortest encodings of the packages that have
their data, the histories that were taken, and what is still held are no more than
what was pushed. -/
theorem calls_conserve {s : SplProtocol} {pushed : ℕ} {got : List SplPackage}
    {cleared : List Bytes} (hr : Calls s pushed got cleared) :
    ((got ++ s.waitReadQue).map credit).sum + (cleared.map List.length).sum + s.held ≤ pushed :=
  hr.accounted.conserved

/-- A header that declares one byte, and nothing behind it. -/
def bare : Bytes :=
  protocolHead ++ nextLine ++ serviceHead ++ ascii "s" ++ nextLine ++ requestHead ++ ascii "r"
    ++ nextLine ++ dataSizeHead ++ ascii "1" ++ nextLine ++ emptyLine ++ nextLine

theorem check_bare : SplProtocol.check ⟨[], [], some ⟨[bare]⟩⟩
    = .ok (.failedData, ⟨[], [⟨protocolHead, ascii "s", ascii "r", [], 1⟩], some ⟨[]⟩⟩) := by
  decide +kernel

theorem calls_bare : Calls ⟨[], [⟨protocolHead, ascii "s", ascii "r", [], 1⟩], some ⟨[]⟩⟩
    (0 + bare.length) [] [] :=
  (Calls.start.push bare (by decide +kernel)).check check_bare

theorem calls_genuine_bare :
    (∃ m : Message, (⟨protocolHead, ascii "s", ascii "r", [], 1⟩ : SplPackage) = m.delivered)
      ∨ Phantom ⟨protocolHead, ascii "s", ascii "r", [], 1⟩ :=
  calls_genuine calls_bare _ (List.mem_singleton_self _)

theorem calls_conserve_bare :
    (([] ++ [(⟨protocolHead, ascii "s", ascii "r", [], 1⟩ : SplPackage)]).map credit).sum
        + (([] : List Bytes).map List.length).sum
        + SplProtocol.held ⟨[], [⟨protocolHead, ascii "s", ascii "r", [], 1⟩], some ⟨[]⟩⟩
      ≤ 0 + bare.length :=
  calls_conserve calls_bare

/-! ### Sending on what came out -/

/-- Two receivers in a row, the packages sent on from the first to the second, and
those read from the second.  A package without data is read and not sent on. -/
inductive Relayed : SplProtocol → SplProtocol → List SplPackage → List SplPackage → Prop
  | start : Relayed .fresh .fresh [] []
  | push {s t : SplProtocol} {sent got : List SplPackage} (hr : Relayed s t sent got)
      (chunk : Bytes) (hheld : s.held + chunk.length ≤ maxHeld) :
      Relayed (s.pushData chunk) t sent got
  | checkFirst {s s' t : SplProtocol} {sent got : List SplPackage} {et : CheckType}
      (hr : Relayed s t sent got) (hc : s.check = .ok (et, s')) : Relayed s' t sent got
  | checkSecond {s t t' : SplProtocol} {sent got : List SplPackage} {et : CheckType}
      (hr : Relayed s t sent got) (hc : t.check = .ok (et, t')) : Relayed s t' sent got
  | skip {s s' t : SplProtocol} {sent got : List SplPackage} {p : SplPackage}
      (hr : Relayed s t sent got) (hf : s.fetchOnePackage = .ok (p, s')) (hdata : p.data = []) :
      Relayed s' t sent got
  | send {s s' t : SplProtocol} {sent got : List SplPackage} {p : SplPackage}
      (hr : Relayed s t sent got) (hf : s.fetchOnePackage = .ok (p, s')) (hdata : p.data ≠ [])
      (hheld : t.held + p.package.1.length ≤ maxHeld) :
      Relayed s' (t.pushData p.package.1) (sent ++ [p]) got
  | clearFirst {s s' t : SplProtocol} {sent got : List SplPackage} {history : Bytes}
      (hr : Relayed s t sent got) (hf : s.fetchHistoryData = (history, s')) :
      Relayed s' t sent got
  | fetchSecond {s t t' : SplProtocol} {sent got : List SplPackage} {p : SplPackage}
      (hr : Relayed s t sent got) (hf : t.fetchOnePackage = .ok (p, t')) :
      Relayed s t' sent (got ++ [p])

/-- The first receiver is called as any other. -/
theorem Relayed.exists_calls {s t : SplProtocol} {sent got : List SplPackage}
    (hr : Relayed s t sent got) : ∃ pushed read cleared, Calls s pushed read cleared := by
  induction hr with
  | start => exact ⟨0, [], [], .start⟩
  | push hr chunk hheld ih =>
    obtain ⟨n, read, cleared, hs⟩ := ih
    exact ⟨_, read, cleared, hs.push chunk hheld⟩
  | checkFirst hr hc ih =>
    obtain ⟨n, read, cleared, hs⟩ := ih
    exact ⟨n, read, cleared, hs.check hc⟩
  | skip hr hf hdata ih =>
    obtain ⟨n, read, cleared, hs⟩ := ih
    exact ⟨n, _, cleared, hs.fetch hf⟩
  | send hr hf hdata hheld ih =>
    obtain ⟨n, read, cleared, hs⟩ := ih
    exact ⟨n, _, cleared, hs.fetch hf⟩
  | clearFirst hr hf ih =>
    obtain ⟨n, read, cleared, hs⟩ := ih
    exact ⟨n, read, _, hs.clear hf⟩
  | checkSecond hr hc ih => exact ih
  | fetchSecond hr hf ih => exact ih

/-- What the second receiver is sent are encoded messages, so it is a mailbox. -/
theorem Relayed.exists_represents {s t : SplProtocol} {sent got : List SplPackage}
    (hr : Relayed s t sent got) :
    ∃ b, Represents b t
      ∧ (got ++ (b.ready ++ b.undelivered).map Message.delivered).Perm sent := by
  induction hr with
  | start => exact ⟨_, represents_fresh, List.Perm.refl _⟩
  | push hr chunk hheld ih => exact ih
  | checkFirst hr hc ih => exact ih
  | skip hr hf hdata ih => exact ih
  | clearFirst hr hf ih => exact ih
  | checkSecond hr hc ih =>
    obtain ⟨b, hb, hperm⟩ := ih
    obtain ⟨et, t', hcheck, hb', -⟩ := hb.check
    rw [hc] at hcheck
    cases hcheck
    exact ⟨b.check, hb', (List.Perm.append_left _ (b.check_perm.map _)).trans hperm⟩
  | @send s s' t sent got p hr hf hdata hheld ih =>
    obtain ⟨b, hb, hperm⟩ := ih
    obtain ⟨n, read, cleared, hs⟩ := hr.exists_calls
    -- it has data, so it is no phantom
    rcases (hs.fetch hf).accounted.genuine p (List.mem_append_left _ (List.mem_append_right _
      (List.mem_singleton_self _))) with ⟨m, rfl⟩ | hp
    · have hencode : encodeAll [m] = m.delivered.package.1 := by
        rw [encodeAll, List.flatMap_singleton]
        rfl
      rw [← hencode] at hheld ⊢
      refine ⟨b.push [m], hb.push (List.cons_ne_nil m []) (fun m' hm' => ?_) hheld, ?_⟩
      · rw [List.mem_singleton.mp hm']
        exact hdata
      · have hpush : (b.ready ++ (b.push [m]).undelivered).Perm
            (b.ready ++ b.undelivered ++ [m]) := by
          rw [List.append_assoc]
          exact List.Perm.append_left _ (b.push_undelivered_perm [m])
        refine (List.Perm.append_left got (hpush.map Message.delivered)).trans ?_
        rw [List.map_append, ← List.append_assoc]
        exact List.Perm.append_right _ hperm
    · exact absurd hp.data hdata
  | @fetchSecond s t t' sent got p hr hf ih =>
    obtain ⟨b, hb, hperm⟩ := ih
    obtain ⟨hread, m, hready, rfl⟩ := hb.read hf
    refine ⟨b.read, hread, ?_⟩
    rw [hready] at hperm
    rw [List.append_assoc]
    exact hperm

/-- **What comes out can be sent on.**  Whatever bytes the first receiver is given,
the packages with data that are read from it, encoded again and pushed to a second
one come out of that as they are: those read from it, those ready there and those
still encoded are those that were sent, and its check succeeds as long as there are
any of the last. -/
theorem relayed_exactly_once {s t : SplProtocol} {sent got : List SplPackage}
    (hr : Relayed s t sent got) :
    ∃ left : List Message, (got ++ t.waitReadQue ++ left.map Message.delivered).Perm sent
      ∧ ∃ et t', t.check = .ok (et, t') ∧ (left ≠ [] → et.hasOk = true
        ∧ ∃ m ∈ left, t'.waitReadQue = t.waitReadQue ++ [m.delivered]) := by
  obtain ⟨b, hb, hperm⟩ := hr.exists_represents
  obtain ⟨et, t', hcheck, hb', hok⟩ := hb.check
  refine ⟨b.undelivered, ?_, et, t', hcheck, fun hne => ⟨hok hne, ?_⟩⟩
  · rw [hb.waitReadQue, List.append_assoc, ← List.map_append]
    exact hperm
  · obtain ⟨m, rest, hf⟩ := List.exists_cons_of_ne_nil (hb.front_ne_nil hne)
    refine ⟨m, ?_, ?_⟩
    · rw [b.undelivered_perm.mem_iff, hf]
      exact List.mem_append_left _ List.mem_cons_self
    · rw [hb'.waitReadQue, hb.waitReadQue, Mailbox.check, hf]
      exact List.map_append

/-- Two packages on their way through both, the first of which is read. -/
theorem relayed_exactly_once_pings :
    ∃ left : List Message,
      ([ping.delivered] ++ [] ++ left.map Message.delivered).Perm
        ([] ++ [ping.delivered] ++ [ping.delivered])
      ∧ ∃ et t', SplProtocol.check ⟨[], [], some ⟨[ping.encode]⟩⟩ = .ok (et, t')
        ∧ (left ≠ [] → et.hasOk = true
          ∧ ∃ m ∈ left, t'.waitReadQue = [] ++ [m.delivered]) := by
  have hfirst : SplProtocol.check ⟨[], [], some ⟨[ping.encode]⟩⟩
      = .ok (.okAndMore, ⟨[], [ping.delivered], some ⟨[]⟩⟩) := by
    decide +kernel
  have hsent : Relayed .fresh ⟨[], [], some ⟨[ping.encode]⟩⟩ ([] ++ [ping.delivered]) [] :=
    ((Relayed.start.push ping.encode (by decide +kernel)).checkFirst hfirst).send rfl
      (by decide) (by decide +kernel)
  have hread : Relayed .fresh ⟨[], [], some ⟨[]⟩⟩ ([] ++ [ping.delivered]) ([] ++ [ping.delivered]) :=
    (hsent.checkSecond hfirst).fetchSecond rfl
  have hagain : Relayed .fresh ⟨[], [], some ⟨[ping.encode]⟩⟩
      ([] ++ [ping.delivered] ++ [ping.delivered]) ([] ++ [ping.delivered]) :=
    ((hread.push ping.encode (by decide +kernel)).checkFirst hfirst).send rfl
      (by decide) (by decide +kernel)
  exact relayed_exactly_once hagain

end AndrenBoost.Spl
