import AndrenBoost.Spl.Messages

/-!
# What a check can do

A check drops the chunk it fetched, keeps the buffer for the next one, delivers a
package, or pushes one without data to the queue although it reports a failure.
Only the second and the third account for every byte.

## Main definitions

* `Outcome s et s'` — the four things a check can do to `s`.
* `weight p` — the bytes `p` has at least taken.
* `SplProtocol.accounted s` — the bytes of the packages that are ready, and those
  held.
* `HasData s` — every package that is ready has data.

## Main results

* `check_outcome` — a check does one of the four.
* `Outcome.accounted_le` — **no bytes come into being**, as long as no package
  without data does.
-/

namespace AndrenBoost.Spl

open StdString

/-- What a check can do: verdict and state after it. -/
inductive Outcome (s : SplProtocol) : CheckType → SplProtocol → Prop
  /-- The buffer does not begin with the first line, and the chunk is gone. -/
  | dropped {et : CheckType} (hno : et.hasOk = false) (hline : ¬ firstLine <+: s.nextBuffer) :
      Outcome s et s.fetched
  /-- The buffer becomes the history. -/
  | kept {et : CheckType} (hno : et.hasOk = false) :
      Outcome s et { s.fetched with historyData := s.nextBuffer }
  /-- A package is complete. -/
  | delivered {et : CheckType} {h : Header} {d : Int} {body : Bytes} (hok : et.hasOk = true)
      (hd : h.Declares d) (hbuf : s.nextBuffer = h.bytes ++ body) (h0 : 0 ≤ d)
      (hle : d ≤ body.length) :
      Outcome s et { s.fetched with
        historyData := body.drop d.toNat
        waitReadQue := s.waitReadQue ++ [{ h.pack d with data := body.take d.toNat }] }
  /-- A header at the end of the buffer becomes a package without its data. -/
  | emptied {et : CheckType} {history : Bytes} {p : SplPackage} (hno : et.hasOk = false)
      (hp : p.data = []) (hlen : history.length ≤ s.nextBuffer.length) :
      Outcome s et { s.fetched with
        historyData := history, waitReadQue := s.waitReadQue ++ [p] }

/-- The history is part of the next buffer. -/
theorem historyData_length_le {s : SplProtocol} {i : Inputor} (h : s.inputor = some i) :
    s.historyData.length ≤ s.nextBuffer.length := by
  unfold SplProtocol.nextBuffer
  rw [h]
  dsimp only
  rw [List.length_append]
  omega

/-- Settling an answer without data that is not a verdict on the first line. -/
theorem settle_outcome {s s' : SplProtocol} {i : Inputor} {et et' : CheckType} {p : SplPackage}
    {ret : Int} (hi : s.inputor = some i) (hno : et.hasOk = false) (hhead : et ≠ .failedHead)
    (hp : p.data = []) (h : s.fetched.settle s.nextBuffer ⟨et, p, ret⟩ = .ok (et', s')) :
    Outcome s et' s' := by
  have hs := s.fetched.settle_settled s.nextBuffer ⟨et, p, ret⟩
  rw [h] at hs
  cases hs with
  | sliced hpos hle =>
    refine .emptied hno hp ?_
    rw [List.length_drop]
    omega
  | pushed hzero => exact .emptied hno hp (historyData_length_le hi)
  | forgotten hneg het => exact absurd het hhead
  | stored hneg het => exact .kept hno

/-- Settling a complete package. -/
theorem settle_delivered {s s' : SplProtocol} {h : Header} {d : Int} {body : Bytes}
    {et et' : CheckType} (hok : et.hasOk = true) (hd : h.Declares d)
    (hbuf : s.nextBuffer = h.bytes ++ body) (h0 : 0 ≤ d) (hle : d ≤ body.length)
    (hc : s.fetched.settle s.nextBuffer
      ⟨et, { h.pack d with data := body.take d.toNat }, h.bytes.length + d⟩ = .ok (et', s')) :
    Outcome s et' s' := by
  have hpos : 0 < h.bytes.length := by
    rw [Header.bytes, List.length_append]
    exact Nat.add_pos_left (by decide) _
  have hlen : (h.bytes.length + d : Int) ≤ s.nextBuffer.length := by
    rw [hbuf, List.length_append]
    omega
  rw [SplProtocol.settle_pos s.fetched (by dsimp only; omega) hlen] at hc
  have hdrop : s.nextBuffer.drop (h.bytes.length + d : Int).toNat = body.drop d.toNat := by
    rw [hbuf, show (h.bytes.length + d : Int).toNat = h.bytes.length + d.toNat by omega,
      ← List.drop_drop, List.drop_left]
  dsimp only at hc
  rw [hdrop] at hc
  cases hc
  exact .delivered hok hd hbuf h0 hle

/-- Everything a check can do. -/
theorem check_outcome {s s' : SplProtocol} {i : Inputor} {et : CheckType}
    (hi : s.inputor = some i) (hlen : s.nextBuffer.length ≤ maxHeld)
    (hc : s.check = .ok (et, s')) : Outcome s et s' := by
  by_cases hbuf : s.nextBuffer = []
  · obtain ⟨et', hcheck, hno⟩ := SplProtocol.check_of_nil hbuf
    rw [hcheck] at hc
    cases hc
    refine .dropped hno ?_
    rw [hbuf, List.prefix_nil]
    decide
  · rw [SplProtocol.check_eq hbuf] at hc
    obtain ⟨h, d, body, hd, hdata⟩ | ⟨-, et', p, hr, hno, hhead⟩ | ⟨hline, hr⟩ :=
      parser_cases s.nextBuffer
    · obtain ⟨x, hans, hcheck⟩ := SplProtocol.check_dataAnswer hd hdata
        (lt_of_le_of_lt hlen (by decide))
      rw [SplProtocol.check_eq hbuf] at hcheck
      rw [hcheck] at hc
      cases hans with
      | missing hb =>
        rw [ok_bind] at hc
        exact settle_outcome hi rfl (by decide) rfl hc
      | failed hb hneg hret =>
        rw [ok_bind] at hc
        exact settle_outcome hi rfl (by decide) rfl hc
      | complete hb h0 hle hsum het =>
        rw [ok_bind] at hc
        exact settle_delivered (by rw [het]; split_ifs <;> rfl) hd hdata h0 hle hc
      | fault hb hbad hsum => cases hc
    · rw [hr, ok_bind] at hc
      rw [SplProtocol.settle_neg s.fetched (by dsimp only; omega) hhead] at hc
      cases hc
      exact .kept hno
    · rw [hr, ok_bind, SplProtocol.settle_head s.fetched (by dsimp only; omega) rfl] at hc
      cases hc
      exact .dropped rfl hline

/-- A chunk that does not begin with the first line is dropped. -/
theorem check_of_not_firstLine {s : SplProtocol} (hline : ¬ firstLine <+: s.nextBuffer) :
    ∃ et, s.check = .ok (et, s.fetched) ∧ et.hasOk = false := by
  by_cases hbuf : s.nextBuffer = []
  · exact SplProtocol.check_of_nil hbuf
  · refine ⟨.failedHead, ?_, rfl⟩
    rw [SplProtocol.check_eq hbuf, parser_of_not_firstLine hline, ok_bind,
      SplProtocol.settle_head s.fetched (by dsimp only; omega) rfl]

/-! ### Accounting for the bytes -/

/-- The length of the shortest encoding of a package. -/
def weight (p : SplPackage) : ℕ := (packageOf p.service p.request p.data).length

/-- Every package that is ready has data. -/
def HasData (s : SplProtocol) : Prop := ∀ p ∈ s.waitReadQue, p.data ≠ []

namespace SplProtocol

/-- The bytes of the packages that are ready, and those held. -/
def accounted (s : SplProtocol) : ℕ := (s.waitReadQue.map weight).sum + s.held

end SplProtocol

/-- A header is no shorter than the one written for its package. -/
theorem weight_le_of_declares {h : Header} {d : Int} (hd : h.Declares d) {data : Bytes}
    (hdata : (data.length : Int) = d) :
    weight { h.pack d with data := data } ≤ h.bytes.length + data.length := by
  have hsize : (toDecimal data.length).length ≤ h.sizeText.length := by
    have := length_toDecimal_le_of_stoll hd
    rwa [← hdata, Int.toNat_natCast] at this
  unfold weight packageOf Header.bytes Header.serviceBytes Header.requestBytes Header.sizeBytes
    Header.emptyBytes Header.pack nextLine
  simp only [List.length_append, List.length_cons, List.length_nil]
  have hnl : (ascii "\n").length = 1 := by decide
  omega

/-- At most one chunk waits in the input queue. -/
def Single (s : SplProtocol) : Prop := s.fetched.inputor = some {}

theorem Single.exists_inputor {s : SplProtocol} (h : Single s) : ∃ i, s.inputor = some i := by
  cases hi : s.inputor with
  | none =>
    rw [Single, SplProtocol.fetched, hi] at h
    exact absurd h (by rintro ⟨⟩)
  | some i => exact ⟨i, rfl⟩

theorem single_of_empty {s : SplProtocol} (h : s.inputor = some {}) : Single s := by
  rw [Single, SplProtocol.fetched, h]
  rfl

theorem Single.held {s : SplProtocol} (h : Single s) : s.held = s.nextBuffer.length := by
  obtain ⟨i, hi⟩ := h.exists_inputor
  rw [SplProtocol.held_eq hi, SplProtocol.pending, h]
  exact Nat.zero_add _

/-- What a check leaves behind: an empty input queue, no more bytes than before,
and, if no package without data was pushed, no more accounted for than before. -/
structure Shrinks (s s' : SplProtocol) : Prop where
  inputor : s'.inputor = some {}
  held : s'.held ≤ s.held
  hasData : HasData s' → HasData s
  accounted : HasData s' → s'.accounted ≤ s.accounted

theorem Shrinks.trans {s s' s'' : SplProtocol} (h : Shrinks s s') (h' : Shrinks s' s'') :
    Shrinks s s'' where
  inputor := h'.inputor
  held := h'.held.trans h.held
  hasData hs := h.hasData (h'.hasData hs)
  accounted hs := (h'.accounted hs).trans (h.accounted (h'.hasData hs))

theorem held_of_empty {s : SplProtocol} (h : s.inputor = some {}) :
    s.held = s.historyData.length := by
  rw [SplProtocol.held, SplProtocol.pending, h]
  exact Nat.zero_add _

/-- No bytes come into being. -/
theorem Outcome.shrinks {s s' : SplProtocol} {et : CheckType} (hs : Single s)
    (h : Outcome s et s') : Shrinks s s' := by
  obtain ⟨i, hi⟩ := hs.exists_inputor
  have hheld := hs.held
  have hheld' : ∀ history q,
      (⟨history, q, s.fetched.inputor⟩ : SplProtocol).held = history.length :=
    fun _ _ => held_of_empty hs
  cases h with
  | dropped hno hline =>
    have hle : s.fetched.held ≤ s.held := by
      rw [held_of_empty hs, hheld]
      exact historyData_length_le hi
    exact ⟨hs, hle, id, fun _ => Nat.add_le_add_left hle _⟩
  | kept hno =>
    have hle : (⟨s.nextBuffer, s.waitReadQue, s.fetched.inputor⟩ : SplProtocol).held ≤ s.held := by
      rw [hheld', hheld]
    exact ⟨hs, hle, id, fun _ => Nat.add_le_add_left hle _⟩
  | @delivered h d body hok hd hbuf h0 hle =>
    have hlen : s.nextBuffer.length = h.bytes.length + body.length := by
      rw [hbuf, List.length_append]
    have htake : (body.take d.toNat).length = d.toNat := by
      rw [List.length_take]
      omega
    have hsize : ((body.take d.toNat).length : Int) = d := by omega
    have hweight := weight_le_of_declares hd hsize
    refine ⟨hs, ?_, fun hdata p hp => hdata p (List.mem_append_left _ hp), fun _ => ?_⟩
    · show (⟨body.drop d.toNat, _, s.fetched.inputor⟩ : SplProtocol).held ≤ _
      rw [hheld', hheld, hlen, List.length_drop]
      omega
    · show ((s.waitReadQue ++ [_]).map weight).sum
          + (⟨body.drop d.toNat, _, s.fetched.inputor⟩ : SplProtocol).held
        ≤ (s.waitReadQue.map weight).sum + s.held
      rw [hheld', hheld, hlen, List.map_append, List.sum_append, List.map_singleton,
        List.sum_singleton, List.length_drop]
      omega
  | @emptied history p hno hp hlen =>
    -- the package pushed has no data, which the last two fields exclude
    have hlast : p ∈ s.waitReadQue ++ [p] := List.mem_append_right _ (List.mem_singleton_self p)
    refine ⟨hs, ?_, fun hdata => absurd hp (hdata p hlast), fun hdata => absurd hp (hdata p hlast)⟩
    show (⟨history, _, s.fetched.inputor⟩ : SplProtocol).held ≤ _
    rw [hheld', hheld]
    exact hlen

end AndrenBoost.Spl
