import AndrenBoost.Spl.Messages

/-!
# Failed checks and the ready queue

A check that does not report success should leave the ready queue alone.  Whether a
package is pushed to it is decided by the sign of `ret` and not by the verdict, and
behind a header alone the parser leaves the declared size, less one, in `ret`.

## Main definitions

* `QueuesOnlyOk s x` — `x` adds a package to the queue of `s` exactly with its
  verdict.
* `QueueFits s` — the sizes for which the sign of `ret` agrees with the verdict.

## Main results

* `settle_queuesOnlyOk_iff` — what the sign of `ret` decides.
* `queues_only_ok_iff` — **the queue grows with the verdict exactly for these sizes.**
-/

namespace AndrenBoost.Spl

open StdString

/-- After `x` one more package is ready in `s` if the verdict has the bit `OK`, and
the queue is the same if it has not. -/
def QueuesOnlyOk (s : SplProtocol) (x : Except Fault (CheckType × SplProtocol)) : Prop :=
  ∃ et s', x = .ok (et, s')
    ∧ (et.hasOk = true → s'.readyPackageCount = s.readyPackageCount + 1)
    ∧ (et.hasOk = false → s'.waitReadQue = s.waitReadQue)

/-- Behind a header without body, sizes that are not positive; else the sizes that
the body is long enough for, as long as the number of packages fits its type, and
those so far negative, or so large, that the sum is negative. -/
def QueueFits (s : SplProtocol) : Prop :=
  ∀ (h : Header) (d : Int) (body : Bytes), h.Declares d → s.nextBuffer = h.bytes ++ body →
    if body = [] then -2 ^ 63 < d ∧ d ≤ 0
    else d ≤ -body.length ∨ 2 ^ 63 < d + body.length
      ∨ (0 ≤ d ∧ d ≤ body.length ∧ s.readyPackageCount ≠ 2 ^ 31 - 1)

/-- The number of ready packages is counted in an `int32_t`. -/
theorem readyPackageCount_append_iff {s s' : SplProtocol} {p : SplPackage}
    (h : s'.waitReadQue = s.waitReadQue ++ [p]) :
    s'.readyPackageCount = s.readyPackageCount + 1
      ↔ s.readyPackageCount ≠ 2 ^ 31 - 1 := by
  unfold SplProtocol.readyPackageCount
  rw [h, List.length_append, List.length_singleton, Int.bmod_def, Int.bmod_def]
  split_ifs <;> omega

/-- Without the bit `OK`, only a negative `ret` leaves the queue alone. -/
theorem settle_queuesOnlyOk_iff (s : SplProtocol) (buf : Bytes) {r : ParserResult}
    (hno : r.et.hasOk = false) : QueuesOnlyOk s (s.fetched.settle buf r) ↔ r.ret < 0 := by
  have hgrown : ∀ (s' : SplProtocol) (p : SplPackage), s'.waitReadQue = s.waitReadQue ++ [p] →
      ¬ QueuesOnlyOk s (.ok (r.et, s')) := by
    rintro s' p hs' ⟨et, t, ht, -, hsame⟩
    cases ht
    have hlen := congrArg List.length (hs'.symm.trans (hsame hno))
    rw [List.length_append, List.length_singleton] at hlen
    omega
  have hkept : ∀ s' : SplProtocol, s'.waitReadQue = s.waitReadQue →
      QueuesOnlyOk s (.ok (r.et, s')) := fun s' hs' =>
    ⟨r.et, s', rfl, fun hok => by rw [hno] at hok; exact absurd hok Bool.false_ne_true,
      fun _ => hs'⟩
  have hs := s.fetched.settle_settled buf r
  generalize s.fetched.settle buf r = y at hs ⊢
  cases hs with
  | sliced hpos hle => exact iff_of_false (hgrown _ r.pack rfl) (by omega)
  | outside hlt => exact iff_of_false (fun ⟨_, _, hx, _⟩ => nomatch hx) (by omega)
  | pushed hzero => exact iff_of_false (hgrown _ r.pack rfl) (by omega)
  | forgotten hneg het => exact iff_of_true (hkept _ rfl) hneg
  | stored hneg het => exact iff_of_true (hkept _ rfl) hneg

/-- With the bit `OK` and a slice of the buffer, the package is counted as long as
there is room in the type. -/
theorem sliced_queuesOnlyOk_iff (s : SplProtocol) (buf : Bytes) {r : ParserResult}
    (hok : r.et.hasOk = true) (hpos : 0 < r.ret) (hle : r.ret ≤ buf.length) :
    QueuesOnlyOk s (s.fetched.settle buf r) ↔ s.readyPackageCount ≠ 2 ^ 31 - 1 := by
  rw [SplProtocol.settle_pos _ hpos hle]
  have hcount : ({ s.fetched with
      historyData := buf.drop r.ret.toNat
      waitReadQue := s.waitReadQue ++ [r.pack] } : SplProtocol).readyPackageCount
        = s.readyPackageCount + 1 ↔ s.readyPackageCount ≠ 2 ^ 31 - 1 :=
    readyPackageCount_append_iff rfl
  constructor
  · rintro ⟨et, s', hx, hadd, -⟩
    cases hx
    exact hcount.1 (hadd hok)
  · intro hroom
    refine ⟨_, _, rfl, fun _ => hcount.2 hroom, fun hno => ?_⟩
    rw [hok] at hno
    exact absurd hno.symm Bool.false_ne_true

/-- Behind a header. -/
theorem check_queuesOnlyOk_iff {s : SplProtocol} {h : Header} {d : Int} {body : Bytes}
    (hlen : s.nextBuffer.length < 2 ^ 63) (hd : h.Declares d)
    (hbuf : s.nextBuffer = h.bytes ++ body) :
    QueuesOnlyOk s s.check
      ↔ if body = [] then -2 ^ 63 < d ∧ d ≤ 0
        else d ≤ -body.length ∨ 2 ^ 63 < d + body.length
          ∨ (0 ≤ d ∧ d ≤ body.length ∧ s.readyPackageCount ≠ 2 ^ 31 - 1) := by
  have hrange := stoll_range hd
  obtain ⟨x, hans, hcheck⟩ := SplProtocol.check_dataAnswer hd hbuf hlen
  rw [hcheck]
  cases hans with
  | missing hb =>
    have hno : CheckType.failedData.hasOk = false := rfl
    rw [ok_bind, settle_queuesOnlyOk_iff _ _ hno, if_pos hb]
    dsimp only
    by_cases hmin : d = -2 ^ 63
    · rw [int64_of_lt (by omega)]
      omega
    · rw [int64_eq (by omega)]
      omega
  | failed hb hneg hret =>
    have hno : CheckType.failedData.hasOk = false := rfl
    rw [ok_bind, settle_queuesOnlyOk_iff _ _ hno, if_neg hb]
    dsimp only
    omega
  | @complete et hb h0 hle hsum het =>
    have hok : et.hasOk = true := by
      rw [het]
      split_ifs <;> rfl
    have hpos := List.length_pos_iff.2 h.bytes_ne_nil
    have hle' : (h.bytes.length + d : Int) ≤ s.nextBuffer.length := by
      rw [hbuf, List.length_append]
      omega
    rw [ok_bind, sliced_queuesOnlyOk_iff _ _ hok (by dsimp only; omega) hle', if_neg hb]
    have hbpos := List.length_pos_iff.2 hb
    constructor
    · intro hroom
      exact Or.inr (Or.inr ⟨h0, hle, hroom⟩)
    · rintro (hneg | hbig | ⟨-, -, hroom⟩)
      · omega
      · omega
      · exact hroom
  | fault hb hbad hsum =>
    rw [if_neg hb]
    refine iff_of_false ?_ (by omega)
    rintro ⟨et, s', hx, -⟩
    cases hx

/-- **The queue grows with the verdict** exactly when the declared size fits. -/
theorem queues_only_ok_iff {s : SplProtocol} (hlen : s.nextBuffer.length < 2 ^ 63) :
    QueuesOnlyOk s s.check ↔ QueueFits s := by
  constructor
  · intro hqueues h d body hd hbuf
    exact (check_queuesOnlyOk_iff hlen hd hbuf).1 hqueues
  · intro hfits
    by_cases hne : s.nextBuffer = []
    · obtain ⟨et, hcheck, hno⟩ := SplProtocol.check_of_nil hne
      exact ⟨et, s.fetched, hcheck, fun hok => by rw [hno] at hok; exact absurd hok (by decide),
        fun _ => rfl⟩
    rcases parser_cases s.nextBuffer with
      ⟨h, d, body, hd, hbuf⟩ | ⟨-, et, p, hr, hno, -⟩ | ⟨-, hr⟩
    · exact (check_queuesOnlyOk_iff hlen hd hbuf).2 (hfits h d body hd hbuf)
    -- without a header `ret` is -1
    · rw [SplProtocol.check_eq hne, hr, ok_bind, settle_queuesOnlyOk_iff _ _ hno]
      dsimp only
      omega
    · have hno : CheckType.failedHead.hasOk = false := rfl
      rw [SplProtocol.check_eq hne, hr, ok_bind, settle_queuesOnlyOk_iff _ _ hno]
      dsimp only
      omega

/-- A complete package has arrived. -/
def pinged : SplProtocol := SplProtocol.fresh.pushData ping.encode

/-- Of the same package only the header has arrived. -/
def headerOnly : SplProtocol := SplProtocol.fresh.pushData ping.header.bytes

theorem queueFits_pinged : QueueFits pinged := by
  have hcheck : pinged.check
      = .ok (.okAndMore, { inputor := some {}, waitReadQue := [ping.delivered] }) := by
    decide +kernel
  exact (queues_only_ok_iff (by decide +kernel)).1
    ⟨_, _, hcheck, fun _ => by decide, fun hno => absurd hno (by decide)⟩

/-- The check reports that the data is missing, and a package without it is ready. -/
theorem headerOnly_queued :
    (∃ s', headerOnly.check = .ok (.failedData, s') ∧ s'.readyPackageCount = 1)
    ∧ ¬ QueuesOnlyOk headerOnly headerOnly.check := by
  have hcheck : headerOnly.check = .ok (.failedData,
      { historyData := ping.header.bytes.drop 3
        inputor := some {}
        waitReadQue := [ping.header.pack 4] }) := by
    decide +kernel
  refine ⟨⟨_, hcheck, by decide⟩, ?_⟩
  rintro ⟨et, s', hx, -, hsame⟩
  rw [hcheck] at hx
  cases hx
  exact absurd (hsame (by decide)) (by decide)

end AndrenBoost.Spl
