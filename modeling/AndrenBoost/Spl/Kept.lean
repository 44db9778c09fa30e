import AndrenBoost.Spl.Outcome

/-!
# What is kept of an incomplete package

A check that finds only the beginning of a package should keep it for the next one,
in the order in which it came.  But the chunk is put in front of the history; a
chunk without the first line is forgotten; and a header whose data is still to come
is taken for a package, or sliced.

## Main definitions

* `KeepsAll s c` — the check fails and keeps the history and the chunk `c`.

## Main results

* `Header.serviceBytes_ne` — only the first line of a header is followed by the
  first byte of the service label.
* `eq_nil_of_append_comm` — the beginning of a header does not repeat itself.
* `keeps_all_iff` — **when the beginning of a package is kept.**
-/

namespace AndrenBoost.Spl

open StdString

/-- The check reports a failure and has kept the history and the chunk behind it. -/
def KeepsAll (s : SplProtocol) (c : Bytes) : Prop :=
  ∃ et s', s.check = .ok (et, s') ∧ et.hasOk = false ∧ s'.historyData = s.historyData ++ c

/-! ### The beginning of a header does not repeat itself -/

/-- No line of a header but the second begins with an `S`. -/
theorem Header.serviceBytes_ne {service request sizeText junk : Bytes} (hsv : newLine ∉ service)
    (hr : newLine ∉ request) (hs : newLine ∉ sizeText) (hj : newLine ∉ junk) (pre post : Bytes) :
    Header.serviceBytes service request sizeText junk ≠ pre ++ newLine :: 83 :: post := by
  intro h
  have hline : ∀ {label value : Bytes}, newLine ∉ label → newLine ∉ value →
      newLine ∉ label ++ value := fun hl hv hm => (List.mem_append.1 hm).elim hl hv
  rcases append_cons_cases_of_delimiter (hline isLabel_service.newLine hsv) h with
    hpost | ⟨mid, h⟩
  · exact absurd (List.cons.inj hpost).1 (by decide)
  rcases append_cons_cases_of_delimiter (hline isLabel_request.newLine hr) h with
    hpost | ⟨mid, h⟩
  · exact absurd (List.cons.inj hpost).1 (by decide)
  rcases append_cons_cases_of_delimiter (hline isLabel_dataSize.newLine hs) h with
    hpost | ⟨mid, h⟩
  · exact absurd (List.cons.inj hpost).1 (by decide)
  rcases append_cons_cases_of_delimiter (hline (by decide) hj) h with hpost | ⟨mid, h⟩
  · exact absurd hpost (List.cons_ne_nil _ _)
  · exact absurd h.symm (List.append_ne_nil_of_right_ne_nil _ (List.cons_ne_nil _ _))

/-- Of two parts that begin with the first line in either order, each has all of
it. -/
theorem exists_eq_firstLine_append {x y : Bytes} (hx : x ≠ []) (hy : y ≠ [])
    (hxy : firstLine <+: x ++ y) (hyx : firstLine <+: y ++ x) : ∃ x', x = firstLine ++ x' := by
  have hfirst : y[0]? = some 82 := by
    rcases y with _ | ⟨b, y⟩
    · exact absurd rfl hy
    · obtain ⟨t, ht⟩ := hyx
      have hb : (82 : UInt8) = b := (List.cons.inj ht).1
      rw [← hb]
      rfl
  have hlen : firstLine.length ≤ x.length := by
    by_contra hlt
    exact not_firstLine_isPrefix hx (by omega) hfirst hxy
  obtain ⟨x', hx'⟩ := List.prefix_of_prefix_length_le hxy (List.prefix_append x y) hlen
  exact ⟨x', hx'.symm⟩

/-- Behind the first line of a header comes the service label. -/
theorem Header.serviceBytes_of_bytes_eq {hd : Header} {x v : Bytes}
    (h : hd.bytes = firstLine ++ x ++ firstLine ++ v) :
    Header.serviceBytes hd.service hd.request hd.sizeText hd.junk = x ++ firstLine ++ v
      ∧ ∃ x', x = 83 :: x' := by
  have hservice : Header.serviceBytes hd.service hd.request hd.sizeText hd.junk
      = x ++ firstLine ++ v := by
    rw [hd.bytes_eq] at h
    simp only [List.append_assoc, List.append_cancel_left_eq] at h ⊢
    exact h
  refine ⟨hservice, ?_⟩
  rcases x with _ | ⟨b, x⟩
  · exact absurd (List.cons.inj hservice).1 (by decide)
  · exact ⟨x, by rw [← (List.cons.inj hservice).1]; rfl⟩

/-- What begins with the first line, and is the same with a part taken from its
front to its end, is not the beginning of a header. -/
theorem eq_nil_of_append_comm {hd : Header} {h c v : Bytes} (hcomm : c ++ h = h ++ c)
    (hline : firstLine <+: h ++ c) (hpre : hd.bytes = h ++ c ++ v) : h = [] ∨ c = [] := by
  by_contra hne
  rw [not_or] at hne
  obtain ⟨hh, hc⟩ := hne
  have hline' : firstLine <+: c ++ h := by rwa [hcomm]
  -- each part begins with the whole first line
  obtain ⟨h', rfl⟩ := exists_eq_firstLine_append hh hc hline hline'
  obtain ⟨c', rfl⟩ := exists_eq_firstLine_append hc hh hline' hline
  -- and is followed by the service label, the second time too
  have hone : hd.bytes = firstLine ++ h' ++ firstLine ++ (c' ++ v) := by
    rw [hpre]
    simp only [List.append_assoc]
  have htwo : hd.bytes = firstLine ++ c' ++ firstLine ++ (h' ++ v) := by
    rw [hpre, ← hcomm]
    simp only [List.append_assoc]
  obtain ⟨-, c'', rfl⟩ := Header.serviceBytes_of_bytes_eq htwo
  refine Header.serviceBytes_ne hd.service_newLine hd.request_newLine hd.sizeText_newLine
    hd.junk_newLine (h' ++ protocolHead) (c'' ++ v)
    ((Header.serviceBytes_of_bytes_eq hone).1.trans ?_)
  rw [firstLine]
  simp only [List.append_assoc, List.cons_append, List.nil_append]

/-! ### One check -/

section Check

variable {s s' : SplProtocol} {hd : Header} {c : Bytes}

/-- What can become of the history: it stays, it becomes the buffer, or a part of
the buffer that does not begin at its front. -/
theorem historyData_of_check {et : CheckType} (hne : s.nextBuffer ≠ [])
    (h : s.check = .ok (et, s')) :
    s'.historyData = s.historyData
      ∨ (firstLine <+: s.nextBuffer ∧ s'.historyData = s.nextBuffer)
      ∨ ∃ k, 0 < k ∧ s'.historyData = s.nextBuffer.drop k := by
  by_cases hline : firstLine <+: s.nextBuffer
  · rw [SplProtocol.check_eq hne] at h
    cases hr : parser s.nextBuffer {} with
    | error e =>
      rw [hr] at h
      cases h
    | ok r =>
      rw [hr, ok_bind] at h
      have hs := s.fetched.settle_settled s.nextBuffer r
      rw [h] at hs
      cases hs with
      | sliced hpos hle => exact Or.inr (Or.inr ⟨r.ret.toNat, by omega, rfl⟩)
      | pushed hzero => exact Or.inl rfl
      | forgotten hneg het => exact Or.inl rfl
      | stored hneg het => exact Or.inr (Or.inl ⟨hline, rfl⟩)
  · obtain ⟨et', hcheck, -⟩ := check_of_not_firstLine hline
    rw [hcheck] at h
    cases h
    exact Or.inl rfl

/-- A part that does not begin at the front is too short. -/
theorem drop_ne_self {b : Bytes} {k : ℕ} (hb : b ≠ []) (hk : 0 < k) : b.drop k ≠ b := by
  intro h
  have hpos := List.length_pos_iff.2 hb
  have hlen := congrArg List.length h
  rw [List.length_drop] at hlen
  omega

/-- The buffer ends within its header, and has the first line. -/
theorem check_of_short {v : Bytes} (hpre : hd.bytes = s.nextBuffer ++ v) (hv : v ≠ [])
    (hline : firstLine <+: s.nextBuffer) :
    ∃ et, s.check = .ok (et, { s.fetched with historyData := s.nextBuffer })
      ∧ et.hasOk = false := by
  have hne : s.nextBuffer ≠ [] := by
    rintro hnil
    rw [hnil, List.prefix_nil] at hline
    exact absurd hline (by decide)
  rcases parser_cases s.nextBuffer with
    ⟨h, d, body, -, hbuf⟩ | ⟨-, et, p, hr, hno, hhead⟩ | ⟨hno, -⟩
  · -- a header in the buffer would be the one it is the beginning of
    rw [hbuf, List.append_assoc] at hpre
    obtain ⟨-, hnil⟩ := Header.bytes_append_inj ((List.append_nil hd.bytes).trans hpre)
    exact absurd (List.append_eq_nil_iff.1 hnil.symm).2 hv
  · refine ⟨et, ?_, hno⟩
    rw [SplProtocol.check_eq hne, hr, ok_bind,
      SplProtocol.settle_neg s.fetched (by dsimp only; omega) hhead]
  · exact absurd hline hno

/-- The buffer does not have the first line, and only the history stays. -/
theorem keepsAll_of_not_firstLine_iff (hline : ¬ firstLine <+: s.nextBuffer) :
    KeepsAll s c ↔ c = [] := by
  obtain ⟨et, hcheck, hno⟩ := check_of_not_firstLine hline
  constructor
  · rintro ⟨et', s', h, -, hhist⟩
    rw [hcheck] at h
    cases h
    exact List.self_eq_append_right.1 hhist
  · rintro rfl
    exact ⟨et, _, hcheck, hno, by rw [List.append_nil]; rfl⟩

/-- The bytes of the chunk are in the wrong place, and there are some. -/
theorem not_keepsAll_of_swapped (hne : s.nextBuffer ≠ [])
    (hlen : s.nextBuffer.length = (s.historyData ++ c).length)
    (hswap : s.nextBuffer ≠ s.historyData ++ c) (hc : c ≠ []) : ¬ KeepsAll s c := by
  rintro ⟨et, s', hcheck, -, hhist⟩
  rcases historyData_of_check hne hcheck with hstay | ⟨-, hall⟩ | ⟨k, hk, hpart⟩
  · rw [hstay] at hhist
    exact hc (List.self_eq_append_right.1 hhist)
  · exact hswap (hall.symm.trans hhist)
  · -- a part of the buffer is shorter than the two
    have hpos := List.length_pos_iff.2 hne
    have hpartlen := congrArg List.length (hpart.symm.trans hhist)
    rw [List.length_drop, ← hlen] at hpartlen
    omega

/-- The buffer has the whole header, and not all of the data. -/
theorem keepsAll_of_header_iff {d : Int} {body : Bytes} (hd' : hd.Declares d)
    (hbuf : s.nextBuffer = hd.bytes ++ body) (hkeep : s.nextBuffer = s.historyData ++ c)
    (hlen : s.nextBuffer.length < 2 ^ 63) (hlt : body.length < d)
    (hsum : d + body.length ≤ 2 ^ 63) : KeepsAll s c ↔ c = [] ∧ body = [] ∧ d = 1 := by
  have hne := SplProtocol.nextBuffer_ne_nil hbuf
  obtain ⟨x, hans, hcheck⟩ := SplProtocol.check_dataAnswer hd' hbuf hlen
  cases hans with
  | missing hb =>
    rw [ok_bind, int64_eq (by have := stoll_range hd'; omega)] at hcheck
    rw [hb] at hlt
    by_cases hone : d = 1
    · -- an empty package is pushed, and the history stays
      rw [SplProtocol.settle_zero _ (by dsimp only; omega)] at hcheck
      constructor
      · rintro ⟨et, s', h, -, hhist⟩
        rw [hcheck] at h
        cases h
        exact ⟨List.self_eq_append_right.1 hhist, hb, hone⟩
      · rintro ⟨hc, -, -⟩
        have hno : CheckType.failedData.hasOk = false := rfl
        exact ⟨_, _, hcheck, hno, by rw [hc, List.append_nil]; rfl⟩
    · refine iff_of_false ?_ fun h => hone h.2.2
      rintro ⟨et, s', h, -, hhist⟩
      rw [hcheck] at h
      by_cases hle : d - 1 ≤ s.nextBuffer.length
      · rw [SplProtocol.settle_pos _ (by dsimp only; omega) hle] at h
        cases h
        refine drop_ne_self hne (k := (d - 1).toNat) (by omega) ?_
        rw [hkeep] at hhist ⊢
        exact hhist
      · rw [SplProtocol.settle_fault _ (by dsimp only; omega)] at h
        cases h
  | failed hb hneg hret => omega
  | complete hb h0 hle hsum het => omega
  | fault hb hbad hsum =>
    refine iff_of_false ?_ fun h => hb h.2.1
    rintro ⟨et, s', h, -⟩
    rw [hcheck] at h
    cases h

end Check

/-! ### The beginning of a package -/

section Beginning

variable {s : SplProtocol} {m : Message} {h c u : Bytes}

/-- The history and the chunk, in order, end within the header. -/
theorem keepsAll_within_iff (hh : s.historyData = h) (hbuf : s.nextBuffer = h ++ c)
    (hcomm : c ++ h = h ++ c) (hcode : h ++ c ++ u = m.header.bytes ++ m.data)
    (hshort : (h ++ c).length < m.header.bytes.length) :
    KeepsAll s c ↔ c = [] ∨ (h = [] ∧ firstLine <+: c) := by
  by_cases hline : firstLine <+: h ++ c
  · -- the buffer becomes the history, and one of its parts is empty
    obtain ⟨v, hv⟩ := List.prefix_of_prefix_length_le ⟨u, hcode⟩
      (List.prefix_append m.header.bytes m.data) hshort.le
    have hv_ne : v ≠ [] := by
      rintro rfl
      rw [List.append_nil] at hv
      rw [hv] at hshort
      exact lt_irrefl _ hshort
    have hpre : m.header.bytes = s.nextBuffer ++ v := by rw [hbuf, hv]
    obtain ⟨et, hcheck, hno⟩ := check_of_short hpre hv_ne (by rwa [hbuf])
    refine iff_of_true ⟨et, _, hcheck, hno, by rw [hh]; exact hbuf⟩ ?_
    rcases eq_nil_of_append_comm hcomm hline hv.symm with rfl | rfl
    · exact Or.inr ⟨rfl, hline⟩
    · exact Or.inl rfl
  · rw [keepsAll_of_not_firstLine_iff (by rwa [hbuf])]
    constructor
    · exact Or.inl
    · rintro (hc | ⟨rfl, hline'⟩)
      · exact hc
      · exact absurd hline' hline

/-- The history and the chunk, in order, end behind the header. -/
theorem keepsAll_behind_iff (hh : s.historyData = h) (hbuf : s.nextBuffer = h ++ c)
    (hcode : h ++ c ++ u = m.header.bytes ++ m.data) (hu : u ≠ [])
    (hlen : m.encode.length ≤ maxHeld) (hlong : m.header.bytes.length ≤ (h ++ c).length) :
    KeepsAll s c ↔ c = [] ∧ h = m.header.bytes ∧ m.data.length = 1 := by
  obtain ⟨body, hbody⟩ := List.prefix_of_prefix_length_le
    (List.prefix_append m.header.bytes m.data) ⟨u, hcode⟩ hlong
  have hdata : body ++ u = m.data := by
    rw [← hbody, List.append_assoc] at hcode
    exact List.append_cancel_left hcode
  have hupos := List.length_pos_iff.2 hu
  have hdatalen := congrArg List.length hdata
  have hcodelen := congrArg List.length hcode
  rw [m.encode_eq, maxHeld] at hlen
  simp only [List.length_append] at hdatalen hcodelen hlen
  rw [keepsAll_of_header_iff (m.declares (by omega)) (hbuf.trans hbody.symm)
    (by rw [hh, hbuf]) (by rw [hbuf, List.length_append]; omega) (by omega) (by omega)]
  constructor
  · rintro ⟨rfl, rfl, hone⟩
    rw [List.append_nil, List.append_nil] at hbody
    exact ⟨rfl, hbody.symm, by omega⟩
  · rintro ⟨rfl, rfl, hone⟩
    exact ⟨rfl, List.append_cancel_left hbody, by omega⟩

end Beginning

/-- **When the beginning of a package is kept.**  The history and the chunk behind it
are the beginning of an encoding: the chunk is empty, and the history ends within
the header, or behind it with one byte to come; or the history is empty, and the
chunk has the first line and ends within the header. -/
theorem keeps_all_iff {s : SplProtocol} {i : Inputor} {m : Message} {h c u : Bytes}
    (hi : s.inputor = some i) (hh : s.historyData = h) (hc : i.fetchOne.1 = c)
    (hcut : h ++ c ++ u = m.encode) (hne : h ++ c ≠ []) (hu : u ≠ [])
    (hlen : m.encode.length ≤ maxHeld) :
    KeepsAll s c
      ↔ (c = [] ∧ (h.length < m.header.bytes.length
          ∨ (h = m.header.bytes ∧ m.data.length = 1)))
        ∨ (h = [] ∧ firstLine <+: c ∧ c.length < m.header.bytes.length) := by
  have hbuf : s.nextBuffer = c ++ h := by
    unfold SplProtocol.nextBuffer
    rw [hi]
    dsimp only
    rw [hc, hh]
  have hbuf_ne : s.nextBuffer ≠ [] := by
    rw [hbuf]
    simpa [and_comm] using hne
  have hcode : h ++ c ++ u = m.header.bytes ++ m.data := hcut.trans m.encode_eq
  by_cases hcomm : c ++ h = h ++ c
  · rw [hcomm] at hbuf
    by_cases hshort : (h ++ c).length < m.header.bytes.length
    · rw [keepsAll_within_iff hh hbuf hcomm hcode hshort]
      constructor
      · rintro (rfl | ⟨rfl, hline⟩)
        · rw [List.append_nil] at hshort
          exact Or.inl ⟨rfl, Or.inl hshort⟩
        · exact Or.inr ⟨rfl, hline, hshort⟩
      · rintro (⟨hnil, -⟩ | ⟨hnil, hline, -⟩)
        · exact Or.inl hnil
        · exact Or.inr ⟨hnil, hline⟩
    · rw [keepsAll_behind_iff hh hbuf hcode hu hlen (not_lt.1 hshort)]
      constructor
      · rintro ⟨hnil, hall, hone⟩
        exact Or.inl ⟨hnil, Or.inr ⟨hall, hone⟩⟩
      · rintro (⟨rfl, hlt | ⟨hall, hone⟩⟩ | ⟨rfl, -, hlt⟩)
        · rw [List.append_nil] at hshort
          exact absurd hlt hshort
        · exact ⟨rfl, hall, hone⟩
        · exact absurd hlt hshort
  · -- neither part is empty, or they would be in order
    have hc_ne : c ≠ [] := by
      rintro rfl
      exact hcomm (by rw [List.append_nil, List.nil_append])
    have hh_ne : h ≠ [] := by
      rintro rfl
      exact hcomm (by rw [List.append_nil, List.nil_append])
    refine iff_of_false (not_keepsAll_of_swapped hbuf_ne ?_ ?_ hc_ne) ?_
    · rw [hbuf, hh, List.length_append, List.length_append, Nat.add_comm]
    · rw [hbuf, hh]
      exact hcomm
    · rintro (⟨hnil, -⟩ | ⟨hnil, -⟩)
      · exact hc_ne hnil
      · exact hh_ne hnil

/-- The first line of a package and part of its second have come in one chunk. -/
theorem keepsAll_inOne :
    KeepsAll (SplProtocol.fresh.pushData (ping.encode.take 20)) (ping.encode.take 20) :=
  (keeps_all_iff (s := SplProtocol.fresh.pushData (ping.encode.take 20))
    (i := { data := [ping.encode.take 20] }) (m := ping) (h := []) (c := ping.encode.take 20)
    (u := ping.encode.drop 20) rfl rfl rfl (by decide +kernel) (by decide +kernel)
    (by decide +kernel) (by decide +kernel)).2
    (Or.inr ⟨rfl, by decide +kernel, by decide +kernel⟩)

/-- The first line has come before, and the next bytes come now. -/
def inTwo : SplProtocol :=
  { historyData := firstLine
    inputor := some { data := [(ping.encode.take 20).drop firstLine.length] } }

/-- They are forgotten. -/
theorem inTwo_not_kept :
    firstLine ++ (ping.encode.take 20).drop firstLine.length ++ ping.encode.drop 20
      = ping.encode
    ∧ (∃ s', inTwo.check = .ok (.failedHead, s') ∧ s'.historyData = firstLine)
    ∧ ¬ KeepsAll inTwo ((ping.encode.take 20).drop firstLine.length) := by
  have hcheck : inTwo.check
      = .ok (.failedHead, { historyData := firstLine, inputor := some {} }) := by
    decide +kernel
  refine ⟨by decide +kernel, ⟨_, hcheck, rfl⟩, ?_⟩
  rintro ⟨et, s', h, -, hhist⟩
  rw [hcheck] at h
  cases h
  exact absurd hhist (by decide +kernel)

end AndrenBoost.Spl
