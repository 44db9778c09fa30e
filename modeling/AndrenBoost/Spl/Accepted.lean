import AndrenBoost.Spl.Messages

/-!
# What an accepted buffer looks like

A buffer is accepted when it begins with a header whose size the bytes behind it
suffice for, and there is at least one such byte.  Against the format this is too
strict in one place, where a package without data ends the buffer, and too lax in
two: the size may be spelled in any way `stoll` reads, and the empty line may hold
anything behind its carriage return.  The bit for a remainder is decided by the sum
of the two sizes and not by their difference.

## Main definitions

* `Accepted buf r h d body` — the answer `r` accepts `buf`, which is `h` and `body`.
* `Canonical buf` — the header is spelled as `package` spells it.

## Main results

* `exists_accepted`, `Accepted.eq` — what is read of an accepted buffer, and that
  there is one way to read it.
* `reads_back_iff` — **what was encoded reads back, unless nothing stands behind
  the header.**
* `flags_remainder_iff` — **when the bit tells whether bytes follow.**
* `encodes_back_iff` — **when the bytes that were used are those `package` writes.**
* `extension_stable` — **bytes that arrive later change nothing in a package.**
-/

namespace AndrenBoost.Spl

open StdString

/-! ### Accepted buffers -/

/-- The answer `r` accepts the buffer, which is the header `h` and `body`. -/
structure Accepted (buf : Bytes) (r : ParserResult) (h : Header) (d : Int) (body : Bytes) :
    Prop where
  declares : h.Declares d
  buf_eq : buf = h.bytes ++ body
  body_ne_nil : body ≠ []
  nonneg : 0 ≤ d
  le : d ≤ body.length
  et : r.et = if (body.length : Int) + d = 1 then .ok else .okAndMore
  pack : r.pack = { h.pack d with data := body.take d.toNat }
  ret : r.ret = h.bytes.length + d

/-- What is read of an accepted buffer. -/
theorem exists_accepted {buf : Bytes} {r : ParserResult} (hlen : buf.length < 2 ^ 63)
    (hr : parser buf {} = .ok r) (hok : r.et.hasOk = true) :
    ∃ h d body, Accepted buf r h d body := by
  rcases parser_cases buf with ⟨h, d, body, hd, rfl⟩ | ⟨-, et, p, hrefused, hno, -⟩ | ⟨-, hhead⟩
  · have hans := parser_dataAnswer hd hlen
    rw [hr] at hans
    cases hans with
    | missing hb => exact absurd hok (by dsimp only; decide)
    | failed hb hneg hret => exact absurd hok (by dsimp only; decide)
    | complete hb h0 hle hsum het => exact ⟨h, d, body, hd, rfl, hb, h0, hle, het, rfl, rfl⟩
  · rw [hr] at hrefused
    cases hrefused
    rw [hno] at hok
    exact absurd hok (by decide)
  · rw [hr] at hhead
    cases hhead
    exact absurd hok (by decide)

namespace Accepted

variable {buf body body' : Bytes} {r : ParserResult} {h h' : Header} {d d' : Int}

/-- There is one way to read it. -/
theorem eq (ha : Accepted buf r h d body) (hbuf : buf = h'.bytes ++ body') :
    h' = h ∧ body' = body :=
  Header.bytes_append_inj (hbuf.symm.trans ha.buf_eq)

theorem declares_eq (ha : Accepted buf r h d body) (hd : h.Declares d') : d' = d := by
  have heq : (Except.ok d' : Except Exn Int) = .ok d := hd.symm.trans ha.declares
  cases heq
  rfl

/-- The bytes used are the header and as many as it declares. -/
theorem take_ret (ha : Accepted buf r h d body) :
    buf.take r.ret.toNat = h.bytes ++ body.take d.toNat := by
  have h0 := ha.nonneg
  rw [ha.buf_eq, ha.ret, show (h.bytes.length + d : Int).toNat = h.bytes.length + d.toNat by omega,
    List.take_length_add_append]

end Accepted

/-! ### Encoding and decoding -/

/-- **What was encoded reads back** in front of anything, with the sizes of strings
that exist, exactly when something stands behind the header. -/
theorem reads_back_iff (m : Message) (rest : Bytes) (hlen : (m.encode ++ rest).length < 2 ^ 63) :
    (∃ et : CheckType, et.hasOk = true
      ∧ parser (m.encode ++ rest) {} = .ok ⟨et, m.delivered, m.encode.length⟩)
    ↔ m.data ++ rest ≠ [] ∧ 2 * m.data.length + rest.length ≤ 2 ^ 63 := by
  constructor
  · rintro ⟨et, het, hparse⟩
    have hbuf : m.encode ++ rest = m.header.bytes ++ (m.data ++ rest) := by
      rw [Message.encode_eq, List.append_assoc]
    have hlen' := hlen
    rw [hbuf, List.length_append, List.length_append] at hlen'
    rw [hbuf] at hlen hparse
    have hans := parser_dataAnswer (m.declares (by omega)) hlen
    rw [hparse] at hans
    generalize hr : (⟨et, m.delivered, m.encode.length⟩ : ParserResult) = r at hans
    have hetr : r.et = et := by rw [← hr]
    cases hans with
    | missing hb =>
      rw [← hetr] at het
      exact absurd het (by dsimp only; decide)
    | failed hb hneg hret =>
      rw [← hetr] at het
      exact absurd het (by dsimp only; decide)
    | complete hb h0 hle hsum het' =>
      rw [List.length_append] at hsum
      exact ⟨hb, by omega⟩
  · rintro ⟨hne, hsum⟩
    exact parser_encode m hne hlen hsum

/-- A message without data. -/
def quiet : Message := { ping with data := [] }

theorem reads_back_ping :
    ∃ et : CheckType, et.hasOk = true
      ∧ parser (ping.encode ++ [0]) {} = .ok ⟨et, ping.delivered, ping.encode.length⟩ :=
  (reads_back_iff ping [0] (by decide +kernel)).2 ⟨by decide, by decide⟩

/-- Without data and at the end of the buffer it is not taken. -/
theorem quiet_not_taken :
    (∃ p ret, parser (quiet.encode ++ []) {} = .ok ⟨.failedData, p, ret⟩)
    ∧ ¬ ∃ et : CheckType, et.hasOk = true
      ∧ parser (quiet.encode ++ []) {} = .ok ⟨et, quiet.delivered, quiet.encode.length⟩ := by
  have hparse : parser (quiet.encode ++ []) {}
      = .ok ⟨.failedData, quiet.delivered, -1⟩ := by decide +kernel
  refine ⟨⟨_, _, hparse⟩, ?_⟩
  rintro ⟨et, het, hok⟩
  rw [hparse] at hok
  cases hok

/-! ### The bit for a remainder -/

/-- **The bit tells whether bytes follow** exactly when some do, unless a package
without data is followed by one byte. -/
theorem flags_remainder_iff {buf : Bytes} {r : ParserResult} (hlen : buf.length < 2 ^ 63)
    (hr : parser buf {} = .ok r) (hok : r.et.hasOk = true) :
    (r.et.hasMore = true ↔ r.ret < buf.length)
      ↔ ∀ (h : Header) (d : Int) (body : Bytes), h.Declares d → buf = h.bytes ++ body →
          d ≠ body.length ∧ ¬ (d = 0 ∧ body.length = 1) := by
  obtain ⟨h, d, body, ha⟩ := exists_accepted hlen hr hok
  have hpos := List.length_pos_iff.2 ha.body_ne_nil
  have h0 := ha.nonneg
  have hle := ha.le
  have hmore : r.et.hasMore = true ↔ ¬ (body.length : Int) + d = 1 := by
    rw [ha.et]
    split_ifs with hone
    · exact iff_of_false (by decide) fun h => h hone
    · exact iff_of_true (by decide) hone
  have hfollow : r.ret < buf.length ↔ d < body.length := by
    rw [ha.ret, ha.buf_eq, List.length_append]
    omega
  rw [hmore, hfollow]
  constructor
  · intro hiff h' d' body' hd' hbuf
    obtain ⟨rfl, rfl⟩ := ha.eq hbuf
    rw [ha.declares_eq hd']
    omega
  · intro hall
    have hthis := hall h d body ha.declares ha.buf_eq
    omega

/-- One byte follows a package of four. -/
theorem flags_remainder_ping :
    parser (ping.encode ++ [0]) {} = .ok ⟨.okAndMore, ping.delivered, ping.encode.length⟩
    ∧ ∀ (h : Header) (d : Int) (body : Bytes), h.Declares d →
      ping.encode ++ [0] = h.bytes ++ body → d ≠ body.length ∧ ¬ (d = 0 ∧ body.length = 1) := by
  have hparse : parser (ping.encode ++ [0]) {}
      = .ok ⟨.okAndMore, ping.delivered, ping.encode.length⟩ := by decide +kernel
  exact ⟨hparse, (flags_remainder_iff (by decide +kernel) hparse rfl).1 (by decide +kernel)⟩

/-- Nothing follows the package, and the bit is set. -/
theorem ping_flagged :
    parser ping.encode {} = .ok ⟨.okAndMore, ping.delivered, ping.encode.length⟩
    ∧ ¬ (CheckType.okAndMore.hasMore = true ↔ (ping.encode.length : Int) < ping.encode.length) :=
  ⟨by decide +kernel, by decide +kernel⟩

/-! ### What was used -/

/-- The header in the buffer is spelled as `package` spells it. -/
def Canonical (buf : Bytes) : Prop :=
  ∀ (h : Header) (body : Bytes), buf = h.bytes ++ body →
    h.junk = [] ∧ ∃ n, h.sizeText = toDecimal n

/-- What `package` writes is a header and the data. -/
theorem packageOf_eq (h : Header) (n : ℕ) (data : Bytes) (hn : data.length = n) :
    packageOf h.service h.request data
      = Header.bytes { h with
          sizeText := toDecimal n
          junk := []
          sizeText_newLine := newLine_notMem_toDecimal n
          junk_newLine := List.not_mem_nil } ++ data := by
  subst hn
  exact Message.encode_eq ⟨h.service, h.request, data, h.service_newLine, h.request_newLine⟩

/-- **The bytes that were used are those `package` writes** exactly when the header
is spelled as it spells it. -/
theorem encodes_back_iff {buf : Bytes} {r : ParserResult} (hlen : buf.length < 2 ^ 63)
    (hr : parser buf {} = .ok r) (hok : r.et.hasOk = true) :
    buf.take r.ret.toNat = packageOf r.pack.service r.pack.request r.pack.data
      ↔ Canonical buf := by
  obtain ⟨h, d, body, ha⟩ := exists_accepted hlen hr hok
  have h0 := ha.nonneg
  have hle := ha.le
  have hdata : (body.take d.toNat).length = d.toNat := by
    rw [List.length_take]
    omega
  have hpackage := packageOf_eq h d.toNat (body.take d.toNat) hdata
  rw [ha.take_ret, ha.pack]
  show h.bytes ++ body.take d.toNat = packageOf h.service h.request (body.take d.toNat) ↔ _
  rw [hpackage]
  constructor
  · intro heq h' body' hbuf
    obtain ⟨rfl, rfl⟩ := ha.eq hbuf
    obtain ⟨hheader, -⟩ := Header.bytes_append_inj heq
    rw [hheader]
    exact ⟨rfl, d.toNat, rfl⟩
  · intro hcanonical
    obtain ⟨hjunk, n, hsize⟩ := hcanonical h body ha.buf_eq
    have hn : n = d.toNat := by
      have hd := ha.declares
      rw [Header.Declares, hsize, stoll_toDecimal_eq] at hd
      split_ifs at hd
      cases hd
      rfl
    rw [Header.bytes, Header.bytes, hjunk, hsize, hn]

theorem canonical_ping : Canonical ping.encode := by
  have hparse : parser ping.encode {}
      = .ok ⟨.okAndMore, ping.delivered, ping.encode.length⟩ := by decide +kernel
  exact (encodes_back_iff (by decide +kernel) hparse rfl).1 (by decide +kernel)

/-- A header whose size and whose empty line `package` does not write. -/
def laxHeader : Header :=
  ⟨ping.service, ping.request, ascii " +4 bytes", ascii "not empty", ping.service_newLine,
    ping.request_newLine, by decide, by decide⟩

/-- The parser takes it for the header of the package of the four bytes behind it. -/
theorem laxHeader_accepted :
    ∃ r, parser (laxHeader.bytes ++ ascii "ping") {} = .ok r ∧ r.et.hasOk = true
      ∧ r.ret ≤ (laxHeader.bytes ++ ascii "ping").length
      ∧ (laxHeader.bytes ++ ascii "ping").take r.ret.toNat
        ≠ packageOf r.pack.service r.pack.request r.pack.data := by
  have hparse : parser (laxHeader.bytes ++ ascii "ping") {}
      = .ok ⟨.okAndMore, ping.delivered, (laxHeader.bytes ++ ascii "ping").length⟩ := by
    decide +kernel
  exact ⟨_, hparse, rfl, le_rfl, by decide +kernel⟩

/-! ### More bytes behind it -/

/-- With more behind the body the sum of the two sizes has to fit its type again. -/
theorem Accepted.extend {buf body : Bytes} {r : ParserResult} {h : Header} {d : Int}
    (ha : Accepted buf r h d body) (suffix : Bytes) (hlen : (buf ++ suffix).length < 2 ^ 63)
    (hsum : d + (body ++ suffix).length ≤ 2 ^ 63) :
    ∃ r', parser (buf ++ suffix) {} = .ok r' ∧ Accepted (buf ++ suffix) r' h d (body ++ suffix) := by
  have h0 := ha.nonneg
  have hle := ha.le
  have hne : body ++ suffix ≠ [] := List.append_ne_nil_of_left_ne_nil ha.body_ne_nil suffix
  have hpos := List.length_pos_iff.2 ha.body_ne_nil
  have hlength : (body ++ suffix).length = body.length + suffix.length := List.length_append
  have hbuf : buf ++ suffix = h.bytes ++ (body ++ suffix) := by
    rw [ha.buf_eq, List.append_assoc]
  have hans : DataAnswer h d (body ++ suffix) (parser (buf ++ suffix) {}) := by
    rw [hbuf] at hlen ⊢
    exact parser_dataAnswer ha.declares hlen
  generalize hr : parser (buf ++ suffix) {} = x at hans ⊢
  cases hans with
  | missing hb => exact absurd hb hne
  | failed hb hbad hret => omega
  | complete hb h0' hle' hsum' het =>
    exact ⟨_, rfl, ha.declares, hbuf, hb, h0', hle', het, rfl, rfl⟩
  | fault hb hbad hsum' => omega

/-- **Bytes that arrive later change nothing in a package** that was recognised
without them: the verdict has the bit `OK` again, with the same package and the same
`ret`. -/
theorem extension_stable {buf : Bytes} {r : ParserResult} (suffix : Bytes)
    (hlen : (buf ++ suffix).length ≤ maxHeld) (hr : parser buf {} = .ok r)
    (hok : r.et.hasOk = true) :
    ∃ r', parser (buf ++ suffix) {} = .ok r' ∧ r'.et.hasOk = true ∧ r'.pack = r.pack
      ∧ r'.ret = r.ret := by
  have hlen' := hlen
  rw [maxHeld, List.length_append] at hlen
  obtain ⟨h, d, body, ha⟩ := exists_accepted (by omega) hr hok
  have hle := ha.le
  have hbody : body.length ≤ buf.length := by
    rw [ha.buf_eq, List.length_append]
    omega
  obtain ⟨r', hr', ha'⟩ := ha.extend suffix (by rw [List.length_append]; omega)
    (by rw [List.length_append]; omega)
  refine ⟨r', hr', ?_, ?_, by rw [ha'.ret, ha.ret]⟩
  · rw [ha'.et]
    split_ifs <;> rfl
  · -- the data is the beginning of what stands behind the header
    have h0 := ha.nonneg
    rw [ha'.pack, ha.pack, List.take_append_of_le_length (by omega)]

/-- A package and one byte, and more behind them. -/
theorem extension_stable_ping :
    ∃ r', parser (ping.encode ++ [0] ++ ping.encode) {} = .ok r' ∧ r'.et.hasOk = true
      ∧ r'.pack = ping.delivered ∧ r'.ret = ping.encode.length := by
  have hparse : parser (ping.encode ++ [0]) {}
      = .ok ⟨.okAndMore, ping.delivered, ping.encode.length⟩ := by decide +kernel
  exact extension_stable ping.encode (by decide +kernel) hparse rfl

end AndrenBoost.Spl
