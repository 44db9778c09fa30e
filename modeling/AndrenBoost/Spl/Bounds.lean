import AndrenBoost.Spl.Messages

/-!
# Staying inside the buffer

The data stage decides with `size - crrt_ops + data_size - 1` whether the body is
complete, although what has arrived should be compared with the declared size.
A body that is shorter than declared, or a size that is negative but not by much,
is therefore taken for complete.  The fields before the data stage never leave
the buffer.

## Main definitions

* `InBounds buf` — parsing the buffer and slicing what is left of it stays inside
  the buffer, and an incomplete body is answered as such.
* `SizeFits buf` — the sizes for which the decision comes out right.

## Main results

* `inBounds_iff` — **the parser stays inside the buffer exactly for these sizes.**
* `short_body_out_of_bounds` — one byte of five.
-/

namespace AndrenBoost.Spl

open StdString

/-- The buffer is used within its bounds. -/
structure InBounds (buf : Bytes) : Prop where
  /-- No field is cut, and no body copied, from outside the buffer. -/
  parses : ∃ r, parser buf {} = .ok r
  /-- A body that is not complete, or has a negative size, is answered `FAILED_DATA`. -/
  answers : ∀ (h : Header) (d : Int) (body : Bytes), h.Declares d → buf = h.bytes ++ body →
    d < 0 ∨ body.length < d → ∀ r, parser buf {} = .ok r → r.et = .failedData
  /-- Nor is what is left of the buffer sliced from outside it. -/
  checks : ∀ s : SplProtocol, s.nextBuffer = buf → ∃ r, s.check = .ok r

/-- The declared sizes the parser copes with: behind a header without body those
up to one more than the buffer's size; else those the body is long enough for,
and those so far negative, or so large, that the sum is negative. -/
def SizeFits (buf : Bytes) : Prop :=
  ∀ (h : Header) (d : Int) (body : Bytes), h.Declares d → buf = h.bytes ++ body →
    if body = [] then -2 ^ 63 < d ∧ d ≤ buf.length + 1
    else (0 ≤ d ∧ d ≤ body.length) ∨ d ≤ -body.length ∨ 2 ^ 63 < d + body.length

/-- Settling an answer faults only where it slices beyond the end. -/
theorem settle_isOk_iff (s : SplProtocol) (buf : Bytes) (r : ParserResult) :
    (∃ x, s.settle buf r = .ok x) ↔ r.ret ≤ buf.length := by
  have hs := s.settle_settled buf r
  generalize s.settle buf r = y at hs ⊢
  cases hs with
  | sliced hpos hle => exact iff_of_true ⟨_, rfl⟩ hle
  | outside hlt => exact iff_of_false (fun ⟨_, hx⟩ => nomatch hx) (Int.not_le.2 hlt)
  | pushed hzero => exact iff_of_true ⟨_, rfl⟩ (by omega)
  | forgotten hneg het => exact iff_of_true ⟨_, rfl⟩ (by omega)
  | stored hneg het => exact iff_of_true ⟨_, rfl⟩ (by omega)

/-- A check that parses the buffer, in terms of the parser. -/
theorem check_isOk_iff {buf : Bytes} {r : ParserResult} (hr : parser buf {} = .ok r) :
    (∀ s : SplProtocol, s.nextBuffer = buf → ∃ x, s.check = .ok x) ↔ r.ret ≤ buf.length := by
  constructor
  · intro h
    by_cases hbuf : buf = []
    · subst hbuf
      cases hr
      decide
    · have hnext : SplProtocol.nextBuffer { historyData := buf, inputor := some {} } = buf := rfl
      obtain ⟨x, hx⟩ := h _ hnext
      rw [SplProtocol.check_eq (by rwa [hnext]), hnext, hr] at hx
      exact (settle_isOk_iff _ buf r).1 ⟨x, hx⟩
  · rintro hle s rfl
    by_cases hbuf : s.nextBuffer = []
    · obtain ⟨et, het, -⟩ := SplProtocol.check_of_nil hbuf
      exact ⟨_, het⟩
    · rw [SplProtocol.check_eq hbuf, hr]
      exact (settle_isOk_iff _ _ r).2 hle

/-- Behind a header. -/
theorem parses_within_iff {h : Header} {d : Int} {body : Bytes} (hd : h.Declares d)
    (hlen : (h.bytes ++ body).length < 2 ^ 63 - 1) :
    (∃ r, parser (h.bytes ++ body) {} = .ok r ∧ r.ret ≤ (h.bytes ++ body).length)
      ↔ if body = [] then -2 ^ 63 < d ∧ d ≤ (h.bytes ++ body).length + 1
        else (0 ≤ d ∧ d ≤ body.length) ∨ d ≤ -body.length ∨ 2 ^ 63 < d + body.length := by
  have hrange := stoll_range hd
  have hans := parser_dataAnswer hd (show (h.bytes ++ body).length < 2 ^ 63 by omega)
  generalize parser (h.bytes ++ body) {} = x at hans ⊢
  have hex : ∀ (r : ParserResult) (n : Int),
      (∃ r', (Except.ok r : Except Fault ParserResult) = .ok r' ∧ r'.ret ≤ n) ↔ r.ret ≤ n :=
    fun r n => ⟨fun ⟨r', hr, hle⟩ => by cases hr; exact hle, fun hle => ⟨r, rfl, hle⟩⟩
  rw [List.length_append] at hlen ⊢
  cases hans with
  | missing hb =>
    rw [hex, if_pos hb]
    dsimp only
    -- the smallest number of the type, less one, is its largest
    by_cases hmin : d = -2 ^ 63
    · rw [int64_of_lt (by omega)]
      omega
    · rw [int64_eq (by omega)]
      omega
  | failed hb hneg hret =>
    rw [hex, if_neg hb]
    dsimp only
    omega
  | complete hb h0 hle hsum het =>
    rw [hex, if_neg hb]
    dsimp only
    omega
  | fault hb hbad hsum =>
    rw [if_neg hb]
    refine iff_of_false (by rintro ⟨r, ⟨⟩, -⟩) ?_
    omega

/-- The parser stays inside the buffer exactly when the declared size fits.  No
string is as long as `2 ^ 63 - 1` bytes. -/
theorem inBounds_iff {buf : Bytes} (hlen : buf.length < 2 ^ 63 - 1) :
    InBounds buf ↔ SizeFits buf := by
  constructor
  · intro hin h d body hd hbuf
    obtain ⟨r, hr⟩ := hin.parses
    have hle := (check_isOk_iff hr).1 hin.checks
    subst hbuf
    exact (parses_within_iff hd hlen).1 ⟨r, hr, hle⟩
  · intro hfits
    -- without a header `ret` is -1, so only the data stage can go wrong
    have key : ∃ r, parser buf {} = .ok r ∧ r.ret ≤ buf.length := by
      obtain ⟨h, d, body, hd, rfl⟩ | ⟨-, et, p, hr, -, -⟩ | ⟨-, hr⟩ := parser_cases buf
      · exact (parses_within_iff hd hlen).2 (hfits h d body hd rfl)
      · exact ⟨_, hr, by dsimp only; omega⟩
      · exact ⟨_, hr, by dsimp only; omega⟩
    obtain ⟨r, hr, hle⟩ := key
    refine ⟨⟨r, hr⟩, ?_, (check_isOk_iff hr).2 hle⟩
    intro h d body hd hbuf hbad r' hr'
    subst hbuf
    have hans := parser_dataAnswer hd (show (h.bytes ++ body).length < 2 ^ 63 by omega)
    rw [hr'] at hans
    -- a body that is not complete is not taken for one
    cases hans with
    | missing hb => rfl
    | failed hb hneg hret => rfl
    | complete hb h0 hle hsum het => omega

/-- The header of five bytes and one of them. -/
def shortBody : Bytes :=
  protocolHead ++ nextLine ++ serviceHead ++ ascii "s" ++ nextLine ++ requestHead ++ ascii "r"
    ++ nextLine ++ dataSizeHead ++ ascii "5" ++ nextLine ++ emptyLine ++ nextLine ++ ascii "a"

/-- What `package` writes declares the data that is there. -/
theorem sizeFits_encode (m : Message) (hlen : m.data.length < 2 ^ 63) : SizeFits m.encode := by
  intro h d body hd hbuf
  rw [m.encode_eq] at hbuf
  obtain ⟨rfl, rfl⟩ := Header.bytes_append_inj hbuf
  have hsize : d = m.data.length := Except.ok.inj (hd.symm.trans (m.declares hlen))
  split_ifs with hnil
  · rw [hsize, hnil]
    exact ⟨by decide, by rw [List.length_nil]; omega⟩
  · exact Or.inl ⟨by omega, hsize.le⟩

/-- A complete package. -/
theorem inBounds_iff_ping : SizeFits ping.encode ∧ InBounds ping.encode := by
  have hfits : SizeFits ping.encode := sizeFits_encode ping (by decide)
  exact ⟨hfits, (inBounds_iff (by decide +kernel)).mpr hfits⟩

/-- Four bytes are copied from beyond the end of the buffer. -/
theorem short_body_out_of_bounds :
    parser shortBody {} = .error .invalidRange ∧ ¬ InBounds shortBody := by
  have hfault : parser shortBody {} = .error .invalidRange := by decide +kernel
  refine ⟨hfault, fun hin => ?_⟩
  obtain ⟨r, hr⟩ := hin.parses
  rw [hfault] at hr
  exact absurd hr (by rintro ⟨⟩)

end AndrenBoost.Spl
