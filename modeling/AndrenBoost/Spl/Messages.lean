import AndrenBoost.Lib.PrefixCode
import AndrenBoost.Spl.Parser

/-!
# Encoded messages

What `package` writes is a header and the data, and the parser reads it back in
front of anything, except for one case: a message without data at the very end of
the buffer is not taken.

## Main definitions

* `Message`, `Message.encode`, `Message.delivered` — a message, its encoding, and
  the package the receiver makes of it.
* `encodeAll` — encodings one after another.
* `SplProtocol.held`, `maxHeld` — the bytes a receiver holds, and more of them
  than any memory has.

## Main results

* `prefixCode_encode` — encodings tell where they end.
* `parser_encode` — **the parser reads back what was encoded.**
* `SplProtocol.check_encode` — a check delivers the message at the front.
-/

namespace AndrenBoost.Spl

open StdString

/-! ### Messages -/

/-- A service and a request on one line each, and data. -/
structure Message where
  service : Bytes
  request : Bytes
  data : Bytes
  service_newLine : newLine ∉ service
  request_newLine : newLine ∉ request
  deriving DecidableEq

theorem newLine_notMem_toDecimal (n : ℕ) : newLine ∉ toDecimal n := fun h =>
  absurd (isDigit_of_mem_toDecimal h) (by decide)

namespace Message

/-- The package the sender fills in. -/
def toPackage (m : Message) : SplPackage :=
  { service := m.service, request := m.request, data := m.data }

/-- What `package()` makes of it. -/
def encode (m : Message) : Bytes := m.toPackage.package.1

/-- The package the receiver should see. -/
def delivered (m : Message) : SplPackage :=
  { head := protocolHead, service := m.service, request := m.request, data := m.data,
    dataSize := m.data.length }

/-- The header in front of the data. -/
def header (m : Message) : Header where
  service := m.service
  request := m.request
  sizeText := toDecimal m.data.length
  junk := []
  service_newLine := m.service_newLine
  request_newLine := m.request_newLine
  sizeText_newLine := newLine_notMem_toDecimal _
  junk_newLine := List.not_mem_nil

theorem encode_eq (m : Message) : m.encode = m.header.bytes ++ m.data := by
  unfold encode SplPackage.package packageOf Header.bytes Header.serviceBytes Header.requestBytes
    Header.sizeBytes Header.emptyBytes header
  simp only [List.append_assoc, List.cons_append, List.nil_append, List.append_nil]
  rfl

theorem declares (m : Message) (h : m.data.length < 2 ^ 63) :
    m.header.Declares m.data.length := stoll_toDecimal h

theorem encode_ne_nil (m : Message) : m.encode ≠ [] := by
  rw [encode_eq]
  exact List.append_ne_nil_of_left_ne_nil m.header.bytes_ne_nil _

/-- Every encoding begins with the first line. -/
theorem exists_encode_eq_firstLine (m : Message) : ∃ l, m.encode = firstLine ++ l := by
  refine ⟨Header.serviceBytes m.service m.request (toDecimal m.data.length) [] ++ m.data, ?_⟩
  rw [encode_eq, m.header.bytes_eq, List.append_assoc]
  rfl

end Message

/-! ### A header determines its fields -/

namespace Header

theorem bytes_append_inj {h h' : Header} {r r' : Bytes} (heq : h.bytes ++ r = h'.bytes ++ r') :
    h = h' ∧ r = r' := by
  obtain ⟨service, request, sizeText, junk, hsv, hr, hs, hj⟩ := h
  obtain ⟨service', request', sizeText', junk', hsv', hr', hs', hj'⟩ := h'
  simp only [bytes, serviceBytes, requestBytes, sizeBytes, emptyBytes, List.append_assoc,
    List.cons_append, List.nil_append, List.append_cancel_left_eq, List.cons.injEq, true_and]
    at heq
  obtain ⟨rfl, h₁⟩ := append_cons_inj_of_delimiter hsv hsv' heq
  obtain ⟨rfl, h₂⟩ := append_cons_inj_of_delimiter hr hr' (List.append_cancel_left h₁)
  obtain ⟨rfl, h₃⟩ := append_cons_inj_of_delimiter hs hs' (List.append_cancel_left h₂)
  obtain ⟨rfl, rfl⟩ := append_cons_inj_of_delimiter hj hj' (List.append_cancel_left h₃)
  exact ⟨rfl, rfl⟩

end Header

theorem toDecimal_injective : Function.Injective toDecimal := fun n n' h => by
  rw [← digitsValue_toDecimal n, h, digitsValue_toDecimal]

/-- Encodings tell where they end. -/
theorem prefixCode_encode : PrefixCode Message.encode where
  ne_nil := Message.encode_ne_nil
  append_inj := by
    intro m m' r r' h
    rw [Message.encode_eq, Message.encode_eq, List.append_assoc, List.append_assoc] at h
    obtain ⟨hheader, hdata⟩ := Header.bytes_append_inj h
    rw [Message.header, Message.header, Header.mk.injEq] at hheader
    obtain ⟨hservice, hrequest, hsize, -⟩ := hheader
    obtain ⟨hdata, hrest⟩ := List.append_inj hdata (toDecimal_injective hsize)
    refine ⟨?_, hrest⟩
    cases m
    cases m'
    cases hservice
    cases hrequest
    cases hdata
    rfl

/-- The encodings of messages, one after another. -/
def encodeAll (ms : List Message) : Bytes := ms.flatMap Message.encode

theorem encodeAll_cons (m : Message) (ms : List Message) :
    encodeAll (m :: ms) = m.encode ++ encodeAll ms := List.flatMap_cons

theorem encodeAll_append (ms ms' : List Message) :
    encodeAll (ms ++ ms') = encodeAll ms ++ encodeAll ms' := List.flatMap_append

/-- Where a cut of a stream can fall: between two messages, or inside one. -/
theorem exists_of_append_eq_encodeAll {ms : List Message} {f r : Bytes}
    (h : f ++ r = encodeAll ms) :
    (∃ g l, ms = g ++ l ∧ f = encodeAll g ∧ r = encodeAll l)
      ∨ ∃ g m l x u, ms = g ++ m :: l ∧ f = encodeAll g ++ x ∧ m.encode = x ++ u
        ∧ x ≠ [] ∧ u ≠ [] ∧ r = u ++ encodeAll l := exists_of_append_eq_flatMap h

/-! ### The bytes a receiver holds -/

/-- More bytes than any address space has room for. -/
def maxHeld : ℕ := 2 ^ 62

namespace SplProtocol

/-- The bytes in the input queue. -/
def pending (s : SplProtocol) : ℕ := s.inputor.elim 0 fun i => (i.data.map List.length).sum

/-- The bytes in the input queue and in the history. -/
def held (s : SplProtocol) : ℕ := s.pending + s.historyData.length

theorem held_eq {s : SplProtocol} {i : Inputor} (h : s.inputor = some i) :
    s.held = s.fetched.pending + s.nextBuffer.length := by
  obtain ⟨data⟩ := i
  unfold held pending fetched nextBuffer
  rw [h]
  cases data with
  | nil => rfl
  | cons chunk data =>
    show ((chunk :: data).map List.length).sum + _ = (data.map List.length).sum + _
    rw [List.map_cons, List.sum_cons]
    show _ = _ + (chunk ++ s.historyData).length
    rw [List.length_append]
    omega

theorem held_pushData {s : SplProtocol} {i : Inputor} (h : s.inputor = some i) (chunk : Bytes) :
    (s.pushData chunk).held = s.held + chunk.length := by
  unfold held pending pushData
  rw [h]
  show ((i.data ++ [chunk]).map List.length).sum + _ = _
  rw [List.map_append, List.sum_append, List.map_singleton, List.sum_singleton]
  show _ = (i.data.map List.length).sum + _ + _
  dsimp only
  omega

end SplProtocol

/-! ### Reading a message back -/

/-- The parser reads back what was encoded, unless neither data nor anything else
follows the header, or the sum of the sizes does not fit its type. -/
theorem parser_encode (m : Message) {rest : Bytes} (hne : m.data ++ rest ≠ [])
    (hlen : (m.encode ++ rest).length < 2 ^ 63)
    (hsum : 2 * m.data.length + rest.length ≤ 2 ^ 63) :
    ∃ et : CheckType, et.hasOk = true
      ∧ parser (m.encode ++ rest) {} = .ok ⟨et, m.delivered, m.encode.length⟩ := by
  have hpos := List.length_pos_iff.2 hne
  rw [List.length_append] at hpos
  rw [Message.encode_eq, List.append_assoc] at hlen ⊢
  have hlen' := hlen
  rw [List.length_append, List.length_append] at hlen'
  have hans := parser_dataAnswer (m.declares (by omega)) hlen
  generalize parser (m.header.bytes ++ (m.data ++ rest)) {} = x at hans ⊢
  -- there is something behind the header, and no less than it declares
  cases hans with
  | missing hb => exact absurd hb hne
  | failed hb hd hret =>
    rw [List.length_append] at hd
    omega
  | @complete et hb h0 hle hsum het =>
    refine ⟨et, by rw [het]; split_ifs <;> rfl, ?_⟩
    rw [Int.toNat_natCast, List.take_left, List.length_append, Int.natCast_add, Header.pack,
      Message.delivered]
    rfl
  | fault hb hbad hsum =>
    rw [List.length_append] at hbad
    omega

namespace SplProtocol

/-- A check delivers the message at the front of the buffer and keeps the rest. -/
theorem check_encode {s : SplProtocol} {m : Message} {rest : Bytes}
    (hbuf : s.nextBuffer = m.encode ++ rest) (hne : m.data ++ rest ≠ [])
    (hlen : s.nextBuffer.length ≤ maxHeld) :
    ∃ et : CheckType, et.hasOk = true ∧ s.check = .ok (et, { s.fetched with
      historyData := rest, waitReadQue := s.waitReadQue ++ [m.delivered] }) := by
  rw [hbuf] at hlen
  have hlen' := hlen
  rw [Message.encode_eq, List.length_append, List.length_append, maxHeld] at hlen'
  obtain ⟨et, het, hparse⟩ :=
    parser_encode m hne (lt_of_le_of_lt hlen (by decide)) (by omega)
  have hpos := List.length_pos_iff.2 m.encode_ne_nil
  have hbuf_ne : s.nextBuffer ≠ [] := by
    rw [hbuf]
    exact List.append_ne_nil_of_left_ne_nil m.encode_ne_nil _
  have hle : (m.encode.length : Int) ≤ (m.encode ++ rest).length := by
    rw [List.length_append]
    omega
  refine ⟨et, het, ?_⟩
  rw [check_eq hbuf_ne, hbuf, hparse, ok_bind,
    settle_pos s.fetched (r := ⟨et, m.delivered, m.encode.length⟩) (Int.natCast_pos.2 hpos) hle]
  dsimp only
  rw [Int.toNat_natCast, List.drop_left]
  rfl

end SplProtocol

/-- A package of four bytes. -/
def ping : Message :=
  ⟨ascii "s", ascii "r", ascii "ping", by decide, by decide⟩

example : parser ping.encode {} = .ok ⟨.okAndMore, ping.delivered, ping.encode.length⟩ := by
  decide +kernel

end AndrenBoost.Spl
