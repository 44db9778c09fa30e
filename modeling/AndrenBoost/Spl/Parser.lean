import AndrenBoost.Spl.Protocol

/-!
# What the parser accepts

The parser is described by the headers it reads through: five lines, the last of
which may carry anything after its carriage return.  A string either begins with
such a header, whose size field is a number, and the verdict is that of the data
stage; or it does not, and is refused with `ret = -1`.

## Main definitions

* `Header`, `Header.bytes` — a header the parser reads through.
* `Header.Declares h d` — its size field reads as `d`.
* `Refused x` — the parser gave up before the data stage, after the first line.
* `DataAnswer h d body` — the answers of the data stage.

## Main results

* `parser_header` — behind a header the data stage decides.
* `parser_cases` — **without a header the parser refuses.**
* `parseData_complete`, `parseData_eq_fault`, `parseData_failed`,
  `parseData_nil` — the data stage.
* `parser_dataAnswer` — **behind a header there are four answers.**
-/

namespace AndrenBoost.Spl

open StdString

/-! ### Fields -/

/-- A label ends with its only use of the colon that `find` looks for, and is on
one line. -/
structure IsLabel (label : Bytes) : Prop where
  getLast : ∃ l, label = l ++ [colon]
  newLine : newLine ∉ label

theorem isLabel_service : IsLabel serviceHead := ⟨⟨ascii "Service", by decide⟩, by decide⟩
theorem isLabel_request : IsLabel requestHead := ⟨⟨ascii "Request", by decide⟩, by decide⟩
theorem isLabel_dataSize : IsLabel dataSizeHead := ⟨⟨ascii "data_size", by decide⟩, by decide⟩

theorem substrOrThrow_of_le {data : Bytes} {pos : ℕ} (h : pos ≤ data.length) (n : ℕ) :
    substrOrThrow data pos n = .ok ((data.drop pos).take n) := by
  rw [substrOrThrow, substr, if_pos h, slice]
  rfl

theorem le_length_of_drop {data l : Bytes} {c : UInt8} {pos : ℕ} (h : data.drop pos = c :: l) :
    pos < data.length := by
  by_contra hlt
  rw [List.drop_eq_nil_of_le (by omega)] at h
  exact List.cons_ne_nil c l h.symm

theorem drop_add_of_drop {data l r : Bytes} {pos : ℕ} (h : data.drop pos = l ++ r) :
    data.drop (pos + l.length) = r := by
  rw [← List.drop_drop, h, List.drop_left]

/-- A field that is there is read. -/
theorem fieldLine_of_drop {label value rest data : Bytes} {pos : ℕ} (hl : IsLabel label)
    (hv : newLine ∉ value) (h : data.drop pos = label ++ value ++ newLine :: rest) :
    fieldLine label data pos = .ok (.field value (pos + (label ++ value).length + 1)) := by
  obtain ⟨l, rfl⟩ := hl.getLast
  have hlen : (l ++ [colon]).length = l.length + 1 := by rw [List.length_append]; rfl
  have hline : newLine ∉ l ++ [colon] ++ value := fun hm =>
    (List.mem_append.1 hm).elim hl.newLine hv
  have hcolon : data.drop (pos + (l ++ [colon]).length - 1)
      = [] ++ colon :: (value ++ newLine :: rest) := by
    have hdrop : data.drop (pos + l.length) = [colon] ++ value ++ newLine :: rest :=
      drop_add_of_drop (by rw [h]; simp only [List.append_assoc])
    rw [hlen, ← Nat.add_assoc, Nat.add_sub_cancel, hdrop]
    rfl
  -- the line feed ends the value, and the search for the colon starts at the label's own
  have hnl := find_append h hline
  have hdiv := find_append hcolon List.not_mem_nil
  have hpos : pos + l.length + 1 ≤ data.length := by
    have := congrArg List.length h
    simp only [List.length_drop, List.length_append, List.length_cons, List.length_nil] at this
    omega
  have hvalue : data.drop (pos + l.length + 1) = value ++ newLine :: rest := by
    have hdrop : data.drop (pos + (l ++ [colon]).length) = value ++ newLine :: rest :=
      drop_add_of_drop (by rw [h]; simp only [List.append_assoc])
    rwa [hlen, ← Nat.add_assoc] at hdrop
  unfold fieldLine
  rw [hnl, hdiv]
  dsimp only
  simp only [hlen, List.length_nil, Nat.add_zero, ← Nat.add_assoc, Nat.add_sub_cancel]
  rw [substrOrThrow_of_le (by omega), substrOrThrow_of_le hpos, hvalue, h]
  have htake : List.take (pos + l.length + 1 - pos) (l ++ [colon] ++ value ++ newLine :: rest)
      = l ++ [colon] := by
    rw [show pos + l.length + 1 - pos = (l ++ [colon]).length by omega, List.append_assoc,
      List.take_left]
  have hsub : sizeSub (pos + (l ++ [colon] ++ value).length) (pos + l.length + 1)
      = value.length := by
    rw [List.length_append, hlen, sizeSub, if_pos (by omega)]
    omega
  rw [htake, hsub, List.take_left]
  rw [ok_bind, if_pos rfl]
  rfl

/-- A label that a string begins with is within its first line. -/
theorem isPrefix_line {label line rest : Bytes} (hl : newLine ∉ label)
    (h : label <+: line ++ newLine :: rest) : label <+: line := by
  obtain ⟨t, ht⟩ := h
  rw [List.append_eq_append_iff] at ht
  obtain ⟨v, rfl, -⟩ | ⟨c, rfl, hc⟩ := ht
  · exact List.prefix_append label v
  · cases c with
    | nil => exact ⟨[], by rw [List.append_nil, List.append_nil]⟩
    | cons b c =>
      rw [List.cons_append, List.cons.injEq] at hc
      exact absurd (List.mem_append_right line (hc.1 ▸ List.mem_cons_self)) hl

/-- A field that is read is there, and one that is not read is not. -/
theorem fieldLine_cases {label data : Bytes} {pos : ℕ} (hl : IsLabel label)
    (hpos : pos ≤ data.length) :
    (∃ value rest, newLine ∉ value ∧ data.drop pos = label ++ value ++ newLine :: rest)
      ∨ (newLine ∉ data.drop pos ∧ fieldLine label data pos = .ok .noNewLine)
      ∨ ∃ line rest, newLine ∉ line ∧ data.drop pos = line ++ newLine :: rest
        ∧ ¬ label <+: line ∧ fieldLine label data pos = .ok .wrongLabel := by
  cases hnl : find data newLine pos with
  | none =>
    right; left
    exact ⟨notMem_of_find_eq_none hnl, by rw [fieldLine, hnl]⟩
  | some ops =>
    obtain ⟨line, rest, hdrop, hline, -⟩ := exists_of_find hnl
    by_cases hlabel : label <+: line
    · left
      obtain ⟨value, rfl⟩ := hlabel
      exact ⟨value, rest, fun hm => hline (List.mem_append_right _ hm), hdrop⟩
    · right; right
      refine ⟨line, rest, hline, hdrop, hlabel, ?_⟩
      cases hdiv : find data colon (pos + label.length - 1) with
      | none => rw [fieldLine, hnl, hdiv]
      | some divOps =>
        have htake : (data.drop pos).take (divOps + 1 - pos) ≠ label := by
          intro htake
          have hpre : label <+: data.drop pos := htake ▸ List.take_prefix _ _
          rw [hdrop] at hpre
          exact hlabel (isPrefix_line hl.newLine hpre)
        rw [fieldLine, hnl, hdiv]
        dsimp only
        rw [substrOrThrow_of_le hpos, ok_bind, if_neg htake]
        rfl

/-! ### Headers -/

/-- A header the parser reads through.  `junk` stands between the carriage return
of the empty line and its line feed. -/
structure Header where
  service : Bytes
  request : Bytes
  sizeText : Bytes
  junk : Bytes
  service_newLine : newLine ∉ service
  request_newLine : newLine ∉ request
  sizeText_newLine : newLine ∉ sizeText
  junk_newLine : newLine ∉ junk

namespace Header

/-- The lines after the data size. -/
def emptyBytes (junk : Bytes) : Bytes := emptyLine ++ junk ++ [newLine]

/-- The lines from the data size on. -/
def sizeBytes (sizeText junk : Bytes) : Bytes :=
  dataSizeHead ++ sizeText ++ newLine :: emptyBytes junk

/-- The lines from the request on. -/
def requestBytes (request sizeText junk : Bytes) : Bytes :=
  requestHead ++ request ++ newLine :: sizeBytes sizeText junk

/-- The lines from the service on. -/
def serviceBytes (service request sizeText junk : Bytes) : Bytes :=
  serviceHead ++ service ++ newLine :: requestBytes request sizeText junk

/-- The text of a header. -/
def bytes (h : Header) : Bytes :=
  protocolHead ++ newLine :: serviceBytes h.service h.request h.sizeText h.junk

theorem bytes_ne_nil (h : Header) : h.bytes ≠ [] :=
  List.append_ne_nil_of_left_ne_nil (by decide) _

/-- The size field of the header reads as `d`. -/
def Declares (h : Header) (d : Int) : Prop := stoll h.sizeText = .ok d

/-- The package as far as a header fills it in. -/
def pack (h : Header) (d : Int) : SplPackage :=
  { head := protocolHead, service := h.service, request := h.request, dataSize := d }

@[simp] theorem pack_dataSize (h : Header) (d : Int) : (h.pack d).dataSize = d := rfl

@[simp] theorem pack_data (h : Header) (d : Int) : (h.pack d).data = [] := rfl

end Header

/-- The parser gave up before the data stage, after the first line. -/
def Refused (x : Except Fault ParserResult) : Prop :=
  ∃ et pack, x = .ok ⟨et, pack, -1⟩ ∧ et.hasOk = false ∧ et ≠ .failedHead

/-! ### One stage after another -/

section Stages

variable {data : Bytes} {p : SplPackage} {pos : ℕ}

theorem parseEmptyLine_of_drop {junk body : Bytes} (hj : newLine ∉ junk)
    (h : data.drop pos = Header.emptyBytes junk ++ body) :
    parseEmptyLine data p pos = parseData data p (pos + (Header.emptyBytes junk).length) := by
  have hline : newLine ∉ emptyLine ++ junk := fun hm =>
    (List.mem_append.1 hm).elim (by decide) hj
  have hdrop : data.drop pos = emptyLine ++ junk ++ newLine :: body := by
    rw [h, Header.emptyBytes, List.append_assoc]
    rfl
  have hpos : pos ≤ data.length := (le_length_of_drop hdrop).le
  have htake : (data.drop pos).take emptyLine.length = emptyLine := by
    rw [hdrop, List.append_assoc, List.take_left]
  unfold parseEmptyLine
  rw [find_append hdrop hline]
  dsimp only
  rw [substrOrThrow_of_le hpos, htake]
  have hlen : (Header.emptyBytes junk).length = (emptyLine ++ junk).length + 1 :=
    List.length_append
  rw [ok_bind, if_pos rfl, hlen]
  rfl

theorem parseEmptyLine_cases (p : SplPackage) (hpos : pos ≤ data.length) :
    (∃ junk body, newLine ∉ junk ∧ data.drop pos = Header.emptyBytes junk ++ body)
      ∨ Refused (parseEmptyLine data p pos) := by
  cases hnl : find data newLine pos with
  | none =>
    right
    exact ⟨.failedEmptyLine, p, by rw [parseEmptyLine, hnl], rfl, by decide⟩
  | some ops =>
    by_cases htake : (data.drop pos).take emptyLine.length = emptyLine
    · left
      obtain ⟨l, r, hdrop, hl, -⟩ := exists_of_find hnl
      rw [hdrop] at htake
      cases l with
      | nil =>
        rw [List.nil_append] at htake
        exact absurd (List.cons.inj htake).1 (by decide)
      | cons b junk =>
        have hb : b = 13 := by
          rw [List.cons_append] at htake
          exact (List.cons.inj htake).1
        refine ⟨junk, r, fun hm => hl (List.mem_cons_of_mem _ hm), ?_⟩
        rw [hdrop, hb]
        show _ = (13 :: junk) ++ [newLine] ++ r
        rw [List.append_assoc]
        rfl
    · right
      refine ⟨.failedEmptyLine, p, ?_, rfl, by decide⟩
      rw [parseEmptyLine, hnl]
      dsimp only
      rw [substrOrThrow_of_le hpos, ok_bind, if_neg htake]
      rfl

/-- The way through a field stage. -/
theorem fieldLine_bind {label value rest : Bytes} (hl : IsLabel label) (hv : newLine ∉ value)
    (h : data.drop pos = label ++ value ++ newLine :: rest)
    (k : FieldLine → Except Fault ParserResult) :
    (fieldLine label data pos >>= k)
        = k (.field value (pos + (label ++ value ++ [newLine]).length))
      ∧ data.drop (pos + (label ++ value ++ [newLine]).length) = rest := by
  refine ⟨?_, drop_add_of_drop (by rw [h, List.append_assoc _ [newLine]]; rfl)⟩
  have hlen : (label ++ value ++ [newLine]).length = (label ++ value).length + 1 :=
    List.length_append
  rw [fieldLine_of_drop hl hv h, hlen]
  rfl

/-- Every way a field stage can take: it refuses, or goes on behind a field. -/
theorem or_refused_of_fieldLine {label : Bytes} (hl : IsLabel label) (hpos : pos ≤ data.length)
    {k : FieldLine → Except Fault ParserResult} {P : Prop} (hno : Refused (k .noNewLine))
    (hwrong : Refused (k .wrongLabel))
    (hfield : ∀ value next, newLine ∉ value → next ≤ data.length →
      data.drop pos = label ++ value ++ newLine :: data.drop next →
      P ∨ Refused (k (.field value next))) :
    P ∨ Refused (fieldLine label data pos >>= k) := by
  obtain ⟨value, rest, hv, h⟩ | ⟨-, h⟩ | ⟨-, -, -, -, -, h⟩ := fieldLine_cases hl hpos
  · obtain ⟨hk, hdrop⟩ := fieldLine_bind hl hv h k
    rw [hk]
    apply hfield value _ hv ?_ (by rw [hdrop, h])
    have hlen := congrArg List.length h
    simp only [List.length_drop, List.length_append, List.length_cons, List.length_nil] at hlen ⊢
    omega
  · right
    rw [h]
    exact hno
  · right
    rw [h]
    exact hwrong

theorem parseDataSize_of_drop {sizeText junk body : Bytes} {d : Int} (hs : newLine ∉ sizeText)
    (hj : newLine ∉ junk) (hd : stoll sizeText = .ok d)
    (h : data.drop pos = Header.sizeBytes sizeText junk ++ body) :
    parseDataSize data p pos
      = parseData data { p with dataSize := d }
          (pos + (Header.sizeBytes sizeText junk).length) := by
  rw [Header.sizeBytes, List.append_assoc, List.cons_append] at h
  obtain ⟨hk, hnext⟩ := fieldLine_bind isLabel_dataSize hs h _
  unfold parseDataSize
  rw [hk]
  dsimp only
  rw [hd]
  dsimp only
  rw [parseEmptyLine_of_drop hj hnext, Header.sizeBytes]
  congr 1
  simp only [List.length_append, List.length_cons, List.length_nil]
  omega

theorem parseDataSize_cases (p : SplPackage) (hpos : pos ≤ data.length) :
    (∃ sizeText junk body d, newLine ∉ sizeText ∧ newLine ∉ junk ∧ stoll sizeText = .ok d
        ∧ data.drop pos = Header.sizeBytes sizeText junk ++ body)
      ∨ Refused (parseDataSize data p pos) := by
  unfold parseDataSize
  refine or_refused_of_fieldLine isLabel_dataSize hpos
    ⟨.failedDataSize, p, rfl, rfl, by decide⟩ ⟨.failedService, p, rfl, rfl, by decide⟩ ?_
  intro value next hv hnext hdrop
  dsimp only
  cases hd : stoll value with
  | error e =>
    right
    exact ⟨.failedService, p, rfl, rfl, by decide⟩
  | ok d =>
    refine (parseEmptyLine_cases { p with dataSize := d } hnext).imp_left ?_
    rintro ⟨junk, body, hj, hbody⟩
    refine ⟨value, junk, body, d, hv, hj, hd, ?_⟩
    rw [hdrop, hbody, Header.sizeBytes, List.append_assoc, List.append_assoc]
    rfl

theorem parseRequest_of_drop {request sizeText junk body : Bytes} {d : Int}
    (hr : newLine ∉ request) (hs : newLine ∉ sizeText) (hj : newLine ∉ junk)
    (hd : stoll sizeText = .ok d)
    (h : data.drop pos = Header.requestBytes request sizeText junk ++ body) :
    parseRequest data p pos
      = parseData data { p with request := request, dataSize := d }
          (pos + (Header.requestBytes request sizeText junk).length) := by
  rw [Header.requestBytes, List.append_assoc, List.cons_append] at h
  obtain ⟨hk, hnext⟩ := fieldLine_bind isLabel_request hr h _
  unfold parseRequest
  rw [hk]
  dsimp only
  rw [parseDataSize_of_drop hs hj hd hnext, Header.requestBytes]
  congr 1
  simp only [List.length_append, List.length_cons, List.length_nil]
  omega

theorem parseRequest_cases (p : SplPackage) (hpos : pos ≤ data.length) :
    (∃ request sizeText junk body d, newLine ∉ request ∧ newLine ∉ sizeText ∧ newLine ∉ junk
        ∧ stoll sizeText = .ok d
        ∧ data.drop pos = Header.requestBytes request sizeText junk ++ body)
      ∨ Refused (parseRequest data p pos) := by
  unfold parseRequest
  refine or_refused_of_fieldLine isLabel_request hpos
    ⟨.failedRequest, p, rfl, rfl, by decide⟩ ⟨.failedService, p, rfl, rfl, by decide⟩ ?_
  intro value next hv hnext hdrop
  refine (parseDataSize_cases { p with request := value } hnext).imp_left ?_
  rintro ⟨sizeText, junk, body, d, hs, hj, hd, hbody⟩
  refine ⟨value, sizeText, junk, body, d, hv, hs, hj, hd, ?_⟩
  rw [hdrop, hbody, Header.requestBytes, List.append_assoc, List.append_assoc]
  rfl

theorem parseService_of_drop {service request sizeText junk body : Bytes} {d : Int}
    (hsv : newLine ∉ service) (hr : newLine ∉ request) (hs : newLine ∉ sizeText)
    (hj : newLine ∉ junk) (hd : stoll sizeText = .ok d)
    (h : data.drop pos = Header.serviceBytes service request sizeText junk ++ body) :
    parseService data p pos
      = parseData data { p with service := service, request := request, dataSize := d }
          (pos + (Header.serviceBytes service request sizeText junk).length) := by
  rw [Header.serviceBytes, List.append_assoc, List.cons_append] at h
  obtain ⟨hk, hnext⟩ := fieldLine_bind isLabel_service hsv h _
  unfold parseService
  rw [hk]
  dsimp only
  rw [parseRequest_of_drop hr hs hj hd hnext, Header.serviceBytes]
  congr 1
  simp only [List.length_append, List.length_cons, List.length_nil]
  omega

theorem parseService_cases (p : SplPackage) (hpos : pos ≤ data.length) :
    (∃ service request sizeText junk body d, newLine ∉ service ∧ newLine ∉ request
        ∧ newLine ∉ sizeText ∧ newLine ∉ junk ∧ stoll sizeText = .ok d
        ∧ data.drop pos = Header.serviceBytes service request sizeText junk ++ body)
      ∨ Refused (parseService data p pos) := by
  unfold parseService
  refine or_refused_of_fieldLine isLabel_service hpos
    ⟨.failedService, p, rfl, rfl, by decide⟩ ⟨.failedService, p, rfl, rfl, by decide⟩ ?_
  intro value next hv hnext hdrop
  refine (parseRequest_cases { p with service := value } hnext).imp_left ?_
  rintro ⟨request, sizeText, junk, body, d, hr, hs, hj, hd, hbody⟩
  refine ⟨value, request, sizeText, junk, body, d, hv, hr, hs, hj, hd, ?_⟩
  rw [hdrop, hbody, Header.serviceBytes, List.append_assoc, List.append_assoc]
  rfl

end Stages

/-! ### The parser -/

/-- The first line, without which the parser does not read on. -/
def firstLine : Bytes := protocolHead ++ [newLine]

theorem newLine_notMem_protocolHead : newLine ∉ protocolHead := by decide

/-- The first byte of the first line does not come again in it. -/
theorem not_firstLine_isPrefix {f x : Bytes} (hf : f ≠ []) (hlt : f.length < firstLine.length)
    (hx : x[0]? = some 82) : ¬ firstLine <+: f ++ x := by
  intro hpre
  have honce : ∀ k < firstLine.length, 0 < k → firstLine[k]? ≠ some 82 := by decide
  apply honce f.length hlt (List.length_pos_iff.2 hf)
  rw [← hx, List.getElem?_eq_getElem hlt, ← List.prefix_iff_getElem?.1 hpre f.length hlt,
    List.getElem?_append_right (Nat.le_refl _), Nat.sub_self]

theorem parser_of_firstLine {data rest : Bytes} (h : data = firstLine ++ rest) :
    parser data {} = parseService data { head := protocolHead } firstLine.length := by
  have hdrop : data.drop 0 = protocolHead ++ newLine :: rest := by
    rw [List.drop_zero, h, firstLine, List.append_assoc]
    rfl
  have htake : (data.drop 0).take (0 + (0 + protocolHead.length)) = protocolHead := by
    rw [hdrop, Nat.zero_add, Nat.zero_add, List.take_left]
  unfold parser
  rw [find_append hdrop newLine_notMem_protocolHead]
  dsimp only
  rw [substrOrThrow_of_le (Nat.zero_le _), htake, ok_bind, if_pos rfl]
  rfl

/-- A string that does not begin with the first line. -/
theorem parser_of_not_firstLine {data : Bytes} (h : ¬ firstLine <+: data) :
    parser data {} = .ok ⟨.failedHead, {}, -1⟩ := by
  cases hnl : find data newLine 0 with
  | none => rw [parser, hnl]
  | some ops =>
    obtain ⟨l, r, hdrop, hl, hops⟩ := exists_of_find hnl
    have htake : (data.drop 0).take (0 + ops) = l := by
      rw [hdrop, hops, Nat.zero_add, Nat.zero_add, List.take_left]
    have hne : l ≠ protocolHead := by
      rintro rfl
      apply h
      refine ⟨r, ?_⟩
      rw [firstLine, List.append_assoc]
      exact hdrop.symm
    rw [parser, hnl]
    dsimp only
    rw [substrOrThrow_of_le (Nat.zero_le _), htake, ok_bind, if_neg hne]
    rfl

/-- A header begins with the first line. -/
theorem Header.bytes_eq (h : Header) :
    h.bytes = firstLine ++ Header.serviceBytes h.service h.request h.sizeText h.junk := by
  rw [bytes, firstLine, List.append_assoc]
  rfl

/-- Behind a header the data stage decides. -/
theorem parser_header (h : Header) (body : Bytes) {d : Int} (hd : h.Declares d) :
    parser (h.bytes ++ body) {} = parseData (h.bytes ++ body) (h.pack d) h.bytes.length := by
  have hfirst : h.bytes ++ body
      = firstLine ++ (Header.serviceBytes h.service h.request h.sizeText h.junk ++ body) := by
    rw [h.bytes_eq, List.append_assoc]
  have hdrop : (h.bytes ++ body).drop firstLine.length
      = Header.serviceBytes h.service h.request h.sizeText h.junk ++ body := by
    rw [hfirst, List.drop_left]
  rw [parser_of_firstLine hfirst, parseService_of_drop h.service_newLine h.request_newLine
    h.sizeText_newLine h.junk_newLine hd hdrop, Header.pack]
  congr 1
  rw [Header.bytes, firstLine]
  simp only [List.length_append, List.length_cons, List.length_nil]
  omega

/-- Every verdict before the data stage is a refusal. -/
theorem parser_cases (data : Bytes) :
    (∃ (h : Header) (d : Int) (body : Bytes), h.Declares d ∧ data = h.bytes ++ body)
      ∨ (firstLine <+: data ∧ Refused (parser data {}))
      ∨ (¬ firstLine <+: data ∧ parser data {} = .ok ⟨.failedHead, {}, -1⟩) := by
  by_cases hfirst : firstLine <+: data
  · obtain ⟨rest, hrest⟩ := hfirst
    have hlen : firstLine.length ≤ data.length := by
      rw [← hrest, List.length_append]
      omega
    obtain ⟨service, request, sizeText, junk, body, d, hsv, hr, hs, hj, hd, hdrop⟩ | h :=
      parseService_cases { head := protocolHead } hlen
    · left
      refine ⟨⟨service, request, sizeText, junk, hsv, hr, hs, hj⟩, d, body, hd, ?_⟩
      rw [← hrest, List.drop_left] at hdrop
      rw [← hrest, hdrop, Header.bytes, firstLine, List.append_assoc, List.append_assoc]
      rfl
    · right; left
      exact ⟨⟨rest, hrest⟩, by rwa [parser_of_firstLine hrest.symm]⟩
  · right; right
    exact ⟨hfirst, parser_of_not_firstLine hfirst⟩

/-! ### The data stage -/

theorem int64_eq {x : Int} (h : -2 ^ 63 ≤ x ∧ x < 2 ^ 63) : int64 x = x := by
  rw [int64, Int.bmod_eq_iff (by decide)]
  omega

/-- A sum of two sizes that is too large for the type. -/
theorem int64_of_ge {x : Int} (h : 2 ^ 63 ≤ x ∧ x < 2 ^ 64) : int64 x = x - 2 ^ 64 := by
  rw [int64, Int.bmod_eq_iff (by decide)]
  omega

/-- The smallest number of the type, less one. -/
theorem int64_of_lt {x : Int} (h : -2 ^ 64 ≤ x ∧ x < -2 ^ 63) : int64 x = x + 2 ^ 64 := by
  rw [int64, Int.bmod_eq_iff (by decide)]
  omega

section Data

variable (pre : Bytes) {body : Bytes} {p : SplPackage}

theorem parseData_ret (body : Bytes) (d : Int) :
    ((pre ++ body).length - pre.length + d - 1 : Int) = body.length + d - 1 := by
  rw [List.length_append]
  omega

/-- Nothing stands behind the header. -/
theorem parseData_nil (p : SplPackage) :
    parseData (pre ++ []) p pre.length = .ok ⟨.failedData, p, int64 (p.dataSize - 1)⟩ := by
  unfold parseData
  rw [parseData_ret, if_neg (by rw [List.append_nil]; exact lt_irrefl _)]
  congr 3
  show (0 + p.dataSize - 1) = _
  omega

/-- The sum that should tell how much is missing is negative. -/
theorem parseData_failed (hb : body ≠ []) (hret : int64 (body.length + p.dataSize - 1) < 0) :
    parseData (pre ++ body) p pre.length
      = .ok ⟨.failedData, p, int64 (body.length + p.dataSize - 1)⟩ := by
  have hpos := List.length_pos_iff.2 hb
  unfold parseData
  rw [parseData_ret, if_pos (by rw [List.length_append]; omega), if_pos hret]

/-- The body is there. -/
theorem parseData_complete (hb : body ≠ []) (hret : 0 ≤ int64 (body.length + p.dataSize - 1))
    (h0 : 0 ≤ p.dataSize) (hle : p.dataSize ≤ body.length) :
    parseData (pre ++ body) p pre.length
      = .ok ⟨if int64 (body.length + p.dataSize - 1) = 0 then .ok else .okAndMore,
          { p with data := body.take p.dataSize.toNat ++ p.data },
          int64 (pre.length + p.dataSize)⟩ := by
  have hpos := List.length_pos_iff.2 hb
  have hrange : iteratorRange (pre ++ body) pre.length (pre.length + p.dataSize)
      = .ok (body.take p.dataSize.toNat) := by
    rw [iteratorRange, range_append h0 hle]
    rfl
  unfold parseData
  rw [parseData_ret, if_pos (by rw [List.length_append]; omega), if_neg (by omega), hrange]
  rfl

/-- The body is not there, or its size is negative, and the parser copies it all
the same. -/
theorem parseData_eq_fault (hb : body ≠ []) (hret : 0 ≤ int64 (body.length + p.dataSize - 1))
    (hbad : p.dataSize < 0 ∨ body.length < p.dataSize) :
    parseData (pre ++ body) p pre.length = .error .invalidRange := by
  have hpos := List.length_pos_iff.2 hb
  have hrange : iteratorRange (pre ++ body) pre.length (pre.length + p.dataSize)
      = .error .invalidRange := by
    rw [iteratorRange, range_append_eq_none hbad]
    rfl
  unfold parseData
  rw [parseData_ret, if_pos (by rw [List.length_append]; omega), if_neg (by omega), hrange]
  rfl

end Data

/-! ### Behind a header -/

/-- What the parser answers behind a header that declares `d`. -/
inductive DataAnswer (h : Header) (d : Int) (body : Bytes) : Except Fault ParserResult → Prop
  /-- Nothing stands behind the header. -/
  | missing (hb : body = []) : DataAnswer h d body (.ok ⟨.failedData, h.pack d, int64 (d - 1)⟩)
  /-- The sum of the two sizes is negative, or does not fit its type. -/
  | failed {ret : Int} (hb : body ≠ []) (hd : d ≤ -body.length ∨ 2 ^ 63 < d + body.length)
      (hret : ret < 0) : DataAnswer h d body (.ok ⟨.failedData, h.pack d, ret⟩)
  /-- The body is there. -/
  | complete {et : CheckType} (hb : body ≠ []) (h0 : 0 ≤ d) (hle : d ≤ body.length)
      (hsum : d + body.length ≤ 2 ^ 63)
      (het : et = if (body.length : Int) + d = 1 then .ok else .okAndMore) :
      DataAnswer h d body
        (.ok ⟨et, { h.pack d with data := body.take d.toNat }, h.bytes.length + d⟩)
  /-- The body is not there, and is copied all the same. -/
  | fault (hb : body ≠ []) (hbad : (-body.length < d ∧ d < 0) ∨ body.length < d)
      (hsum : d + body.length ≤ 2 ^ 63) : DataAnswer h d body (.error .invalidRange)

/-- What the data stage decides by. -/
theorem int64_neg_iff {h : Header} {d : Int} {body : Bytes} (hb : body ≠ []) (hd : h.Declares d)
    (hlen : body.length < 2 ^ 63) :
    int64 (body.length + d - 1) < 0 ↔ d ≤ -body.length ∨ 2 ^ 63 < d + body.length := by
  have hpos := List.length_pos_iff.2 hb
  have hrange := stoll_range hd
  by_cases hbig : 2 ^ 63 ≤ body.length + d - 1
  · rw [int64_of_ge (by omega)]
    omega
  · rw [int64_eq (by omega)]
    omega

/-- **Behind a header there are four answers.** -/
theorem parser_dataAnswer {h : Header} {d : Int} {body : Bytes} (hd : h.Declares d)
    (hlen : (h.bytes ++ body).length < 2 ^ 63) :
    DataAnswer h d body (parser (h.bytes ++ body) {}) := by
  rw [List.length_append] at hlen
  rw [parser_header h body hd]
  by_cases hb : body = []
  · subst hb
    rw [parseData_nil]
    exact .missing rfl
  have hpos := List.length_pos_iff.2 hb
  have hneg := int64_neg_iff hb hd (by omega)
  by_cases hret : int64 (body.length + d - 1) < 0
  · rw [parseData_failed _ (p := h.pack d) hb hret]
    exact .failed hb (hneg.1 hret) hret
  have hsum := mt hneg.2 hret
  by_cases hfit : 0 ≤ d ∧ d ≤ body.length
  · rw [parseData_complete _ (p := h.pack d) hb (Int.not_lt.1 hret) hfit.1 hfit.2,
      Header.pack_dataSize, Header.pack_data, List.append_nil, int64_eq (x := h.bytes.length + d)
      (by omega), int64_eq (by omega)]
    refine .complete hb hfit.1 hfit.2 (by omega) ?_
    split_ifs <;> first | rfl | omega
  · rw [parseData_eq_fault _ (p := h.pack d) hb (Int.not_lt.1 hret)
      (by rw [Header.pack_dataSize]; omega)]
    exact .fault hb (by omega) (by omega)

/-! ### A check behind a header -/

namespace SplProtocol

variable {s : SplProtocol} {h : Header} {d : Int} {body : Bytes}

theorem nextBuffer_ne_nil (hbuf : s.nextBuffer = h.bytes ++ body) : s.nextBuffer ≠ [] := by
  rw [hbuf]
  exact List.append_ne_nil_of_left_ne_nil h.bytes_ne_nil body

/-- A check settles one of the four answers. -/
theorem check_dataAnswer (hd : h.Declares d) (hbuf : s.nextBuffer = h.bytes ++ body)
    (hlen : s.nextBuffer.length < 2 ^ 63) :
    ∃ x, DataAnswer h d body x
      ∧ s.check = x >>= fun r => s.fetched.settle s.nextBuffer r := by
  refine ⟨_, ?_, check_eq (nextBuffer_ne_nil hbuf)⟩
  rw [hbuf] at hlen ⊢
  exact parser_dataAnswer hd hlen

end SplProtocol

end AndrenBoost.Spl
