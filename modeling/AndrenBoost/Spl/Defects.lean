import AndrenBoost.Spl.Messages

/-!
# The first defect of a buffer

What is missing or malformed first in a buffer is read off the documented format
here, line by line and without the parser, and compared with the verdict of the
parser.  A line that has not ended yet is reported as such.  But a request or a size
with a wrong label, and a size that is not a number, are reported as a wrong service;
and a size that only begins with a number, or an empty line with something behind
its carriage return, is passed over.

## Main definitions

* `Defect`, `Defect.verdict` — what can be wrong, and the enumerator for it.
* `firstDefect` — the first thing that is wrong with a buffer.
* `Defect.Named` — the defects that the parser reports by their names.
* `Names x o` — the verdict of `x` is that of `o` exactly when `o` is such a defect.

## Main results

* `names_parseDataSize`, `names_parseRequest`, `names_parseService` — one stage
  after another.
* `names_first_defect_iff` — **when the verdict names the first defect.**
-/

namespace AndrenBoost.Spl

open StdString

/-! ### The format, line by line -/

/-- What can be wrong with a buffer. -/
inductive Defect
  /-- The head line is missing, or another line. -/
  | headLine
  /-- The service line is missing, or has another label. -/
  | serviceLine
  /-- The request line is missing. -/
  | requestMissing
  /-- The request line has another label. -/
  | requestLabel
  /-- The line of the data size is missing. -/
  | dataSizeMissing
  /-- It has another label, or what it says is not a number the type has room for. -/
  | dataSizeMalformed
  /-- The empty line is missing, or does not begin with its carriage return. -/
  | emptyLine
  /-- Something stands behind the carriage return. -/
  | emptyLineJunk
  /-- The data is shorter than the size says. -/
  | body
  deriving DecidableEq, Repr

/-- The enumerator that is documented for the part of the format. -/
def Defect.verdict : Defect → CheckType
  | headLine => .failedHead
  | serviceLine => .failedService
  | requestMissing => .failedRequest
  | requestLabel => .failedRequest
  | dataSizeMissing => .failedDataSize
  | dataSizeMalformed => .failedDataSize
  | emptyLine => .failedEmptyLine
  | emptyLineJunk => .failedEmptyLine
  | body => .failedData

/-- The first line of a string, and what stands behind its line feed. -/
def cutLine (s : Bytes) : Option (Bytes × Bytes) :=
  match s.dropWhile (· != newLine) with
  | [] => none
  | _ :: rest => some (s.takeWhile (· != newLine), rest)

/-- The text is a number that an `int64_t` has room for. -/
def isSize (text : Bytes) : Bool :=
  !text.isEmpty && text.all isDigit && digitsValue text < 2 ^ 63

/-- What is wrong with the data. -/
def bodyDefect (size : ℕ) (s : Bytes) : Option Defect := if s.length < size then some .body else none

/-- What is wrong from the empty line on. -/
def emptyLineDefect (size : ℕ) (s : Bytes) : Option Defect :=
  match cutLine s with
  | none => some .emptyLine
  | some (line, rest) =>
    if line = emptyLine then bodyDefect size rest
    else if emptyLine.isPrefixOf line then some .emptyLineJunk
    else some .emptyLine

/-- What is wrong from the data size on. -/
def dataSizeDefect (s : Bytes) : Option Defect :=
  match cutLine s with
  | none => some .dataSizeMissing
  | some (line, rest) =>
    let text := line.drop dataSizeHead.length
    if dataSizeHead.isPrefixOf line && isSize text then emptyLineDefect (digitsValue text) rest
    else some .dataSizeMalformed

/-- What is wrong from the request on. -/
def requestDefect (s : Bytes) : Option Defect :=
  match cutLine s with
  | none => some .requestMissing
  | some (line, rest) =>
    if requestHead.isPrefixOf line then dataSizeDefect rest else some .requestLabel

/-- What is wrong from the service on. -/
def serviceDefect (s : Bytes) : Option Defect :=
  match cutLine s with
  | none => some .serviceLine
  | some (line, rest) =>
    if serviceHead.isPrefixOf line then requestDefect rest else some .serviceLine

/-- The first thing that is wrong with a buffer, if anything is. -/
def firstDefect (buf : Bytes) : Option Defect :=
  match cutLine buf with
  | none => some .headLine
  | some (line, rest) => if line = protocolHead then serviceDefect rest else some .headLine

theorem cutLine_of_notMem {s : Bytes} (h : newLine ∉ s) : cutLine s = none := by
  have hdrop : s.dropWhile (· != newLine) = [] := by
    rw [List.dropWhile_eq_nil_iff]
    exact fun b hb => bne_iff_ne.2 fun he => h (he ▸ hb)
  rw [cutLine, hdrop]

theorem cutLine_append {line rest : Bytes} (h : newLine ∉ line) :
    cutLine (line ++ newLine :: rest) = some (line, rest) := by
  have hline : ∀ b ∈ line, (b != newLine) = true := fun b hb => bne_iff_ne.2 fun he => h (he ▸ hb)
  rw [cutLine, List.dropWhile_append_of_pos hline, List.takeWhile_append_of_pos hline,
    List.dropWhile_cons_of_neg (by decide), List.takeWhile_cons_of_neg (by decide),
    List.append_nil]

/-- What is called a size is read as the number it is. -/
theorem stoll_of_isSize {text : Bytes} (h : isSize text = true) :
    stoll text = .ok (digitsValue text) := by
  simp only [isSize, Bool.and_eq_true, decide_eq_true_eq] at h
  obtain ⟨⟨hne, hdigits⟩, hlt⟩ := h
  rw [stoll_digits (by simpa using hne) (List.all_eq_true.1 hdigits), if_pos hlt]

theorem isPrefixOf_append (label value : Bytes) : label.isPrefixOf (label ++ value) = true :=
  List.isPrefixOf_iff_prefix.2 (List.prefix_append label value)

theorem newLine_notMem_field {label value : Bytes} (hl : IsLabel label) (hv : newLine ∉ value) :
    newLine ∉ label ++ value := fun hm => (List.mem_append.1 hm).elim hl.newLine hv

/-! ### Verdicts -/

/-- The defects that the parser reports by their names. -/
def Defect.Named (d : Defect) : Prop :=
  d ≠ .requestLabel ∧ d ≠ .dataSizeMalformed ∧ d ≠ .emptyLineJunk

instance : DecidablePred Defect.Named := fun _ => inferInstanceAs (Decidable (_ ∧ _ ∧ _))

/-- If `x` is a failure, it names the defect `o` exactly when that is one of those. -/
def Names (x : Except Fault ParserResult) (o : Option Defect) : Prop :=
  ∀ r, x = .ok r → r.et.hasOk = false →
    ((∃ d, o = some d ∧ r.et = d.verdict) ↔ ∃ d, o = some d ∧ d.Named)

theorem names_verdict {d : Defect} {p : SplPackage} {ret : Int} (hd : d.Named) :
    Names (.ok ⟨d.verdict, p, ret⟩) (some d) := by
  rintro r ⟨⟩ -
  exact iff_of_true ⟨d, rfl, rfl⟩ ⟨d, rfl, hd⟩

/-- A defect that is not reported by its name. -/
theorem names_of_ne {x : Except Fault ParserResult} {d : Defect} (hd : ¬ d.Named)
    (h : ∀ r, x = .ok r → r.et.hasOk = false → r.et ≠ d.verdict) : Names x (some d) := by
  intro r hx hno
  refine iff_of_false ?_ ?_
  · rintro ⟨d', hd', het⟩
    cases hd'
    exact h r hx hno het
  · rintro ⟨d', hd', hnamed⟩
    cases hd'
    exact hd hnamed

/-- Nor is it by the name of another. -/
theorem names_other {et : CheckType} {d : Defect} {p : SplPackage} {ret : Int} (hd : ¬ d.Named)
    (het : et ≠ d.verdict) : Names (.ok ⟨et, p, ret⟩) (some d) := by
  refine names_of_ne hd ?_
  rintro r ⟨⟩ -
  exact het

section Stages

variable {data : Bytes} {p : SplPackage} {pos : ℕ} {r : ParserResult}

/-- The data stage knows one failure. -/
theorem et_parseData (h : parseData data p pos = .ok r) (hno : r.et.hasOk = false) :
    r.et = .failedData := by
  unfold parseData at h
  dsimp only at h
  by_cases hlt : pos < data.length
  · rw [if_pos hlt] at h
    split_ifs at h
    · cases h
      rfl
    -- the copy of the data may fault, and is a success otherwise
    all_goals
      cases hrange : iteratorRange data pos (pos + p.dataSize) with
      | error e =>
        rw [hrange] at h
        cases h
      | ok body =>
        rw [hrange] at h
        cases h
        exact absurd hno (by dsimp only; decide)
  · rw [if_neg hlt] at h
    cases h
    rfl

theorem names_parseData (size : ℕ) (s : Bytes) :
    Names (parseData data p pos) (bodyDefect size s) := by
  intro r hx hno
  rw [et_parseData hx hno, bodyDefect]
  split_ifs with hshort
  · exact iff_of_true ⟨.body, rfl, rfl⟩ ⟨.body, rfl, by decide⟩
  · exact iff_of_false (by rintro ⟨d, ⟨⟩, -⟩) (by rintro ⟨d, ⟨⟩, -⟩)

/-- What the stage of the empty line does, by the line there is. -/
theorem parseEmptyLine_line (hpos : pos ≤ data.length) (p : SplPackage) :
    (newLine ∉ data.drop pos
        ∧ parseEmptyLine data p pos = .ok ⟨.failedEmptyLine, p, -1⟩)
      ∨ ∃ line rest, newLine ∉ line ∧ data.drop pos = line ++ newLine :: rest
        ∧ parseEmptyLine data p pos = if emptyLine.isPrefixOf line
          then parseData data p (pos + line.length + 1) else .ok ⟨.failedEmptyLine, p, -1⟩ := by
  cases hnl : find data newLine pos with
  | none => exact Or.inl ⟨notMem_of_find_eq_none hnl, by rw [parseEmptyLine, hnl]⟩
  | some ops =>
    obtain ⟨line, rest, hdrop, hline, rfl⟩ := exists_of_find hnl
    refine Or.inr ⟨line, rest, hline, hdrop, ?_⟩
    have htake : (data.drop pos).take emptyLine.length = emptyLine
        ↔ emptyLine.isPrefixOf line = true := by
      rw [List.isPrefixOf_iff_prefix]
      constructor
      · intro htake
        have hpre : emptyLine <+: data.drop pos := htake ▸ List.take_prefix _ _
        rw [hdrop] at hpre
        exact isPrefix_line (by decide) hpre
      · rintro ⟨junk, rfl⟩
        rw [hdrop, List.append_assoc, List.take_left]
    rw [parseEmptyLine, hnl]
    dsimp only
    rw [substrOrThrow_of_le hpos, ok_bind]
    by_cases hcr : emptyLine.isPrefixOf line = true
    · rw [if_pos (htake.2 hcr), if_pos hcr]
    · rw [if_neg (mt htake.1 hcr), if_neg hcr]
      rfl

/-- From the empty line on there are two failures. -/
theorem et_parseEmptyLine (hpos : pos ≤ data.length) (h : parseEmptyLine data p pos = .ok r)
    (hno : r.et.hasOk = false) : r.et = .failedEmptyLine ∨ r.et = .failedData := by
  rcases parseEmptyLine_line hpos p with ⟨-, hstage⟩ | ⟨line, rest, -, -, hstage⟩
  · rw [hstage] at h
    cases h
    exact Or.inl rfl
  · rw [hstage] at h
    split_ifs at h
    · exact Or.inr (et_parseData h hno)
    · cases h
      exact Or.inl rfl

theorem names_parseEmptyLine (hpos : pos ≤ data.length) (size : ℕ) :
    Names (parseEmptyLine data p pos) (emptyLineDefect size (data.drop pos)) := by
  have hnamed : Defect.emptyLine.Named := by decide
  rcases parseEmptyLine_line hpos p with ⟨hno, hstage⟩ | ⟨line, rest, hline, hdrop, hstage⟩
  · rw [hstage, emptyLineDefect, cutLine_of_notMem hno]
    exact names_verdict hnamed
  · rw [hstage, hdrop, emptyLineDefect, cutLine_append hline]
    dsimp only
    by_cases hempty : line = emptyLine
    · rw [if_pos hempty, hempty, if_pos (by decide)]
      exact names_parseData size rest
    · rw [if_neg hempty]
      split_ifs with hcr
      · -- the data stage is reached all the same
        refine names_of_ne (by decide) fun r hr hno => ?_
        rw [et_parseData hr hno]
        decide
      · exact names_verdict hnamed

/-- A field stage, by the line there is. -/
theorem names_of_fieldLine {label : Bytes} (hl : IsLabel label) (hpos : pos ≤ data.length)
    {k : FieldLine → Except Fault ParserResult} {o : Option Defect}
    (hmissing : newLine ∉ data.drop pos → Names (k .noNewLine) o)
    (hwrong : ∀ line rest, newLine ∉ line → data.drop pos = line ++ newLine :: rest →
      label.isPrefixOf line = false → Names (k .wrongLabel) o)
    (hfield : ∀ value next, newLine ∉ label ++ value → next ≤ data.length →
      data.drop pos = label ++ value ++ newLine :: data.drop next → Names (k (.field value next)) o) :
    Names (fieldLine label data pos >>= k) o := by
  rcases fieldLine_cases hl hpos with
    ⟨value, rest, hv, hdrop⟩ | ⟨hno, hstage⟩ | ⟨line, rest, hline, hdrop, hlabel, hstage⟩
  · obtain ⟨hk, hnext⟩ := fieldLine_bind hl hv hdrop k
    rw [hk]
    refine hfield value _ (newLine_notMem_field hl hv) ?_ (by rw [hnext, hdrop])
    have hlen := congrArg List.length hdrop
    simp only [List.length_drop, List.length_append, List.length_cons, List.length_nil] at hlen ⊢
    omega
  · rw [hstage]
    exact hmissing hno
  · rw [hstage]
    exact hwrong line rest hline hdrop
      (Bool.eq_false_iff.2 fun h => hlabel (List.isPrefixOf_iff_prefix.1 h))

theorem names_parseDataSize (hpos : pos ≤ data.length) :
    Names (parseDataSize data p pos) (dataSizeDefect (data.drop pos)) := by
  unfold parseDataSize
  refine names_of_fieldLine isLabel_dataSize hpos ?_ ?_ ?_
  · intro hno
    rw [dataSizeDefect, cutLine_of_notMem hno]
    exact names_verdict (show Defect.dataSizeMissing.Named by decide)
  · intro line rest hline hdrop hlabel
    rw [hdrop, dataSizeDefect, cutLine_append hline]
    dsimp only
    rw [hlabel, Bool.false_and, if_neg Bool.false_ne_true]
    exact names_other (by decide) (by decide)
  · intro value next hline hnext hdrop
    rw [hdrop, dataSizeDefect, cutLine_append hline]
    dsimp only
    rw [List.drop_left, isPrefixOf_append, Bool.true_and]
    cases hsize : isSize value with
    | true =>
      rw [if_pos rfl, stoll_of_isSize hsize]
      exact names_parseEmptyLine hnext _
    | false =>
      rw [if_neg Bool.false_ne_true]
      cases stoll value with
      | error e => exact names_other (by decide) (by decide)
      | ok d =>
        -- a number can be read all the same, and the parser goes on
        refine names_of_ne (by decide) fun r hr hno => ?_
        rcases et_parseEmptyLine hnext hr hno with het | het
        all_goals
          rw [het]
          decide

theorem names_parseRequest (hpos : pos ≤ data.length) :
    Names (parseRequest data p pos) (requestDefect (data.drop pos)) := by
  unfold parseRequest
  refine names_of_fieldLine isLabel_request hpos ?_ ?_ ?_
  · intro hno
    rw [requestDefect, cutLine_of_notMem hno]
    exact names_verdict (show Defect.requestMissing.Named by decide)
  · intro line rest hline hdrop hlabel
    rw [hdrop, requestDefect, cutLine_append hline]
    dsimp only
    rw [hlabel, if_neg Bool.false_ne_true]
    exact names_other (by decide) (by decide)
  · intro value next hline hnext hdrop
    rw [hdrop, requestDefect, cutLine_append hline]
    dsimp only
    rw [isPrefixOf_append, if_pos rfl]
    exact names_parseDataSize hnext

theorem names_parseService (hpos : pos ≤ data.length) :
    Names (parseService data p pos) (serviceDefect (data.drop pos)) := by
  have hnamed : Defect.serviceLine.Named := by decide
  unfold parseService
  refine names_of_fieldLine isLabel_service hpos ?_ ?_ ?_
  · intro hno
    rw [serviceDefect, cutLine_of_notMem hno]
    exact names_verdict hnamed
  · intro line rest hline hdrop hlabel
    rw [hdrop, serviceDefect, cutLine_append hline]
    dsimp only
    rw [hlabel, if_neg Bool.false_ne_true]
    exact names_verdict hnamed
  · intro value next hline hnext hdrop
    rw [hdrop, serviceDefect, cutLine_append hline]
    dsimp only
    rw [isPrefixOf_append, if_pos rfl]
    exact names_parseRequest hnext

end Stages

/-! ### The parser -/

theorem firstDefect_of_not_firstLine {buf : Bytes} (h : ¬ firstLine <+: buf) :
    firstDefect buf = some .headLine := by
  cases hnl : find buf newLine 0 with
  | none =>
    have hnone := notMem_of_find_eq_none hnl
    rw [List.drop_zero] at hnone
    rw [firstDefect, cutLine_of_notMem hnone]
  | some ops =>
    obtain ⟨line, rest, hbuf, hline, -⟩ := exists_of_find hnl
    rw [List.drop_zero] at hbuf
    rw [hbuf, firstDefect, cutLine_append hline]
    dsimp only
    rw [if_neg]
    rintro rfl
    refine h ⟨rest, ?_⟩
    rw [hbuf, firstLine, List.append_assoc]
    rfl

theorem parser_names (buf : Bytes) : Names (parser buf {}) (firstDefect buf) := by
  have hnamed : Defect.headLine.Named := by decide
  by_cases hfirst : firstLine <+: buf
  · obtain ⟨rest, hrest⟩ := hfirst
    have hlen : firstLine.length ≤ buf.length := by
      rw [← hrest, List.length_append]
      omega
    have hdefect : firstDefect buf = serviceDefect (buf.drop firstLine.length) := by
      have hline : buf = protocolHead ++ newLine :: rest := by
        rw [← hrest, firstLine, List.append_assoc]
        rfl
      rw [← hrest, List.drop_left, hrest, hline, firstDefect,
        cutLine_append newLine_notMem_protocolHead]
      exact if_pos rfl
    rw [parser_of_firstLine hrest.symm, hdefect]
    exact names_parseService hlen
  · rw [parser_of_not_firstLine hfirst, firstDefect_of_not_firstLine hfirst]
    exact names_verdict hnamed

/-- **The verdict names the first defect** exactly when there is one, and it is
neither a wrong label of the request or of the size, nor a size that is not a
number, nor something behind the carriage return of the empty line. -/
theorem names_first_defect_iff {buf : Bytes} {r : ParserResult} (hr : parser buf {} = .ok r)
    (hno : r.et.hasOk = false) :
    (∃ d, firstDefect buf = some d ∧ r.et = d.verdict)
      ↔ ∃ d, firstDefect buf = some d ∧ d ≠ .requestLabel ∧ d ≠ .dataSizeMalformed
          ∧ d ≠ .emptyLineJunk :=
  parser_names buf r hr hno

/-- A package that is cut off within its request line. -/
theorem names_cut_request :
    ∃ d, firstDefect (ping.encode.take 30) = some d ∧ CheckType.failedRequest = d.verdict := by
  have hparse : parser (ping.encode.take 30) {} = .ok ⟨.failedRequest,
      { head := protocolHead, service := ascii "s" }, -1⟩ := by decide +kernel
  exact (names_first_defect_iff hparse (by decide)).2
    ⟨.requestMissing, by decide +kernel, by decide, by decide, by decide⟩

/-- A request line with a letter missing in its label. -/
def mislabelled : Bytes := firstLine ++ ascii "Service:s\nReqest:r\n"

/-- The service is blamed for it. -/
theorem mislabelled_service :
    (∃ p, parser mislabelled {} = .ok ⟨.failedService, p, -1⟩)
    ∧ firstDefect mislabelled = some .requestLabel
    ∧ ¬ ∃ d, firstDefect mislabelled = some d ∧ CheckType.failedService = d.verdict := by
  have hparse : parser mislabelled {} = .ok ⟨.failedService,
      { head := protocolHead, service := ascii "s" }, -1⟩ := by decide +kernel
  have hdefect : firstDefect mislabelled = some .requestLabel := by decide +kernel
  refine ⟨⟨_, hparse⟩, hdefect, ?_⟩
  rintro ⟨d, hd, hverdict⟩
  rw [hdefect] at hd
  cases hd
  exact absurd hverdict (by decide)

end AndrenBoost.Spl
