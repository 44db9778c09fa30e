import AndrenBoost.Lib.StdString

/-!
# The simple packet protocol

A package is a protocol line, three labelled fields, an empty line and the
data.  The receiver keeps an input queue of chunks and the bytes left over from
the last chunk; `check` glues the next chunk to the leftover and parses one
package off the front.

## Main definitions

* `SplPackage`, `packageOf`, `SplPackage.package` — a package and its encoding.
* `CheckType` — the verdicts of the parser, with the bits they carry.
* `Fault` — what leaves the language's guarantees.
* `parser` — the parser, one definition for each of its stages.
* `SplProtocol`, `SplProtocol.check` — the receiver and its step.
* `SplProtocol.nextBuffer` — the string the next `check` parses.
* `SplProtocol.Settled` — what a check can do with an answer of the parser.

## Main results

* `SplProtocol.check_eq` — a check parses the next buffer and settles the answer.
* `SplProtocol.settle_pos`, `SplProtocol.settle_zero`, `SplProtocol.settle_head`,
  `SplProtocol.settle_neg` — what the answers make of the state.
* `SplProtocol.settle_settled` — **all that a check can do.**

## References

`include/spl_protocol.h` and `src/spl_protocol.cpp`.
-/

namespace AndrenBoost.Spl

open StdString

/-! ### Packages -/

def protocolHead : Bytes := ascii "REQ SPLP/1.1 \r"
def serviceHead : Bytes := ascii "Service:"
def requestHead : Bytes := ascii "Request:"
def dataSizeHead : Bytes := ascii "data_size:"
def emptyLine : Bytes := ascii "\r"
def nextLine : Bytes := ascii "\n"

/-- The byte `'\n'`. -/
abbrev newLine : UInt8 := 10

/-- The byte `':'`. -/
abbrev colon : UInt8 := 58

/-- An integer as an `int64_t` holds it. -/
def int64 (x : Int) : Int := x.bmod (2 ^ 64)

/-- `spl_package_t`; the size of a fresh one is that of its empty data. -/
structure SplPackage where
  head : Bytes := []
  service : Bytes := []
  request : Bytes := []
  data : Bytes := []
  dataSize : Int := 0
  deriving DecidableEq, Repr

/-- The static `spl_package_t::package`. -/
def packageOf (service request data : Bytes) : Bytes :=
  protocolHead ++ nextLine ++ serviceHead ++ service ++ nextLine ++ requestHead ++ request
    ++ nextLine ++ dataSizeHead ++ toDecimal data.length ++ nextLine ++ emptyLine ++ nextLine
    ++ data

/-- `spl_package_t::package`, which also sets the size of the package. -/
def SplPackage.package (p : SplPackage) : Bytes × SplPackage :=
  (packageOf p.service p.request p.data, { p with dataSize := int64 p.data.length })

/-! ### Verdicts -/

/-- `check_type_enum`, and the combination of two of its bits the parser uses. -/
inductive CheckType
  | ok
  | okHead
  | okProtocol
  | failedHead
  | failedService
  | failedRequest
  | failedDataSize
  | failedData
  | failedUnknow
  | failedNone
  | failedEmptyInputor
  | okButHasMoreData
  | failedEmptyLine
  /-- `OK | OK_BUT_HAS_MORE_DATA` -/
  | okAndMore
  deriving DecidableEq, Repr

/-- The value of an enumerator. -/
def CheckType.value : CheckType → ℕ
  | ok => 1
  | okHead => 2
  | okProtocol => 4
  | failedHead => 8
  | failedService => 16
  | failedRequest => 32
  | failedDataSize => 64
  | failedData => 128
  | failedUnknow => 256
  | failedNone => 512
  | failedEmptyInputor => 1024
  | okButHasMoreData => 2048
  | failedEmptyLine => 4096
  | okAndMore => 1 ||| 2048

/-- `et & OK` -/
def CheckType.hasOk (et : CheckType) : Bool := et.value &&& CheckType.ok.value != 0

/-- `et & OK_BUT_HAS_MORE_DATA` -/
def CheckType.hasMore (et : CheckType) : Bool :=
  et.value &&& CheckType.okButHasMoreData.value != 0

/-- What leaves the language's guarantees. -/
inductive Fault
  /-- An exception nobody catches. -/
  | uncaught (e : Exn)
  /-- An iterator range outside the string, or one whose end is before its begin. -/
  | invalidRange
  /-- A pointer and a length that reach outside the string. -/
  | outOfBounds
  /-- `front()` of an empty deque. -/
  | emptyDeque
  deriving DecidableEq, Repr

/-- The first part of a computation succeeds. -/
theorem ok_bind {α β : Type} (a : α) (k : α → Except Fault β) : (Except.ok a >>= k) = k a := rfl

/-! ### The parser -/

/-- `substr`, whose exception the parser does not catch. -/
def substrOrThrow (data : Bytes) (pos n : ℕ) : Except Fault Bytes :=
  (substr data pos n).mapError Fault.uncaught

/-- `a - b` in a `size_t`. -/
def sizeSub (a b : ℕ) : ℕ := if b ≤ a then a - b else a + 2 ^ 64 - b

/-- The bytes between two iterators `data.begin() + first` and `data.begin() + last`. -/
def iteratorRange (data : Bytes) (first last : Int) : Except Fault Bytes :=
  (range data first last).elim (.error .invalidRange) .ok

/-- What the parser hands back: its verdict, the package as far as it was filled
in, and `ret`. -/
structure ParserResult where
  et : CheckType
  pack : SplPackage
  ret : Int
  deriving DecidableEq, Repr

/-- What the parser finds at the start of a field. -/
inductive FieldLine
  | noNewLine
  | wrongLabel
  | field (value : Bytes) (next : ℕ)
  deriving DecidableEq, Repr

/-- The stage the three labelled fields share: `value` is what stands between the
label and the line feed, `next` the position after it. -/
def fieldLine (label data : Bytes) (crrtOps : ℕ) : Except Fault FieldLine :=
  match find data newLine crrtOps with
  | none => .ok .noNewLine
  | some ops =>
    match find data colon (crrtOps + label.length - 1) with
    | none => .ok .wrongLabel
    | some divOps => do
      if (← substrOrThrow data crrtOps (divOps + 1 - crrtOps)) = label then
        -- `ops - divOps - 1`, where nothing says that the colon stands before the line feed
        let value ← substrOrThrow data (divOps + 1) (sizeSub ops (divOps + 1))
        return .field value (ops + 1)
      else return .wrongLabel

/-- `/// find data`: `ret` first tells whether the data is complete, then how many
bytes the package took. -/
def parseData (data : Bytes) (pack : SplPackage) (crrtOps : ℕ) : Except Fault ParserResult :=
  -- computed in a `size_t` and stored in an `int64_t`
  let ret := int64 (data.length - crrtOps + pack.dataSize - 1)
  if crrtOps < data.length then
    if ret < 0 then .ok ⟨.failedData, pack, ret⟩
    else do
      let et : CheckType := if ret = 0 then .ok else .okAndMore
      let body ← iteratorRange data crrtOps (crrtOps + pack.dataSize)
      return ⟨et, { pack with data := body ++ pack.data }, int64 (crrtOps + pack.dataSize)⟩
  else .ok ⟨.failedData, pack, ret⟩

/-- `/// find empty line` -/
def parseEmptyLine (data : Bytes) (pack : SplPackage) (crrtOps : ℕ) : Except Fault ParserResult :=
  match find data newLine crrtOps with
  | none => .ok ⟨.failedEmptyLine, pack, -1⟩
  | some ops => do
    if (← substrOrThrow data crrtOps emptyLine.length) = emptyLine then
      parseData data pack (ops + 1)
    else return ⟨.failedEmptyLine, pack, -1⟩

/-- `/// find data size`: `stoll` throws inside a `try` block. -/
def parseDataSize (data : Bytes) (pack : SplPackage) (crrtOps : ℕ) :
    Except Fault ParserResult := do
  match ← fieldLine dataSizeHead data crrtOps with
  | .noNewLine => return ⟨.failedDataSize, pack, -1⟩
  | .wrongLabel => return ⟨.failedService, pack, -1⟩
  | .field value next =>
    match stoll value with
    | .error _ => return ⟨.failedService, pack, -1⟩
    | .ok dataSize => parseEmptyLine data { pack with dataSize := dataSize } next

/-- `/// find request head` -/
def parseRequest (data : Bytes) (pack : SplPackage) (crrtOps : ℕ) :
    Except Fault ParserResult := do
  match ← fieldLine requestHead data crrtOps with
  | .noNewLine => return ⟨.failedRequest, pack, -1⟩
  | .wrongLabel => return ⟨.failedService, pack, -1⟩
  | .field value next => parseDataSize data { pack with request := value } next

/-- `/// find service head` -/
def parseService (data : Bytes) (pack : SplPackage) (crrtOps : ℕ) :
    Except Fault ParserResult := do
  match ← fieldLine serviceHead data crrtOps with
  | .noNewLine => return ⟨.failedService, pack, -1⟩
  | .wrongLabel => return ⟨.failedService, pack, -1⟩
  | .field value next => parseRequest data { pack with service := value } next

/-- `spl_protocol_t::parser`, from `/// find protocol head` on. -/
def parser (data : Bytes) (pack : SplPackage) : Except Fault ParserResult :=
  match find data newLine 0 with
  | none => .ok ⟨.failedHead, pack, -1⟩
  | some ops => do
    if (← substrOrThrow data 0 (0 + ops)) = protocolHead then
      parseService data { pack with head := protocolHead } (ops + 1)
    else return ⟨.failedHead, pack, -1⟩

/-! ### The receiver -/

/-- `inputor_t` -/
structure Inputor where
  data : List Bytes := []
  deriving DecidableEq, Repr

/-- `inputor_t::push_data` -/
def Inputor.pushData (i : Inputor) (data : Bytes) : Inputor := { i with data := i.data ++ [data] }

/-- `inputor_t::fetch_one`: nothing if the queue is empty. -/
def Inputor.fetchOne (i : Inputor) : Bytes × Inputor :=
  match i.data with
  | [] => ([], i)
  | front :: rest => (front, { i with data := rest })

/-- `inputor_t::bufCount` -/
def Inputor.bufCount (i : Inputor) : ℕ := i.data.length

/-- `spl_protocol_t` with the input queue it shares. -/
structure SplProtocol where
  historyData : Bytes := []
  waitReadQue : List SplPackage := []
  inputor : Option Inputor := none
  deriving DecidableEq, Repr

namespace SplProtocol

/-- `spl_protocol_t::setInputor` -/
def setInputor (s : SplProtocol) (input : Option Inputor) : SplProtocol :=
  { s with inputor := input }

/-- A receiver with an empty input queue. -/
def fresh : SplProtocol := setInputor {} (some {})

/-- `push_data` on the shared input queue. -/
def pushData (s : SplProtocol) (data : Bytes) : SplProtocol :=
  { s with inputor := s.inputor.map fun i => i.pushData data }

/-- `std::string(&buf[ret], buf.size() - ret)` -/
def remainder (buf : Bytes) (ret : Int) : Except Fault Bytes :=
  if 0 ≤ ret ∧ ret ≤ buf.length then .ok (buf.drop ret.toNat) else .error .outOfBounds

/-- What `check` does with the parser's answer. -/
def settle (s : SplProtocol) (buf : Bytes) (r : ParserResult) :
    Except Fault (CheckType × SplProtocol) :=
  -- a positive `ret` counts as success, whatever the verdict is
  if 0 < r.ret then do
    let rest ← remainder buf r.ret
    return (r.et, { s with historyData := rest, waitReadQue := s.waitReadQue ++ [r.pack] })
  else if r.ret ≠ 0 ∧ (r.et.hasOk ∨ r.ret < 0) then
    -- the verdict on the first line returns before the buffer is stored
    if r.et = .failedHead then .ok (r.et, s)
    else .ok (r.et, { s with historyData := buf })
  else .ok (r.et, { s with waitReadQue := s.waitReadQue ++ [r.pack] })

/-- `spl_protocol_t::check`.  The chunk comes before the history, and appending
the history, although it is an rvalue, copies it: the history stays until one of
the branches below replaces it. -/
def check (s : SplProtocol) : Except Fault (CheckType × SplProtocol) :=
  match s.inputor with
  | none => .ok (.failedEmptyInputor, s)
  | some input =>
    let (chunk, input) := input.fetchOne
    let s := { s with inputor := some input }
    let buf := chunk ++ s.historyData
    if buf = [] then .ok (.failedNone, s)
    else do
      let r ← parser buf {}
      settle s buf r

/-- `spl_protocol_t::readyPackageCount` -/
def readyPackageCount (s : SplProtocol) : Int := (s.waitReadQue.length : Int).bmod (2 ^ 32)

/-- `spl_protocol_t::fetchOnePackage` -/
def fetchOnePackage (s : SplProtocol) : Except Fault (SplPackage × SplProtocol) :=
  match s.waitReadQue with
  | [] => .error .emptyDeque
  | a :: rest => .ok (a, { s with waitReadQue := rest })

/-- `spl_protocol_t::historyDataSize` -/
def historyDataSize (s : SplProtocol) : Int := int64 s.historyData.length

/-! ### One check -/

/-- The string the next check parses. -/
def nextBuffer (s : SplProtocol) : Bytes :=
  match s.inputor with
  | none => []
  | some input => input.fetchOne.1 ++ s.historyData

/-- The state after the next chunk was fetched. -/
def fetched (s : SplProtocol) : SplProtocol :=
  { s with inputor := s.inputor.map fun i => i.fetchOne.2 }

@[simp] theorem fetched_historyData (s : SplProtocol) :
    s.fetched.historyData = s.historyData := rfl

theorem check_eq {s : SplProtocol} (h : s.nextBuffer ≠ []) :
    s.check = parser s.nextBuffer {} >>= fun r => s.fetched.settle s.nextBuffer r := by
  cases hi : s.inputor with
  | none =>
    rw [nextBuffer, hi] at h
    exact absurd rfl h
  | some input =>
    rw [nextBuffer, hi] at h
    unfold check nextBuffer fetched
    rw [hi]
    dsimp only
    rw [if_neg h]
    rfl

/-- Nothing to parse. -/
theorem check_of_nil {s : SplProtocol} (h : s.nextBuffer = []) :
    ∃ et, s.check = .ok (et, s.fetched) ∧ et.hasOk = false := by
  cases hi : s.inputor with
  | none =>
    refine ⟨.failedEmptyInputor, ?_, rfl⟩
    rw [check, fetched, hi]
    cases s
    cases hi
    rfl
  | some input =>
    refine ⟨.failedNone, ?_, rfl⟩
    rw [nextBuffer, hi] at h
    unfold check fetched
    rw [hi]
    dsimp only
    rw [if_pos h]
    rfl

section Settle

variable (s : SplProtocol) {buf : Bytes} {r : ParserResult}

theorem settle_pos (h : 0 < r.ret) (hle : r.ret ≤ buf.length) :
    s.settle buf r = .ok (r.et, { s with
      historyData := buf.drop r.ret.toNat, waitReadQue := s.waitReadQue ++ [r.pack] }) := by
  rw [settle, if_pos h, remainder, if_pos ⟨h.le, hle⟩]
  rfl

/-- The slice of the remainder begins beyond the end of the buffer. -/
theorem settle_fault (h : buf.length < r.ret) : s.settle buf r = .error .outOfBounds := by
  rw [settle, if_pos (by omega), remainder, if_neg (by omega)]
  rfl

/-- A package is delivered and the history stays. -/
theorem settle_zero (h : r.ret = 0) :
    s.settle buf r = .ok (r.et, { s with waitReadQue := s.waitReadQue ++ [r.pack] }) := by
  rw [settle, if_neg (by omega), if_neg (by omega)]

/-- The chunk is dropped. -/
theorem settle_head (h : r.ret < 0) (het : r.et = .failedHead) :
    s.settle buf r = .ok (r.et, s) := by
  rw [settle, if_neg (by omega), if_pos ⟨by omega, Or.inr h⟩, if_pos het]

/-- The buffer is kept. -/
theorem settle_neg (h : r.ret < 0) (het : r.et ≠ .failedHead) :
    s.settle buf r = .ok (r.et, { s with historyData := buf }) := by
  rw [settle, if_neg (by omega), if_pos ⟨by omega, Or.inr h⟩, if_neg het]

end Settle

/-- What `check` can do with an answer. -/
inductive Settled (s : SplProtocol) (buf : Bytes) (r : ParserResult) :
    Except Fault (CheckType × SplProtocol) → Prop
  /-- The package is ready, and the bytes behind it become the history. -/
  | sliced (hpos : 0 < r.ret) (hle : r.ret ≤ buf.length) :
      Settled s buf r (.ok (r.et, { s with
        historyData := buf.drop r.ret.toNat, waitReadQue := s.waitReadQue ++ [r.pack] }))
  /-- There is nothing behind the package where the slice begins. -/
  | outside (hlt : buf.length < r.ret) : Settled s buf r (.error .outOfBounds)
  /-- The package is ready, and the history stays. -/
  | pushed (hzero : r.ret = 0) :
      Settled s buf r (.ok (r.et, { s with waitReadQue := s.waitReadQue ++ [r.pack] }))
  /-- The buffer is forgotten. -/
  | forgotten (hneg : r.ret < 0) (het : r.et = .failedHead) : Settled s buf r (.ok (r.et, s))
  /-- The buffer becomes the history. -/
  | stored (hneg : r.ret < 0) (het : r.et ≠ .failedHead) :
      Settled s buf r (.ok (r.et, { s with historyData := buf }))

/-- **It does one of these five things.** -/
theorem settle_settled (s : SplProtocol) (buf : Bytes) (r : ParserResult) :
    Settled s buf r (s.settle buf r) := by
  rcases lt_trichotomy r.ret 0 with hneg | hzero | hpos
  · by_cases het : r.et = .failedHead
    · rw [s.settle_head hneg het]
      exact .forgotten hneg het
    · rw [s.settle_neg hneg het]
      exact .stored hneg het
  · rw [s.settle_zero hzero]
    exact .pushed hzero
  · by_cases hle : r.ret ≤ buf.length
    · rw [s.settle_pos hpos hle]
      exact .sliced hpos hle
    · rw [s.settle_fault (Int.not_le.1 hle)]
      exact .outside (Int.not_le.1 hle)

end SplProtocol

end AndrenBoost.Spl
