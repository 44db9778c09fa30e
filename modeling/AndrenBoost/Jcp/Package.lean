import AndrenBoost.Lib.SortedMap
import AndrenBoost.Lib.StdString
import Mathlib.Data.List.Lex

/-!
# JSON packages over TCP

A package is a JSON object, a zero byte, and the data whose size the object
declares.  The JSON library is a parameter: a text for each value it can write,
and a value for each text it can read.

## Main definitions

* `Json`, `JsonLib` — JSON values, and the library's two operations on them.
* `createHead`, `createFrame`, `createMessage` — the three encoders.
* `Package`, `Package.fromString` — the decoder and what it fills in.

## References

`include/jcp.h` and `src/jcp.cpp`.
-/

namespace AndrenBoost.Jcp

open StdString

/-! ### JSON values -/

/-- `nlohmann::json`.  Objects are ordered by their keys. -/
inductive Json
  | null
  | boolean (b : Bool)
  | numberInteger (n : Int)
  | numberUnsigned (n : UInt64)
  | numberFloat (bits : UInt64)
  | string (s : Bytes)
  | array (elements : List Json)
  | object (members : List (Bytes × Json))

/-- What the library is used for: `dump` and `parse`, which may throw, and the
conversion of a `double` to a `size_t`. -/
structure JsonLib where
  dump : Json → Option Bytes
  parse : Bytes → Option Json
  floatToSize : UInt64 → UInt64

namespace Json

/-- `j[key] = value`, where a null value becomes an object and others throw. -/
def set (j : Json) (key : Bytes) (value : Json) : Option Json :=
  match j with
  | null => some (object [(key, value)])
  | object members => some (object (SortedMap.setEntries key value members))
  | _ => none

/-- `j[key]`, where a missing member is null. -/
def index (j : Json) (key : Bytes) : Option Json :=
  match j with
  | null => some null
  | object members => some ((members.lookup key).getD null)
  | _ => none

/-- `j.get<std::string>()` -/
def getString : Json → Option Bytes
  | string s => some s
  | _ => none

/-- `j.get<size_t>()`.  A boolean throws, as `size_t` is the library's own unsigned
type: the one of a 64-bit ABI. -/
def getSize (lib : JsonLib) : Json → Option UInt64
  | numberUnsigned n => some n
  | numberInteger n => some (UInt64.ofNat (n % 2 ^ 64).toNat)
  | numberFloat bits => some (lib.floatToSize bits)
  | _ => none

end Json

/-! ### Encoders -/

/-- `data.size()` -/
def sizeOf (data : Bytes) : UInt64 := UInt64.ofNat data.length

/-- `Package::create_head`; the extension is not used. -/
def createHead (lib : JsonLib) (name : Bytes) (size : UInt64) (_extention : List (Bytes × Bytes)) :
    Option Bytes := do
  let json := Json.null
  let json ← json.set (ascii "type") (.string (ascii "head"))
  let json ← json.set (ascii "name") (.string name)
  let json ← json.set (ascii "size") (.numberUnsigned size)
  let str ← lib.dump json
  return str ++ [0]

/-- `Package::create_frame` -/
def createFrame (lib : JsonLib) (name data : Bytes) (index : UInt64) : Option Bytes := do
  let json := Json.null
  let json ← json.set (ascii "type") (.string (ascii "frame"))
  let json ← json.set (ascii "name") (.string name)
  let json ← json.set (ascii "index") (.numberUnsigned index)
  let json ← json.set (ascii "size") (.numberUnsigned (sizeOf data))
  let str ← lib.dump json
  return str ++ [0] ++ data

/-- `Package::create_message`; the extension is not used. -/
def createMessage (lib : JsonLib) (message : Bytes) (_extention : List (Bytes × Bytes)) :
    Option Bytes := do
  let json := Json.null
  let json ← json.set (ascii "type") (.string (ascii "message"))
  let json ← json.set (ascii "size") (.numberUnsigned (sizeOf message))
  let str ← lib.dump json
  return str ++ [0] ++ message

/-! ### Decoder -/

/-- `std::variant<std::string, size_t>` -/
inductive HeadValue
  | text (s : Bytes)
  | size (n : UInt64)
  deriving DecidableEq

/-- `Package` -/
structure Package where
  type : Bytes := []
  head : SortedMap Bytes HeadValue := SortedMap.empty
  data : Bytes := []

/-- What leaves the language's guarantees. -/
inductive Fault
  /-- An iterator range outside the string. -/
  | invalidRange
  /-- An index beyond the terminating zero. -/
  | outOfBounds
  deriving DecidableEq, Repr

/-- `str[i]`, which at the size is the terminating zero. -/
def charAt (str : Bytes) (i : ℕ) : Except Fault UInt8 :=
  if i ≤ str.length then .ok (str.getD i 0) else .error .outOfBounds

namespace Package

/-- `head[key] = value` -/
def setHead (p : Package) (key : Bytes) (value : HeadValue) : Package :=
  { p with head := p.head.set key value }

/-- The end of decoding a frame and of decoding a message, where the size is known:
the data is copied if it is there. -/
def takeData (p : Package) (str headStr : Bytes) (size : UInt64) :
    Except Fault (Bool × Package × UInt64) :=
  -- the sum is taken in a `size_t`
  if sizeOf str < sizeOf headStr + 1 + size then .ok (false, p, 0)
  else do
    let p := { p with data := [] }
    let basePos := sizeOf headStr + 1
    if (← charAt str headStr.length) ≠ 0 then return (false, p, 0)
    else
      let body ← (range str basePos.toNat (basePos.toNat + size.toNat)).elim
        (.error .invalidRange) .ok
      return (true, { p with data := body ++ p.data }, basePos + size)

/-- `if (type == "head")` -/
def fromHead (lib : JsonLib) (p : Package) (j : Json) (str headStr : Bytes) :
    Except Fault (Bool × Package × UInt64) :=
  match (j.index (ascii "name")).bind Json.getString with
  | none => .ok (false, p, 0)
  | some name =>
    let p := p.setHead (ascii "name") (.text name)
    match (j.index (ascii "size")).bind (Json.getSize lib) with
    | none => .ok (false, p, 0)
    | some size => do
      let p := p.setHead (ascii "size") (.size size)
      if (← charAt str headStr.length) ≠ 0 then return (false, p, 0)
      else return (true, p, sizeOf headStr + 1)

/-- `else if (type == "frame")` -/
def fromFrame (lib : JsonLib) (p : Package) (j : Json) (str headStr : Bytes) :
    Except Fault (Bool × Package × UInt64) :=
  match (j.index (ascii "name")).bind Json.getString with
  | none => .ok (false, p, 0)
  | some name =>
    let p := p.setHead (ascii "name") (.text name)
    match (j.index (ascii "index")).bind (Json.getSize lib) with
    | none => .ok (false, p, 0)
    | some index =>
      let p := p.setHead (ascii "index") (.size index)
      match (j.index (ascii "size")).bind (Json.getSize lib) with
      | none => .ok (false, p, 0)
      | some frameSize =>
        (p.setHead (ascii "size") (.size frameSize)).takeData str headStr frameSize

/-- `else if (type == "message")` -/
def fromMessage (lib : JsonLib) (p : Package) (j : Json) (str headStr : Bytes) :
    Except Fault (Bool × Package × UInt64) :=
  match (j.index (ascii "size")).bind (Json.getSize lib) with
  | none => .ok (false, p, 0)
  | some msgSize => p.takeData str headStr msgSize

/-- `Package::fromString`: whether it succeeded, the package as far as it was
filled in, and `usedBytes`.  The header ends before the first zero byte.  What
throws inside the `try` block makes it fail. -/
def fromString (lib : JsonLib) (p : Package) (str : Bytes) :
    Except Fault (Bool × Package × UInt64) :=
  let headStr := str.takeWhile (· != 0)
  match lib.parse headStr with
  | none => .ok (false, p, 0)
  | some j =>
    match (j.index (ascii "type")).bind Json.getString with
    | none => .ok (false, p, 0)
    | some type =>
      -- the type is stored before it is known to be one of the three
      let p := { p with type := type }
      if type = ascii "head" then fromHead lib p j str headStr
      else if type = ascii "frame" then fromFrame lib p j str headStr
      else if type = ascii "message" then fromMessage lib p j str headStr
      else .ok (false, p, 0)

end Package

end AndrenBoost.Jcp
