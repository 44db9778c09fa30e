import AndrenBoost.Jcp.Stream

/-!
# What decoding does to a package

The decoder stores a header's type and fields one by one as it reads them, and looks
at the length of the string last.  What it reads does not depend on the package it is
called on, so decoding is reading a header, storing it in the package, and finishing
with the data.

## Main definitions

* `headStr` — the text before the first zero byte.
* `Header`, `readHeader` — what is read of a header.
* `Package.store`, `Package.finish`, `Package.decode` — storing it, what follows, and
  both.

## Main results

* `charAt_headStr` — the test for the zero byte cannot fail.
* `takeData_spec` — **the length test**, with the sum as a number.
* `fromString_eq` — **decoding is reading, storing and finishing.**
* `decode_cases` — **its endings**, which do not depend on the package.
-/

namespace AndrenBoost.Jcp

open StdString

/-! ### Reading a header -/

/-- The text before the first zero byte. -/
def headStr (str : Bytes) : Bytes := str.takeWhile (· != 0)

/-- How a field of the head map is read. -/
inductive FieldKind
  | text
  | size

/-- The value of a field, if it is there and of its kind. -/
def FieldKind.read (lib : JsonLib) (j : Json) (key : Bytes) : FieldKind → Option HeadValue
  | text => ((j.index key).bind Json.getString).map .text
  | size => ((j.index key).bind (Json.getSize lib)).map .size

/-- The fields up to the first that cannot be read. -/
def readFields (lib : JsonLib) (j : Json) : List (Bytes × FieldKind) → List (Bytes × HeadValue)
  | [] => []
  | (key, kind) :: rest =>
    match kind.read lib j key with
    | none => []
    | some value => (key, value) :: readFields lib j rest

/-- The fields that are stored in the head map, by the type. -/
def headFields (type : Bytes) : List (Bytes × FieldKind) :=
  if type = ascii "head" then [(ascii "name", .text), (ascii "size", .size)]
  else if type = ascii "frame" then
    [(ascii "name", .text), (ascii "index", .size), (ascii "size", .size)]
  else []

/-- The three types. -/
def IsKnown (type : Bytes) : Prop :=
  type = ascii "head" ∨ type = ascii "frame" ∨ type = ascii "message"

instance : DecidablePred IsKnown := fun _ => inferInstanceAs (Decidable (_ ∨ _))

/-- What is read of a header: its type, the fields before one that cannot be read,
and the size if nothing stops the decoder from using it. -/
structure Header where
  type : Bytes
  fields : List (Bytes × HeadValue)
  size : Option UInt64

/-- What is read of a JSON value with a type. -/
def Header.ofJson (lib : JsonLib) (j : Json) (type : Bytes) : Header where
  type := type
  fields := readFields lib j (headFields type)
  size :=
    if IsKnown type ∧ (readFields lib j (headFields type)).length = (headFields type).length then
      (j.index (ascii "size")).bind (Json.getSize lib)
    else none

/-- The JSON value before the first zero byte, with its type. -/
def typedJson (lib : JsonLib) (str : Bytes) : Option (Json × Bytes) :=
  (lib.parse (headStr str)).bind fun j =>
    ((j.index (ascii "type")).bind Json.getString).map fun type => (j, type)

/-- What is read of the header of a string, if it is JSON with a type. -/
def readHeader (lib : JsonLib) (str : Bytes) : Option Header :=
  (typedJson lib str).map fun (j, type) => .ofJson lib j type

/-- The fields are read in their order. -/
theorem map_fst_readFields (lib : JsonLib) (j : Json) : ∀ fields : List (Bytes × FieldKind),
    (readFields lib j fields).map Prod.fst <+: fields.map Prod.fst := by
  intro fields
  induction fields with
  | nil => exact List.prefix_refl _
  | cons f fields ih =>
    obtain ⟨key, kind⟩ := f
    rw [readFields]
    cases kind.read lib j key with
    | none => exact List.nil_prefix
    | some value => exact List.cons_prefix_cons.mpr ⟨rfl, ih⟩

/-- The size is used only for one of the three types, and if all fields are there. -/
theorem Header.of_size {lib : JsonLib} {str : Bytes} {h : Header} {size : UInt64}
    (hread : readHeader lib str = some h) (hsize : h.size = some size) :
    IsKnown h.type ∧ h.fields.map Prod.fst = (headFields h.type).map Prod.fst
      ∧ ∃ j, typedJson lib str = some (j, h.type)
        ∧ (j.index (ascii "size")).bind (Json.getSize lib) = some size := by
  obtain ⟨⟨j, type⟩, hjson, rfl⟩ := Option.map_eq_some_iff.mp hread
  obtain ⟨⟨hknown, hlength⟩, hvalue⟩ : (IsKnown type
      ∧ (readFields lib j (headFields type)).length = (headFields type).length)
      ∧ (j.index (ascii "size")).bind (Json.getSize lib) = some size :=
    Option.ite_none_right_eq_some.mp hsize
  refine ⟨hknown, (map_fst_readFields lib j _).eq_of_length ?_, j, hjson, hvalue⟩
  rw [List.length_map, List.length_map]
  exact hlength

/-- What was read of a header, in a package. -/
def Package.store (p : Package) (h : Header) : Package :=
  { p with type := h.type, head := p.head.setAll h.fields }

/-! ### The data -/

/-- The header is the whole string, or a zero byte stands behind it. -/
theorem headStr_cases (str : Bytes) :
    headStr str = str ∨ ∃ rest, str = headStr str ++ [0] ++ rest := by
  have hsplit : headStr str ++ str.dropWhile (· != 0) = str := List.takeWhile_append_dropWhile
  have hhead := List.head?_dropWhile_not (· != (0 : UInt8)) str
  cases hrest : str.dropWhile (· != 0) with
  | nil => exact Or.inl (by rwa [hrest, List.append_nil] at hsplit)
  | cons b rest =>
    rw [hrest] at hhead hsplit
    obtain rfl : b = 0 := by simpa using hhead
    exact Or.inr ⟨rest, by rw [List.append_assoc]; exact hsplit.symm⟩

/-- The byte behind the header is its zero byte or the terminator of the string. -/
theorem charAt_headStr (str : Bytes) : charAt str (headStr str).length = .ok 0 := by
  rcases headStr_cases str with hall | ⟨rest, hrest⟩
  · rw [hall]
    simp [charAt]
  · have hzero := charAt_zero (headStr str) rest
    rwa [← hrest] at hzero

/-- The zero byte, if there is one, stands behind the header. -/
theorem length_headStr_lt_iff {str : Bytes} : (headStr str).length < str.length ↔ 0 ∈ str := by
  rcases headStr_cases str with hall | ⟨rest, hrest⟩
  · have hzero : 0 ∉ str := by
      intro hmem
      rw [← hall] at hmem
      exact absurd (List.mem_takeWhile_imp hmem) (by decide)
    exact iff_of_false (by rw [hall]; exact lt_irrefl _) hzero
  · have hlength := congrArg List.length hrest
    simp only [List.length_append, List.length_cons, List.length_nil] at hlength
    refine iff_of_true (by omega) ?_
    rw [hrest]
    simp

theorem length_headStr_le (str : Bytes) : (headStr str).length ≤ str.length :=
  (List.takeWhile_prefix _).length_le

/-- The zero byte is there if anything stands behind the header. -/
theorem eq_append_of_length_lt {str : Bytes} (h : (headStr str).length < str.length) :
    str = headStr str ++ [0] ++ str.drop ((headStr str).length + 1) := by
  rcases headStr_cases str with hall | ⟨rest, hrest⟩
  · rw [hall] at h
    exact absurd h (lt_irrefl _)
  · have hlength : (headStr str ++ [0]).length = (headStr str).length + 1 := List.length_append
    have hdrop : str.drop (headStr str ++ [0]).length = rest :=
      calc str.drop (headStr str ++ [0]).length
          = (headStr str ++ [0] ++ rest).drop (headStr str ++ [0]).length := by rw [← hrest]
        _ = rest := List.drop_left
    rw [← hlength, hdrop]
    exact hrest

/-- What the length test compares. -/
theorem lt_sum_iff {str : Bytes} (size : UInt64) (hlen : str.length < 2 ^ 63) :
    sizeOf str < sizeOf (headStr str) + 1 + size
      ↔ str.length < (headStr str).length + 1 + size.toNat
        ∧ (headStr str).length + 1 + size.toNat < 2 ^ 64 := by
  have hhead := length_headStr_le str
  have hsize := size.toNat_lt
  rw [UInt64.lt_iff_toNat_lt, UInt64.toNat_add, UInt64.toNat_add, toNat_sizeOf (by omega),
    toNat_sizeOf (by omega)]
  have hone : (1 : UInt64).toNat = 1 := rfl
  rw [hone]
  omega

/-- Behind the length test only the range of the data can go wrong. -/
theorem takeData_of_not_lt (p : Package) {str : Bytes} {size : UInt64}
    (h : ¬ sizeOf str < sizeOf (headStr str) + 1 + size) :
    p.takeData str (headStr str) size
      = (range str (sizeOf (headStr str) + 1).toNat
          ((sizeOf (headStr str) + 1).toNat + size.toNat)).elim (.error .invalidRange)
            fun body => .ok (true, { p with data := body }, sizeOf (headStr str) + 1 + size) := by
  rw [Package.takeData, if_neg h, charAt_headStr]
  dsimp only
  cases range str (sizeOf (headStr str) + 1).toNat
      ((sizeOf (headStr str) + 1).toNat + size.toNat) with
  | none => rfl
  | some body =>
    show Except.ok (true, { p with data := body ++ [] }, _) = _
    rw [List.append_nil]
    rfl

/-- **The length test.**  A sum that is too large for its type passes it. -/
theorem takeData_spec (p : Package) {str : Bytes} (size : UInt64) (hlen : str.length < 2 ^ 63) :
    p.takeData str (headStr str) size
      = if (headStr str).length + 1 + size.toNat ≤ str.length then
          .ok (true, { p with data := (str.drop ((headStr str).length + 1)).take size.toNat },
            UInt64.ofNat ((headStr str).length + 1 + size.toNat))
        else if (headStr str).length + 1 + size.toNat < 2 ^ 64 then .ok (false, p, 0)
        else .error .invalidRange := by
  have hhead := length_headStr_le str
  have htest := lt_sum_iff size hlen
  by_cases hshort : sizeOf str < sizeOf (headStr str) + 1 + size
  · obtain ⟨hlt, hfit⟩ := htest.mp hshort
    rw [Package.takeData, if_pos hshort, if_neg (by omega), if_pos hfit]
  · have hbase : (sizeOf (headStr str) + 1).toNat = (headStr str).length + 1 := by
      rw [UInt64.toNat_add, toNat_sizeOf (by omega)]
      show ((headStr str).length + 1) % 2 ^ 64 = _
      omega
    rw [takeData_of_not_lt p hshort, hbase]
    by_cases hle : (headStr str).length + 1 + size.toNat ≤ str.length
    · have hused : sizeOf (headStr str) + 1 + size
          = UInt64.ofNat ((headStr str).length + 1 + size.toNat) := by
        rw [UInt64.ofNat_add, UInt64.ofNat_add, UInt64.ofNat_toNat]
        rfl
      have hbytes : range str ((headStr str).length + 1 : ℕ)
          (((headStr str).length + 1 : ℕ) + size.toNat)
            = some ((str.drop ((headStr str).length + 1)).take size.toNat) := by
        rw [range, if_pos (by omega), slice, Int.toNat_natCast]
        congr 2
        omega
      rw [if_pos hle, hbytes, hused, Option.elim_some]
    · have hwrap : ¬ (headStr str).length + 1 + size.toNat < 2 ^ 64 := fun hfit =>
        hshort (htest.mpr ⟨by omega, hfit⟩)
      rw [if_neg hle, if_neg hwrap, range, if_neg (by omega)]
      rfl

/-! ### Decoding -/

/-- How the decoder ends once the size is known: a head has no data. -/
def Package.finish (p : Package) (type str : Bytes) (size : UInt64) :
    Except Fault (Bool × Package × UInt64) :=
  if type = ascii "head" then .ok (true, p, sizeOf (headStr str) + 1)
  else p.takeData str (headStr str) size

/-- What the decoder does with a header it has read. -/
def Package.decode (p : Package) (h : Header) (str : Bytes) :
    Except Fault (Bool × Package × UInt64) :=
  match h.size with
  | none => .ok (false, p.store h, 0)
  | some size => (p.store h).finish h.type str size

section Branches

variable (lib : JsonLib) (p : Package) (j : Json) (str : Bytes)

theorem fromHead_eq :
    Package.fromHead lib { p with type := ascii "head" } j str (headStr str)
      = p.decode (.ofJson lib j (ascii "head")) str := by
  have hfields : headFields (ascii "head") = [(ascii "name", .text), (ascii "size", .size)] := rfl
  unfold Package.fromHead Package.decode
  rw [Header.ofJson, hfields, charAt_headStr]
  cases hname : (j.index (ascii "name")).bind Json.getString with
  | none => simp [readFields, FieldKind.read, hname, Package.store]
  | some name =>
    cases hsize : (j.index (ascii "size")).bind (Json.getSize lib) with
    | none => simp [readFields, FieldKind.read, hname, hsize, Package.store, Package.setHead]
    | some size =>
      simp only [readFields, FieldKind.read, hname, hsize, Option.map_some, IsKnown,
        true_or, true_and]
      rfl

theorem fromFrame_eq :
    Package.fromFrame lib { p with type := ascii "frame" } j str (headStr str)
      = p.decode (.ofJson lib j (ascii "frame")) str := by
  have hfields : headFields (ascii "frame")
      = [(ascii "name", .text), (ascii "index", .size), (ascii "size", .size)] := rfl
  unfold Package.fromFrame Package.decode
  rw [Header.ofJson, hfields]
  cases hname : (j.index (ascii "name")).bind Json.getString with
  | none => simp [readFields, FieldKind.read, hname, Package.store]
  | some name =>
    cases hindex : (j.index (ascii "index")).bind (Json.getSize lib) with
    | none => simp [readFields, FieldKind.read, hname, hindex, Package.store, Package.setHead]
    | some index =>
      cases hsize : (j.index (ascii "size")).bind (Json.getSize lib) with
      | none =>
        simp [readFields, FieldKind.read, hname, hindex, hsize, Package.store, Package.setHead]
      | some size =>
        simp only [readFields, FieldKind.read, hname, hindex, hsize, Option.map_some, IsKnown]
        rfl

theorem fromMessage_eq :
    Package.fromMessage lib { p with type := ascii "message" } j str (headStr str)
      = p.decode (.ofJson lib j (ascii "message")) str := by
  have hfields : headFields (ascii "message") = [] := rfl
  unfold Package.fromMessage Package.decode
  rw [Header.ofJson, hfields]
  cases hsize : (j.index (ascii "size")).bind (Json.getSize lib) with
  | none => simp [readFields, Package.store]
  | some size =>
    simp only [readFields, IsKnown]
    rfl

end Branches

/-- **Decoding is reading, storing and finishing.** -/
theorem fromString_eq (lib : JsonLib) (p : Package) (str : Bytes) :
    p.fromString lib str
      = match readHeader lib str with
        | none => .ok (false, p, 0)
        | some h => p.decode h str := by
  unfold Package.fromString readHeader typedJson
  rw [← headStr]
  dsimp only
  cases lib.parse (headStr str) with
  | none => rfl
  | some j =>
    dsimp only [Option.bind_some]
    cases htype : (j.index (ascii "type")).bind Json.getString with
    | none => rfl
    | some type =>
      dsimp only [Option.map_some]
      split_ifs with hhead hframe hmessage
      · rw [hhead, fromHead_eq]
      · rw [hframe, fromFrame_eq]
      · rw [hmessage, fromMessage_eq]
      · have hunknown : ¬ IsKnown type := fun h => h.elim hhead fun h => h.elim hframe hmessage
        have hfields : headFields type = [] := by rw [headFields, if_neg hhead, if_neg hframe]
        rw [Header.ofJson, hfields, Package.decode, if_neg fun h => hunknown h.1]
        rfl

/-- What a call returned, from what is seen of it. -/
theorem exists_of_map_eq_ok {α β : Type} {f : α → β} {x : Except Fault α} {b : β}
    (h : x.map f = .ok b) : ∃ a, x = .ok a ∧ f a = b := by
  cases x with
  | error e => cases h
  | ok a => exact ⟨a, rfl, Except.ok.inj h⟩

/-- What two calls returned, one after the other. -/
theorem exists_of_bind_eq_ok {α β : Type} {f : α → Except Fault β} {x : Except Fault α} {b : β}
    (h : x.bind f = .ok b) : ∃ a, x = .ok a ∧ f a = .ok b := by
  cases x with
  | error e => cases h
  | ok a => exact ⟨a, rfl, h⟩

/-! ### The endings -/

/-- The end of decoding a frame or a message depends on the string alone. -/
theorem takeData_cases (str : Bytes) (size : UInt64) :
    (∀ p : Package, p.takeData str (headStr str) size = .ok (false, p, 0))
      ∨ (∃ body n, ∀ p : Package,
          p.takeData str (headStr str) size = .ok (true, { p with data := body }, n))
      ∨ ∀ p : Package, p.takeData str (headStr str) size = .error .invalidRange := by
  by_cases hshort : sizeOf str < sizeOf (headStr str) + 1 + size
  · exact Or.inl fun p => by rw [Package.takeData, if_pos hshort]
  · cases hbody : range str (sizeOf (headStr str) + 1).toNat
        ((sizeOf (headStr str) + 1).toNat + size.toNat) with
    | none => exact Or.inr (Or.inr fun p => by rw [takeData_of_not_lt p hshort, hbody]; rfl)
    | some body =>
      exact Or.inr (Or.inl ⟨body, _, fun p => by rw [takeData_of_not_lt p hshort, hbody]; rfl⟩)

/-- **The endings of a header that is read.**  Which it is does not depend on the
package; and the data of the package is replaced, or for a head left as it is. -/
theorem decode_cases (h : Header) (str : Bytes) :
    (∀ p : Package, p.decode h str = .ok (false, p.store h, 0))
      ∨ (∃ (body : Option Bytes) (n : UInt64), h.size ≠ none
          ∧ (body = none ↔ h.type = ascii "head")
          ∧ ∀ p : Package,
            p.decode h str = .ok (true, { p.store h with data := body.getD p.data }, n))
      ∨ ∀ p : Package, p.decode h str = .error .invalidRange := by
  unfold Package.decode Package.finish
  cases h.size with
  | none => exact Or.inl fun p => rfl
  | some size =>
    have hsome : some size ≠ none := Option.some_ne_none size
    dsimp only
    split_ifs with hhead
    · exact Or.inr (Or.inl ⟨none, _, hsome, iff_of_true rfl hhead, fun p => rfl⟩)
    · rcases takeData_cases str size with hrefuse | ⟨body, n, haccept⟩ | hfault
      · exact Or.inl fun p => hrefuse _
      · exact Or.inr (Or.inl
        ⟨some body, n, hsome, iff_of_false (by simp) hhead, fun p => haccept _⟩)
      · exact Or.inr (Or.inr fun p => hfault _)

end AndrenBoost.Jcp
