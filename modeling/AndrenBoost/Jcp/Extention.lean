import AndrenBoost.Jcp.Leftovers

/-!
# Extension fields

Heads and messages may have further fields in their header, which the encoders take
as a map from strings to strings.  They should be written besides the fields of the
package, and be found in the head map behind the decoder.  Neither encoder looks at
the map, and the decoder stores no field but its own.

## Main definitions

* `IsExtention` — a map of further fields.
* `InHeader`, `InPackage`, `Survives` — the fields are written, are read back, and both.

## Main results

* `inHeader_iff`, `inPackage_iff` — each part, for a header as the encoders write it.
* `survives_iff` — **only the empty extension survives.**
-/

namespace AndrenBoost.Jcp

open StdString

/-- The names of the fields of the three packages. -/
def reservedNames : List Bytes := [ascii "type", ascii "name", ascii "size", ascii "index"]

/-- The entries of a map of further fields, whose keys are not those of the packages. -/
structure IsExtention (extention : List (Bytes × Bytes)) : Prop where
  nodup : (extention.map Prod.fst).Nodup
  key : ∀ e ∈ extention, ValidUtf8 e.1
  free : ∀ e ∈ extention, e.1 ∉ reservedNames
  value : ∀ e ∈ extention, ValidUtf8 e.2

/-- The header has the fields of the package and all further fields. -/
def InHeader (lib : JsonLib) (item : Item) (extention : List (Bytes × Bytes)) (str : Bytes) :
    Prop :=
  ∃ members, lib.parse (headStr str) = some (.object members)
    ∧ (∀ m ∈ item.members, m ∈ members)
    ∧ ∀ e ∈ extention, (e.1, Json.string e.2) ∈ members

/-- A fresh package reads the string, and its head map has all further fields. -/
def InPackage (lib : JsonLib) (extention : List (Bytes × Bytes)) (str : Bytes) : Prop :=
  ∃ q usedBytes, Package.fromString lib {} str = .ok (true, q, usedBytes)
    ∧ ∀ e ∈ extention, q.head.find? e.1 = some (.text e.2)

/-- The further fields are written, and read back. -/
def Survives (lib : JsonLib) (item : Item) (extention : List (Bytes × Bytes)) (str : Bytes) :
    Prop :=
  InHeader lib item extention str ∧ InPackage lib extention str

/-! ### What the encoders write -/

section Written

variable {lib : JsonLib} {item : Item} {text : Bytes} {extention : List (Bytes × Bytes)}

theorem mem_reservedNames {m : Bytes × Json} (h : m ∈ item.members) : m.1 ∈ reservedNames := by
  have hkeys : ∀ key ∈ item.members.map Prod.fst, key ∈ reservedNames := by
    cases item with
    | head name size =>
      show ∀ key ∈ [ascii "name", ascii "size", ascii "type"], key ∈ reservedNames
      decide
    | frame name data index =>
      show ∀ key ∈ [ascii "index", ascii "name", ascii "size", ascii "type"],
        key ∈ reservedNames
      decide
    | message content =>
      show ∀ key ∈ [ascii "size", ascii "type"], key ∈ reservedNames
      decide
  exact hkeys m.1 (List.mem_map_of_mem h)

/-- A fresh package has the fields of the package only. -/
theorem find?_fill {key : Bytes} (h : key ∉ reservedNames) :
    (item.fill {}).head.find? key = none := by
  simp only [reservedNames, List.mem_cons, List.not_mem_nil, or_false, not_or] at h
  obtain ⟨-, hname, hsize, hindex⟩ := h
  cases item with
  | head name size =>
    unfold Item.fill
    rw [SortedMap.find?_set, if_neg hsize, SortedMap.find?_set, if_neg hname]
    rfl
  | frame name data index =>
    unfold Item.fill
    rw [SortedMap.find?_set, if_neg hsize, SortedMap.find?_set, if_neg hindex,
      SortedMap.find?_set, if_neg hname]
    rfl
  | message content => rfl

theorem inHeader_iff (hext : IsExtention extention) (h0 : 0 ∉ text)
    (hparse : lib.parse text = some (.object item.members)) :
    InHeader lib item extention (text ++ [0] ++ item.data) ↔ extention = [] := by
  have htext : headStr (text ++ [0] ++ item.data) = text := takeWhile_header h0 item.data
  constructor
  · rintro ⟨members, hmembers, -, hall⟩
    rw [htext, hparse] at hmembers
    cases hmembers
    rw [List.eq_nil_iff_forall_not_mem]
    intro e he
    exact hext.free e he (mem_reservedNames (hall e he))
  · rintro rfl
    exact ⟨item.members, by rw [htext, hparse], fun m hm => hm, by simp⟩

theorem inPackage_iff (hext : IsExtention extention) (h0 : 0 ∉ text)
    (hparse : lib.parse text = some (.object item.members))
    (hlen : (text ++ [0] ++ item.data).length < 2 ^ 64) :
    InPackage lib extention (text ++ [0] ++ item.data) ↔ extention = [] := by
  have hread := fromString_encode_self {} h0 hparse hlen
  constructor
  · rintro ⟨q, usedBytes, hq, hall⟩
    rw [hread] at hq
    cases hq
    rw [List.eq_nil_iff_forall_not_mem]
    intro e he
    have hfound := hall e he
    rw [find?_fill (hext.free e he)] at hfound
    cases hfound
  · rintro rfl
    exact ⟨_, _, hread, by simp⟩

/-- What is written without the map. -/
theorem survives_encode_iff (hlib : lib.Lawful) (hname : item.ValidName)
    (hext : IsExtention extention) :
    ∃ str, item.encode lib = some str
      ∧ (str.length < 2 ^ 64 → (Survives lib item extention str ↔ extention = [])) := by
  obtain ⟨text, hdump, h0, hparse⟩ := hlib.roundTrip (Item.isHeader_members hname)
  refine ⟨text ++ [0] ++ item.data, by rw [item.encode_eq, hdump]; rfl, fun hlen => ?_⟩
  rw [Survives, inHeader_iff hext h0 hparse, inPackage_iff hext h0 hparse hlen, and_self]

end Written

/-- **Only the empty extension survives**, with a head and with a message. -/
theorem survives_iff {lib : JsonLib} (hlib : lib.Lawful) {extention : List (Bytes × Bytes)}
    (hext : IsExtention extention) :
    (∀ name size, ValidUtf8 name → ∃ str, createHead lib name size extention = some str
      ∧ (str.length < 2 ^ 64 →
        (Survives lib (.head name size) extention str ↔ extention = [])))
    ∧ ∀ message, ∃ str, createMessage lib message extention = some str
      ∧ (str.length < 2 ^ 64 →
        (Survives lib (.message message) extention str ↔ extention = [])) :=
  -- the map is not looked at
  ⟨fun name size hname => @survives_encode_iff lib (.head name size) extention hlib hname hext,
    fun message => @survives_encode_iff lib (.message message) extention hlib trivial hext⟩

/-- One further field. -/
theorem isExtention_one : IsExtention [(ascii "k", ascii "v")] where
  nodup := List.nodup_singleton _
  key := List.forall_mem_singleton.2 ⟨['k'], by decide⟩
  free := List.forall_mem_singleton.2 (by decide)
  value := List.forall_mem_singleton.2 ⟨['v'], by decide⟩

theorem survives_iff_one :
    (∃ str, createHead flatLib (ascii "a") 3 [(ascii "k", ascii "v")] = some str
      ∧ ¬ Survives flatLib (.head (ascii "a") 3) [(ascii "k", ascii "v")] str)
    ∧ ∃ str, createMessage flatLib [1] [] = some str
      ∧ Survives flatLib (.message [1]) [] str := by
  have hhead : ((createHead flatLib (ascii "a") 3 [(ascii "k", ascii "v")]).map List.length)
      = some 36 := by
    decide +kernel
  have hmessage : ((createMessage flatLib [1] []).map List.length) = some 29 := by
    decide +kernel
  obtain ⟨str, hstr, hiff⟩ :=
    (survives_iff flatLib_lawful isExtention_one).1 (ascii "a") 3 ⟨['a'], by decide⟩
  obtain ⟨str', hstr', hiff'⟩ :=
    (@survives_iff flatLib flatLib_lawful [] ⟨List.nodup_nil, by simp, by simp, by simp⟩).2 [1]
  rw [hstr] at hhead
  rw [hstr'] at hmessage
  have hlen : str.length = 36 := Option.some.inj hhead
  have hlen' : str'.length = 29 := Option.some.inj hmessage
  exact ⟨⟨str, hstr, fun h => absurd ((hiff (by omega)).mp h) (by simp)⟩,
    str', hstr', (hiff' (by omega)).mpr rfl⟩

/-- The keys of an object. -/
def Json.keys : Json → List Bytes
  | .object members => members.map Prod.fst
  | _ => []

/-- The header of a head with a further field has its own three fields, and so has the
head map behind it. -/
theorem extention_dropped :
    ∃ str, createHead flatLib (ascii "a") 3 [(ascii "k", ascii "v")] = some str
      ∧ ¬ InHeader flatLib (.head (ascii "a") 3) [(ascii "k", ascii "v")] str
      ∧ ¬ InPackage flatLib [(ascii "k", ascii "v")] str := by
  have hrun : (createHead flatLib (ascii "a") 3 [(ascii "k", ascii "v")]).map (fun str =>
      ((flatLib.parse (headStr str)).map Json.keys,
        (Package.fromString flatLib {} str).map fun r => r.2.1.head.find? (ascii "k")))
      = some (some [ascii "name", ascii "size", ascii "type"], .ok none) := by
    decide +kernel
  obtain ⟨str, hstr, hseen⟩ := Option.map_eq_some_iff.mp hrun
  obtain ⟨hheader, hpackage⟩ := Prod.mk.inj hseen
  refine ⟨str, hstr, ?_, ?_⟩
  · rintro ⟨members, hparse, -, hall⟩
    rw [hparse] at hheader
    have hkeys : members.map Prod.fst = [ascii "name", ascii "size", ascii "type"] :=
      Option.some.inj hheader
    have hmem := List.mem_map_of_mem (f := Prod.fst) (hall _ List.mem_cons_self)
    rw [hkeys] at hmem
    exact absurd hmem (by decide)
  · rintro ⟨q, usedBytes, hq, hall⟩
    rw [hq] at hpackage
    have hnone : q.head.find? (ascii "k") = none := Except.ok.inj hpackage
    have hsome := hall _ List.mem_cons_self
    rw [hnone] at hsome
    cases hsome

end AndrenBoost.Jcp
