import AndrenBoost.Jcp.Package
import AndrenBoost.Lib.FlatJson
import AndrenBoost.Lib.PrefixCode

/-!
# Streams of JSON packages

What the encoders write reads back, package by package, whatever bytes the data
holds and whatever follows.  All that is asked of the JSON library is that it
reads back the objects the encoders build, and that their texts hold no zero byte.

## Main definitions

* `IsHeader members`, `JsonLib.Lawful lib` — the objects of strings and unsigned
  numbers, and what is asked of the library about them.
* `Item`, `Item.encode`, `Item.decoded` — a package to send, its encoding, and
  what the decoder makes of it.
* `flatLib` — a library for the objects of strings and unsigned numbers.

## Main results

* `decodeOne_encode` — **a package reads back in front of anything.**
* `stream_round_trip` — **so does a stream of them.**
* `flatLib_lawful` — the flat texts do what is asked of the library.
-/

namespace AndrenBoost.Jcp

open StdString

/-! ### What is asked of the library -/

/-- The string is UTF-8. -/
def ValidUtf8 (s : Bytes) : Prop := ∃ chars : List Char, chars.flatMap String.utf8EncodeChar = s

/-- A string in UTF-8, or an unsigned number. -/
inductive Plain : Json → Prop
  | string {s : Bytes} (h : ValidUtf8 s) : Plain (.string s)
  | numberUnsigned (n : UInt64) : Plain (.numberUnsigned n)

/-- The members of an object of plain values, in the order of their keys. -/
structure IsHeader (members : List (Bytes × Json)) : Prop where
  sorted : members.Pairwise fun a b => a.1 < b.1
  key : ∀ m ∈ members, ValidUtf8 m.1
  value : ∀ m ∈ members, Plain m.2

theorem IsHeader.of_keys {members : List (Bytes × Json)}
    (hs : (members.map Prod.fst).Pairwise (· < ·)) (hk : ∀ k ∈ members.map Prod.fst, ValidUtf8 k)
    (hv : ∀ m ∈ members, Plain m.2) : IsHeader members :=
  ⟨List.pairwise_map.1 hs, fun _ hm => hk _ (List.mem_map_of_mem hm), hv⟩

/-- The library writes objects of plain values, without a zero byte, and reads
back what it wrote. -/
structure JsonLib.Lawful (lib : JsonLib) : Prop where
  roundTrip : ∀ {members : List (Bytes × Json)}, IsHeader members →
    ∃ text, lib.dump (.object members) = some text ∧ 0 ∉ text
      ∧ lib.parse text = some (.object members)

/-! ### Packages to send -/

/-- The arguments of one of the encoders. -/
inductive Item
  | head (name : Bytes) (size : UInt64)
  | frame (name data : Bytes) (index : UInt64)
  | message (content : Bytes)

namespace Item

/-- The call of the encoder, without extensions. -/
def encode (lib : JsonLib) : Item → Option Bytes
  | head name size => createHead lib name size []
  | frame name data index => createFrame lib name data index
  | message content => createMessage lib content []

/-- The name, if there is one, is UTF-8. -/
def ValidName : Item → Prop
  | head name _ => ValidUtf8 name
  | frame name _ _ => ValidUtf8 name
  | message _ => True

/-- The package the decoder should fill in. -/
def decoded : Item → Package
  | head name size =>
    { type := ascii "head"
      head := (SortedMap.empty.set (ascii "name") (.text name)).set (ascii "size") (.size size) }
  | frame name data index =>
    { type := ascii "frame"
      head := ((SortedMap.empty.set (ascii "name") (.text name)).set (ascii "index")
        (.size index)).set (ascii "size") (.size (sizeOf data))
      data := data }
  | message content => { type := ascii "message", data := content }

/-- What the decoder makes of a package it is called on. -/
def fill (p : Package) : Item → Package
  | head name size =>
    { p with
      type := ascii "head"
      head := (p.head.set (ascii "name") (.text name)).set (ascii "size") (.size size) }
  | frame name data index =>
    { type := ascii "frame"
      head := ((p.head.set (ascii "name") (.text name)).set (ascii "index") (.size index)).set
        (ascii "size") (.size (sizeOf data))
      data := data }
  | message content => { p with type := ascii "message", data := content }

/-- The bytes behind the header. -/
def data : Item → Bytes
  | head _ _ => []
  | frame _ data _ => data
  | message content => content

/-- The members of the header. -/
def members : Item → List (Bytes × Json)
  | head name size =>
    [(ascii "name", .string name), (ascii "size", .numberUnsigned size),
      (ascii "type", .string (ascii "head"))]
  | frame name data index =>
    [(ascii "index", .numberUnsigned index), (ascii "name", .string name),
      (ascii "size", .numberUnsigned (sizeOf data)), (ascii "type", .string (ascii "frame"))]
  | message content =>
    [(ascii "size", .numberUnsigned (sizeOf content)), (ascii "type", .string (ascii "message"))]

/-- The encoders build the header in the order of its keys. -/
theorem encode_eq (lib : JsonLib) (item : Item) :
    item.encode lib
      = (lib.dump (.object item.members)).map fun text => text ++ [0] ++ item.data := by
  -- the members are inserted one by one, each at its place among the keys
  have before : ∀ (k k' : Bytes) (v v' : Json) (l : List (Bytes × Json)), k < k' →
      SortedMap.setEntries k v ((k', v') :: l) = (k, v) :: (k', v') :: l :=
    fun k k' v v' l hlt => if_pos hlt
  have behind : ∀ (k k' : Bytes) (v v' : Json) (l : List (Bytes × Json)), k' < k →
      SortedMap.setEntries k v ((k', v') :: l) = (k', v') :: SortedMap.setEntries k v l :=
    fun k k' v v' l hlt => by
      rw [SortedMap.setEntries, if_neg (not_lt_of_gt hlt), if_neg (ne_of_gt hlt)]
  cases item with
  | head name size =>
    unfold encode createHead
    simp only [Json.set, Option.bind_eq_bind, Option.bind_some]
    rw [before _ _ _ _ _ (by decide), behind _ _ _ _ _ (by decide), before _ _ _ _ _ (by decide),
      members, data]
    cases lib.dump _ with
    | none => rfl
    | some text => exact congrArg some (List.append_nil _).symm
  | frame name data index =>
    unfold encode createFrame
    simp only [Json.set, Option.bind_eq_bind, Option.bind_some]
    rw [before _ _ _ _ _ (by decide), before _ _ _ _ _ (by decide), behind _ _ _ _ _ (by decide),
      behind _ _ _ _ _ (by decide), before _ _ _ _ _ (by decide), members]
    cases lib.dump _ with
    | none => rfl
    | some text => rfl
  | message content =>
    unfold encode createMessage
    simp only [Json.set, Option.bind_eq_bind, Option.bind_some]
    rw [before _ _ _ _ _ (by decide), members]
    cases lib.dump _ with
    | none => rfl
    | some text => rfl

/-- The header of a package with a name in UTF-8 is one the library handles. -/
theorem isHeader_members {item : Item} (h : item.ValidName) : IsHeader item.members := by
  have hname : ValidUtf8 (ascii "name") := ⟨"name".toList, by decide⟩
  have hsize : ValidUtf8 (ascii "size") := ⟨"size".toList, by decide⟩
  have htype : ValidUtf8 (ascii "type") := ⟨"type".toList, by decide⟩
  cases item with
  | head name size =>
    refine .of_keys (by show [ascii "name", ascii "size", ascii "type"].Pairwise _; decide) ?_ ?_
    · exact List.forall_mem_cons.2 ⟨hname, List.forall_mem_cons.2 ⟨hsize,
        List.forall_mem_singleton.2 htype⟩⟩
    · exact List.forall_mem_cons.2 ⟨.string h, List.forall_mem_cons.2 ⟨.numberUnsigned size,
        List.forall_mem_singleton.2 (.string ⟨"head".toList, by decide⟩)⟩⟩
  | frame name data index =>
    have hindex : ValidUtf8 (ascii "index") := ⟨"index".toList, by decide⟩
    refine .of_keys (by
      show [ascii "index", ascii "name", ascii "size", ascii "type"].Pairwise _
      decide) ?_ ?_
    · exact List.forall_mem_cons.2 ⟨hindex, List.forall_mem_cons.2 ⟨hname,
        List.forall_mem_cons.2 ⟨hsize, List.forall_mem_singleton.2 htype⟩⟩⟩
    · exact List.forall_mem_cons.2 ⟨.numberUnsigned index, List.forall_mem_cons.2 ⟨.string h,
        List.forall_mem_cons.2 ⟨.numberUnsigned _,
          List.forall_mem_singleton.2 (.string ⟨"frame".toList, by decide⟩)⟩⟩⟩
  | message content =>
    refine .of_keys (by show [ascii "size", ascii "type"].Pairwise _; decide) ?_ ?_
    · exact List.forall_mem_cons.2 ⟨hsize, List.forall_mem_singleton.2 htype⟩
    · exact List.forall_mem_cons.2 ⟨.numberUnsigned _,
        List.forall_mem_singleton.2 (.string ⟨"message".toList, by decide⟩)⟩

end Item

/-! ### One package -/

theorem toNat_sizeOf {s : Bytes} (h : s.length < 2 ^ 64) : (sizeOf s).toNat = s.length :=
  UInt64.toNat_ofNat_of_lt' h

theorem sizeOf_append (s t : Bytes) : sizeOf (s ++ t) = sizeOf s + sizeOf t := by
  rw [sizeOf, List.length_append, UInt64.ofNat_add]
  rfl

section Decode

variable {text data rest : Bytes}

/-- The byte behind the header. -/
theorem charAt_zero (text tail : Bytes) : charAt (text ++ [0] ++ tail) text.length = .ok 0 := by
  rw [charAt, if_pos (by simp only [List.length_append]; omega), List.append_assoc,
    List.getD_eq_getElem?_getD, List.getElem?_append_right (Nat.le_refl _), Nat.sub_self]
  rfl

/-- The data behind the header is copied. -/
theorem takeData_eq (p : Package) (hlen : (text ++ [0] ++ data ++ rest).length < 2 ^ 64) :
    p.takeData (text ++ [0] ++ data ++ rest) text (sizeOf data)
      = .ok (true, { p with data := data }, sizeOf (text ++ [0] ++ data)) := by
  -- the sizes are those of strings that exist, so no sum wraps around
  have hused : sizeOf text + 1 + sizeOf data = sizeOf (text ++ [0] ++ data) := by
    rw [sizeOf_append, sizeOf_append]
    rfl
  have hlen' : (text ++ [0] ++ data).length + rest.length < 2 ^ 64 := by
    rwa [List.length_append] at hlen
  have hle : ¬ sizeOf (text ++ [0] ++ data ++ rest) < sizeOf (text ++ [0] ++ data) := by
    rw [UInt64.lt_iff_toNat_lt, toNat_sizeOf hlen, toNat_sizeOf (by omega), List.length_append]
    omega
  have hbase : sizeOf text + 1 = sizeOf (text ++ [0]) := (sizeOf_append text [0]).symm
  rw [List.length_append] at hlen'
  have hrange : range (text ++ [0] ++ data ++ rest) (text ++ [0]).length
      ((text ++ [0]).length + data.length) = some data := by
    rw [List.append_assoc _ data, range_append (by omega) (by rw [List.length_append]; omega),
      Int.toNat_natCast, List.take_left]
  unfold Package.takeData
  rw [hused, if_neg hle, hbase, List.append_assoc _ data, charAt_zero, ← List.append_assoc _ data,
    toNat_sizeOf (s := data) (by omega)]
  dsimp only
  rw [toNat_sizeOf (s := text ++ [0]) (by omega), hrange, ← sizeOf_append]
  show Except.ok (true, { p with data := data ++ [] }, _) = _
  rw [List.append_nil]

/-- The header ends before the first zero byte. -/
theorem takeWhile_header (h0 : 0 ∉ text) (tail : Bytes) :
    (text ++ [0] ++ tail).takeWhile (· != 0) = text := by
  have htext : ∀ b ∈ text, (b != 0) = true := fun b hb => bne_iff_ne.2 fun h => h0 (h ▸ hb)
  rw [List.append_assoc, List.takeWhile_append_of_pos htext, List.singleton_append,
    List.takeWhile_cons_of_neg (by decide), List.append_nil]

/-- A package reads back in front of anything, whatever the decoder is called on. -/
theorem fromString_encode {lib : JsonLib} {item : Item} (p : Package) (h0 : 0 ∉ text)
    (hparse : lib.parse text = some (.object item.members))
    (hlen : (text ++ [0] ++ item.data ++ rest).length < 2 ^ 64) :
    Package.fromString lib p (text ++ [0] ++ item.data ++ rest)
      = .ok (true, item.fill p, sizeOf (text ++ [0] ++ item.data)) := by
  unfold Package.fromString
  rw [List.append_assoc _ item.data, takeWhile_header h0, ← List.append_assoc _ item.data]
  dsimp only
  rw [hparse]
  cases item with
  | head name size =>
    show (charAt (text ++ [0] ++ [] ++ rest) text.length >>= fun c =>
      if c ≠ 0 then pure (false, _, 0) else pure (true, _, sizeOf text + 1)) = _
    rw [List.append_nil, charAt_zero]
    show Except.ok (true, (Item.head name size).fill p, sizeOf text + sizeOf [0]) = _
    rw [← sizeOf_append, Item.data, List.append_nil]
  | frame name data index => exact takeData_eq _ hlen
  | message content => exact takeData_eq _ hlen

/-- A package reads back from its encoding. -/
theorem fromString_encode_self {lib : JsonLib} {item : Item} (p : Package) (h0 : 0 ∉ text)
    (hparse : lib.parse text = some (.object item.members))
    (hlen : (text ++ [0] ++ item.data).length < 2 ^ 64) :
    Package.fromString lib p (text ++ [0] ++ item.data)
      = .ok (true, item.fill p, sizeOf (text ++ [0] ++ item.data)) := by
  have hwhole := @fromString_encode text [] lib item p h0 hparse (by rwa [List.append_nil])
  rwa [List.append_nil] at hwhole

end Decode

/-! ### A stream of packages -/

/-- Decoding with a fresh package: what was filled in and how much was used, if it
succeeded. -/
def decodeOne (lib : JsonLib) (str : Bytes) : Option (Package × ℕ) :=
  match Package.fromString lib {} str with
  | .ok (true, p, usedBytes) => some (p, usedBytes.toNat)
  | _ => none

/-- A package with a name in UTF-8 is encoded, and reads back in front of anything. -/
theorem decodeOne_encode {lib : JsonLib} (hlib : lib.Lawful) {item : Item} (h : item.ValidName) :
    ∃ str, item.encode lib = some str ∧ ∀ rest, (str ++ rest).length < 2 ^ 64 →
      decodeOne lib (str ++ rest) = some (item.decoded, str.length) := by
  obtain ⟨text, hdump, h0, hparse⟩ := hlib.roundTrip (Item.isHeader_members h)
  refine ⟨text ++ [0] ++ item.data, by rw [item.encode_eq, hdump]; rfl, fun rest hlen => ?_⟩
  have hused : (text ++ [0] ++ item.data).length < 2 ^ 64 := by
    rw [List.length_append] at hlen
    omega
  have hfresh : item.fill {} = item.decoded := by cases item <;> rfl
  rw [decodeOne, fromString_encode {} h0 hparse hlen, hfresh]
  dsimp only
  rw [toNat_sizeOf hused]

theorem mapM_eq_some {α β : Type} {f : α → Option β} {g : α → β} {l : List α}
    (h : ∀ a ∈ l, f a = some (g a)) : l.mapM f = some (l.map g) := by
  induction l with
  | nil => rfl
  | cons a l ih =>
    rw [List.mapM_cons, h a List.mem_cons_self, ih fun b hb => h b (List.mem_cons_of_mem a hb)]
    rfl

/-- The packages of a stream are encoded; and decoding them one after another,
from fresh packages, gives them back and leaves what follows the stream. -/
theorem stream_round_trip {lib : JsonLib} (hlib : lib.Lawful) {items : List Item}
    (hnames : ∀ item ∈ items, item.ValidName) (rest : Bytes) :
    ∃ strs, items.mapM (Item.encode lib) = some strs
      ∧ ((strs.flatten ++ rest).length < 2 ^ 64 →
          decodeMany (decodeOne lib) items.length (strs.flatten ++ rest)
            = some (items.map Item.decoded, rest)) := by
  have hone : ∀ item ∈ items, item.encode lib = some ((item.encode lib).getD [])
      ∧ ∀ rest, ((item.encode lib).getD [] ++ rest).length < 2 ^ 64 →
        decodeOne lib ((item.encode lib).getD [] ++ rest)
          = some (item.decoded, ((item.encode lib).getD []).length) := by
    intro item hitem
    obtain ⟨str, hstr, hdecode⟩ := decodeOne_encode hlib (hnames item hitem)
    rw [hstr]
    exact ⟨rfl, hdecode⟩
  refine ⟨_, mapM_eq_some fun item hitem => (hone item hitem).1, fun hlen => ?_⟩
  rw [← List.flatMap_def] at hlen ⊢
  exact decodeMany_flatMap (fun item hitem => (hone item hitem).2) rest hlen

/-! ### A library for flat objects -/

/-- A plain value as the flat texts know it. -/
def toFlat : Json → Option FlatJson.Value
  | .string s => some (.text s)
  | .numberUnsigned n => some (.number n)
  | _ => none

/-- The JSON value of a flat one. -/
def ofFlat : FlatJson.Value → Json
  | .text s => .string s
  | .number n => .numberUnsigned n

/-- The compact texts of objects of strings and unsigned numbers. -/
def flatLib : JsonLib where
  dump
    | .object members =>
      (members.mapM fun m => (toFlat m.2).map fun v => (m.1, v)).map FlatJson.dump
    | _ => none
  parse text := (FlatJson.parse text).map fun ms => .object (ms.map fun m => (m.1, ofFlat m.2))
  floatToSize _ := 0

example : createHead flatLib (ascii "a\n") 3 []
    = some (ascii "\x7b\"name\":\"a\\n\",\"size\":3,\"type\":\"head\"\x7d" ++ [0]) := by
  decide +kernel

theorem toFlat_ofFlat (v : FlatJson.Value) : toFlat (ofFlat v) = some v := by
  cases v with
  | text s => rfl
  | number n => rfl

theorem exists_ofFlat {members : List (Bytes × Json)} (h : ∀ m ∈ members, Plain m.2) :
    ∃ ms : List (Bytes × FlatJson.Value), members = ms.map fun m => (m.1, ofFlat m.2) := by
  induction members with
  | nil => exact ⟨[], rfl⟩
  | cons m members ih =>
    obtain ⟨ms, rfl⟩ := ih fun m' hm' => h m' (List.mem_cons_of_mem m hm')
    obtain ⟨key, value⟩ := m
    cases h (key, value) List.mem_cons_self with
    | @string s _ => exact ⟨(key, .text s) :: ms, rfl⟩
    | numberUnsigned n => exact ⟨(key, .number n) :: ms, rfl⟩

/-- The flat texts do what is asked of the library. -/
theorem flatLib_lawful : flatLib.Lawful where
  roundTrip := by
    intro members hm
    obtain ⟨ms, rfl⟩ := exists_ofFlat hm.value
    refine ⟨FlatJson.dump ms, ?_, FlatJson.zero_notMem_dump ms, ?_⟩
    · have hflat : (ms.map fun m => (m.1, ofFlat m.2)).mapM
          (fun m : Bytes × Json => (toFlat m.2).map fun v => (m.1, v)) = some ms := by
        rw [List.mapM_map, mapM_eq_some (g := id)]
        · rw [List.map_id]
        · intro m _
          show (toFlat (ofFlat m.2)).map _ = _
          rw [toFlat_ofFlat]
          rfl
      show Option.map FlatJson.dump _ = _
      rw [hflat]
      rfl
    · show (FlatJson.parse _).map _ = _
      rw [FlatJson.parse_dump]
      rfl

/-- Three packages whose data looks like headers, and more zero bytes. -/
theorem stream_round_trip_flat :
    ∃ strs, [Item.head (ascii "a") 3, .frame (ascii "a") [0, 123, 125] 0, .message []].mapM
        (Item.encode flatLib) = some strs
      ∧ decodeMany (decodeOne flatLib) 3 (strs.flatten ++ [0, 255])
          = some ([Item.head (ascii "a") 3, .frame (ascii "a") [0, 123, 125] 0, .message []].map
              Item.decoded, [0, 255]) := by
  have ha : ValidUtf8 (ascii "a") := ⟨['a'], by decide⟩
  obtain ⟨strs, hstrs, hdecode⟩ := @stream_round_trip flatLib flatLib_lawful
    [.head (ascii "a") 3, .frame (ascii "a") [0, 123, 125] 0, .message []]
    (List.forall_mem_cons.2 ⟨ha, List.forall_mem_cons.2 ⟨ha, List.forall_mem_singleton.2 trivial⟩⟩)
    [0, 255]
  refine ⟨strs, hstrs, hdecode ?_⟩
  have hlen : (([Item.head (ascii "a") 3, .frame (ascii "a") [0, 123, 125] 0, .message []].mapM
      (Item.encode flatLib)).all fun strs => (strs.flatten ++ [0, 255]).length < 2 ^ 64)
        = true := by
    decide +kernel
  rw [hstrs] at hlen
  exact of_decide_eq_true hlen

end AndrenBoost.Jcp
