import AndrenBoost.Jcp.Leftovers

/-!
# What the decoder accepts

The documentation asks for a JSON object of one of three types, a zero byte, and the
data whose size the object declares, a size that is not negative and for a head and
for a frame not zero.  The decoder reads the size as a `size_t`, takes a sum with it
in that type, and does not look at its sign.

## Main definitions

* `InsertReached`, `LengthChecked` — the tests in front of the copy, and what they
  should guarantee.
* `declaredSize` — the size as the integer that it is.
* `JsonLib.Int64` — what is asked of the library about integers.
* `Documented` — the format as it is documented.

## Main results

* `lengthChecked_iff` — **the length test is right exactly when its sum fits.**
* `documented_iff` — **what is accepted is as documented exactly when the size is an
  integer that is allowed for the type, and a head has its zero byte.**
-/

namespace AndrenBoost.Jcp

open StdString

/-! ### The length test -/

/-- Both tests in front of `data.insert` are passed. -/
def InsertReached (str headStr : Bytes) (size : UInt64) : Prop :=
  ¬ sizeOf str < sizeOf headStr + 1 + size ∧ charAt str headStr.length = .ok 0

instance (str headStr : Bytes) (size : UInt64) : Decidable (InsertReached str headStr size) :=
  inferInstanceAs (Decidable (_ ∧ _))

/-- The data is copied only if it is there, and otherwise the length test refuses. -/
structure LengthChecked (lib : JsonLib) (p : Package) (str : Bytes) (size : UInt64) : Prop where
  inside : InsertReached str (headStr str) size →
    (headStr str).length + 1 + size.toNat ≤ str.length
  refused : ¬ InsertReached str (headStr str) size →
    sizeOf str < sizeOf (headStr str) + 1 + size
      ∧ ∃ q, p.fromString lib str = .ok (false, q, 0)

/-- **The length test is right exactly when its sum fits** into its type. -/
theorem lengthChecked_iff {lib : JsonLib} {str : Bytes} {h : Header} {size : UInt64}
    (hlen : str.length < 2 ^ 63) (hread : readHeader lib str = some h)
    (htype : h.type = ascii "frame" ∨ h.type = ascii "message") (hsize : h.size = some size)
    (p : Package) :
    LengthChecked lib p str size ↔ (headStr str).length + 1 + size.toNat < 2 ^ 64 := by
  have htest := lt_sum_iff size hlen
  have hfrom : p.fromString lib str = (p.store h).takeData str (headStr str) size := by
    have hhead : h.type ≠ ascii "head" := by
      rcases htype with htype | htype <;> rw [htype] <;> decide
    rw [fromString_eq, hread]
    show p.decode h str = _
    rw [Package.decode, hsize]
    exact if_neg hhead
  constructor
  · intro hchecked
    by_contra hlarge
    have hreached : InsertReached str (headStr str) size :=
      ⟨fun hlt => hlarge (htest.mp hlt).2, charAt_headStr str⟩
    have hinside := hchecked.inside hreached
    omega
  · intro hfit
    refine ⟨fun hreached => ?_, fun hnot => ?_⟩
    · by_contra hout
      exact hreached.1 (htest.mpr ⟨by omega, hfit⟩)
    · have hlt : sizeOf str < sizeOf (headStr str) + 1 + size := by
        by_contra hge
        exact hnot ⟨hge, charAt_headStr str⟩
      exact ⟨hlt, p.store h, by rw [hfrom, Package.takeData, if_pos hlt]⟩

/-- A message of one byte. -/
theorem lengthChecked_message :
    (headStr (messageText ++ [0, 1])).length + 1 + (1 : UInt64).toNat < 2 ^ 64
      ∧ LengthChecked flatLib {} (messageText ++ [0, 1]) 1 := by
  have hseen : (readHeader flatLib (messageText ++ [0, 1])).map (fun h => (h.type, h.size))
      = some (ascii "message", some 1) := by
    decide +kernel
  have hfit : (headStr (messageText ++ [0, 1])).length + 1 + (1 : UInt64).toNat < 2 ^ 64 := by
    decide +kernel
  obtain ⟨h, hread, hh⟩ := Option.map_eq_some_iff.mp hseen
  obtain ⟨htype, hsize⟩ := Prod.mk.inj hh
  exact ⟨hfit,
    (lengthChecked_iff (by decide +kernel) hread (Or.inr htype) hsize {}).mpr hfit⟩

/-- The text of a message with the largest size. -/
def hugeText : Bytes := ascii "\x7b\"size\":18446744073709551615,\"type\":\"message\"\x7d"

/-- The largest size passes the length test, and the range of the copy is invalid. -/
theorem hugeText_copied :
    (readHeader flatLib (hugeText ++ [0, 1])).map (fun h => (h.type, h.size))
        = some (ascii "message", some 18446744073709551615)
      ∧ InsertReached (hugeText ++ [0, 1]) (headStr (hugeText ++ [0, 1])) 18446744073709551615
      ∧ ¬ LengthChecked flatLib {} (hugeText ++ [0, 1]) 18446744073709551615
      ∧ (Package.fromString flatLib {} (hugeText ++ [0, 1])).map Prod.fst
        = .error .invalidRange := by
  have hreached : InsertReached (hugeText ++ [0, 1]) (headStr (hugeText ++ [0, 1]))
      18446744073709551615 := by
    decide +kernel
  refine ⟨by decide +kernel, hreached, fun hchecked => ?_, by decide +kernel⟩
  have hinside := hchecked.inside hreached
  revert hinside
  decide +kernel

/-! ### The format -/

/-- The integer, if it is one. -/
def Json.getInteger : Json → Option ℤ
  | numberUnsigned n => some n.toNat
  | numberInteger n => some n
  | _ => none

/-- The size that a header declares, as the integer that it is. -/
def declaredSize (lib : JsonLib) (str : Bytes) : Option ℤ :=
  (typedJson lib str).bind fun (j, _) => (j.index (ascii "size")).bind Json.getInteger

/-- The library's integers are those of an `int64_t`. -/
structure JsonLib.Int64 (lib : JsonLib) : Prop where
  bounds : ∀ {text key : Bytes} {j : Json} {n : ℤ}, lib.parse text = some j →
    j.index key = some (.numberInteger n) → -2 ^ 63 ≤ n ∧ n < 2 ^ 63

/-- A string is as documented, with the members of its header, their type and size,
the data, and how much of the string that is. -/
structure Documented (lib : JsonLib) (str : Bytes) (members : List (Bytes × Json)) (type : Bytes)
    (size : ℤ) (data : Bytes) (usedBytes : UInt64) : Prop where
  isObject : lib.parse (headStr str) = some (.object members)
  type_eq : members.lookup (ascii "type") = some (.string type)
  known : IsKnown type
  zero_behind : headStr str ++ [0] <+: str
  used_le : usedBytes.toNat ≤ str.length
  size_eq : (members.lookup (ascii "size")).bind Json.getInteger = some size
  nonneg : 0 ≤ size
  pos : type ≠ ascii "message" → 0 < size
  data_eq : type ≠ ascii "head" →
    (data.length : ℤ) = size ∧ headStr str ++ [0] ++ data <+: str

/-- A member that is an integer is read as that integer modulo `2 ^ 64`. -/
theorem toNat_of_getInteger {lib : JsonLib} {v : Json} {n : ℤ} {size : UInt64}
    (hn : v.getInteger = some n) (hsize : v.getSize lib = some size) :
    (size.toNat : ℤ) = n % 2 ^ 64 := by
  cases v with
  | numberUnsigned m =>
    obtain rfl := Option.some.inj hn
    obtain rfl := Option.some.inj hsize
    have hlt := m.toNat_lt
    omega
  | numberInteger m =>
    obtain rfl := Option.some.inj hn
    obtain rfl := Option.some.inj hsize
    rw [UInt64.toNat_ofNat']
    omega
  | _ => cases hn

/-- What a call that succeeds has found. -/
theorem accepted_spec {lib : JsonLib} {p q : Package} {str : Bytes} {usedBytes : UInt64}
    (hlen : str.length < 2 ^ 63) (h : p.fromString lib str = .ok (true, q, usedBytes)) :
    ∃ header size, readHeader lib str = some header ∧ header.size = some size
      ∧ (header.type = ascii "head" → usedBytes.toNat = (headStr str).length + 1)
      ∧ (header.type ≠ ascii "head" →
          (headStr str).length + 1 + size.toNat ≤ str.length
            ∧ usedBytes.toNat = (headStr str).length + 1 + size.toNat
            ∧ q.data = (str.drop ((headStr str).length + 1)).take size.toNat) := by
  have hle := length_headStr_le str
  rw [fromString_eq] at h
  cases hread : readHeader lib str with
  | none =>
    rw [hread] at h
    cases h
  | some header =>
    rw [hread] at h
    dsimp only [Package.decode] at h
    cases hsize : header.size with
    | none =>
      rw [hsize] at h
      cases h
    | some size =>
      rw [hsize] at h
      dsimp only [Package.finish] at h
      refine ⟨header, size, rfl, hsize, fun hhead => ?_, fun hhead => ?_⟩
      · rw [if_pos hhead] at h
        cases h
        have hone := toNat_sizeOf (s := headStr str ++ [0]) (by simp; omega)
        rw [sizeOf_append] at hone
        exact hone.trans List.length_append
      · rw [if_neg hhead, takeData_spec _ _ hlen] at h
        split_ifs at h with hin hfit
        · cases h
          exact ⟨hin, UInt64.toNat_ofNat_of_lt' (by show _ < 2 ^ 64; omega), rfl⟩
        · cases h

/-- The members of a header with a type. -/
theorem members_of_typedJson {lib : JsonLib} {str type : Bytes} {j : Json}
    (h : typedJson lib str = some (j, type)) :
    ∃ members, j = .object members ∧ lib.parse (headStr str) = some (.object members)
      ∧ members.lookup (ascii "type") = some (.string type) := by
  obtain ⟨j', hparse, hj⟩ := Option.bind_eq_some_iff.mp h
  obtain ⟨type', htype, heq⟩ := Option.map_eq_some_iff.mp hj
  obtain ⟨rfl, rfl⟩ := Prod.mk.inj heq
  cases j' with
  | object members =>
    refine ⟨members, rfl, hparse, ?_⟩
    show members.lookup (ascii "type") = _
    have hindex : ((members.lookup (ascii "type")).getD Json.null).getString = some type' := htype
    cases hmember : members.lookup (ascii "type") with
    | none =>
      rw [hmember] at hindex
      cases hindex
    | some value =>
      rw [hmember] at hindex
      cases value with
      | string s => rw [Option.some.inj hindex]
      | _ => cases hindex
  | _ => cases htype

/-- The size of the members, as the integer that it is and as the decoder reads it. -/
theorem declared_of_members {lib : JsonLib} (hlib : lib.Int64) {text : Bytes}
    {members : List (Bytes × Json)} {n : ℤ} {size : UInt64}
    (hparse : lib.parse text = some (.object members))
    (hn : (members.lookup (ascii "size")).bind Json.getInteger = some n)
    (hsize : ((Json.object members).index (ascii "size")).bind (Json.getSize lib) = some size) :
    (size.toNat : ℤ) = n % 2 ^ 64 ∧ -2 ^ 63 ≤ n ∧ n < 2 ^ 64 := by
  obtain ⟨v, hv, hn⟩ := Option.bind_eq_some_iff.mp hn
  have hindex : (Json.object members).index (ascii "size") = some v := by
    show some ((members.lookup (ascii "size")).getD .null) = _
    rw [hv]
    rfl
  rw [hindex, Option.bind_some] at hsize
  refine ⟨toNat_of_getInteger hn hsize, ?_⟩
  cases v with
  | numberUnsigned m =>
    obtain rfl := Option.some.inj hn
    have hlt := m.toNat_lt
    omega
  | numberInteger m =>
    obtain rfl := Option.some.inj hn
    have hbounds := hlib.bounds hparse hindex
    omega
  | _ => cases hn

theorem declaredSize_of_members {lib : JsonLib} {str type : Bytes}
    {members : List (Bytes × Json)} (h : typedJson lib str = some (.object members, type)) :
    declaredSize lib str = (members.lookup (ascii "size")).bind Json.getInteger := by
  rw [declaredSize, h]
  show ((members.lookup (ascii "size")).getD .null).getInteger = _
  cases members.lookup (ascii "size") with
  | none => rfl
  | some v => rfl

/-- What is as documented has the type and the size that are read. -/
theorem Documented.read {lib : JsonLib} {str type data : Bytes} {members : List (Bytes × Json)}
    {size : ℤ} {usedBytes : UInt64}
    (h : Documented lib str members type size data usedBytes) :
    headerType lib str = some type ∧ declaredSize lib str = some size := by
  have hjson : typedJson lib str = some (.object members, type) := by
    rw [typedJson, h.isObject, Option.bind_some]
    show (((members.lookup (ascii "type")).getD .null).getString).map _ = _
    rw [h.type_eq]
    rfl
  exact ⟨by rw [headerType, hjson]; rfl, (declaredSize_of_members hjson).trans h.size_eq⟩

section Accepted

variable {lib : JsonLib} {str type data : Bytes} {members : List (Bytes × Json)} {size : ℤ}
  {usedBytes : UInt64} (hparse : lib.parse (headStr str) = some (.object members))
  (htype : members.lookup (ascii "type") = some (.string type))
  (hsize : (members.lookup (ascii "size")).bind Json.getInteger = some size)

include hparse htype hsize

/-- A head that ends with its zero byte. -/
theorem documented_of_head (hkind : type = ascii "head") (hpos : 0 < size) (hzero : 0 ∈ str)
    (hused : usedBytes.toNat = (headStr str).length + 1) :
    Documented lib str members type size data usedBytes where
  isObject := hparse
  type_eq := htype
  known := Or.inl hkind
  zero_behind := ⟨_, (eq_append_of_length_lt (length_headStr_lt_iff.mpr hzero)).symm⟩
  used_le := hused ▸ length_headStr_lt_iff.mpr hzero
  size_eq := hsize
  nonneg := hpos.le
  pos := fun _ => hpos
  data_eq := fun hnot => absurd hkind hnot

/-- A frame or a message whose data is in the string. -/
theorem documented_of_data {sz : ℕ} (hknown : IsKnown type) (hsame : size = sz)
    (hpos : type = ascii "message" ∨ size ≠ 0) (hin : (headStr str).length + 1 + sz ≤ str.length)
    (hused : usedBytes.toNat = (headStr str).length + 1 + sz)
    (hdata : data = (str.drop ((headStr str).length + 1)).take sz) :
    Documented lib str members type size data usedBytes := by
  have happend := @eq_append_of_length_lt str (by omega)
  refine ⟨hparse, htype, hknown, ⟨_, happend.symm⟩, by omega, hsize, by omega,
    fun hmessage => ?_, fun _ => ⟨?_, ?_⟩⟩
  · have hne := hpos.resolve_left hmessage
    omega
  · rw [hdata, List.length_take, List.length_drop]
    omega
  · have hpre := (List.prefix_append_right_inj (headStr str ++ [0])).mpr
      (List.take_prefix sz (str.drop ((headStr str).length + 1)))
    rwa [← happend, ← hdata] at hpre

end Accepted

/-- **What is accepted is as documented exactly when the size is an integer that is
allowed for the type, and a head has its zero byte.** -/
theorem documented_iff {lib : JsonLib} (hlib : lib.Int64) {p q : Package} {str : Bytes}
    {usedBytes : UInt64} (hlen : str.length < 2 ^ 63)
    (h : p.fromString lib str = .ok (true, q, usedBytes)) :
    (∃ members type size, Documented lib str members type size q.data usedBytes)
      ↔ ∃ type size, headerType lib str = some type ∧ declaredSize lib str = some size
        ∧ (type = ascii "message" ∨ size ≠ 0)
        ∧ (type = ascii "head" → 0 ≤ size ∧ 0 ∈ str) := by
  constructor
  · rintro ⟨_, type, size, hdoc⟩
    refine ⟨type, size, hdoc.read.1, hdoc.read.2, ?_, fun _ => ⟨hdoc.nonneg, ?_⟩⟩
    · by_cases hmessage : type = ascii "message"
      · exact Or.inl hmessage
      · exact Or.inr (ne_of_gt (hdoc.pos hmessage))
    · exact hdoc.zero_behind.subset (List.mem_append_right _ List.mem_cons_self)
  · rintro ⟨type, size, htype', hsize, hpos, hzero⟩
    obtain ⟨header, sz, hread, hsz, hhead, hother⟩ := accepted_spec hlen h
    obtain ⟨hknown, -, j, hjson, hvalue⟩ := Header.of_size hread hsz
    obtain ⟨members, rfl, hparse, htype⟩ := members_of_typedJson hjson
    rw [headerType_of_readHeader hread] at htype'
    obtain rfl := Option.some.inj htype'
    rw [declaredSize_of_members hjson] at hsize
    obtain ⟨hmod, hmin, hmax⟩ := declared_of_members hlib hparse hsize hvalue
    refine ⟨members, header.type, size, ?_⟩
    by_cases hkind : header.type = ascii "head"
    · obtain ⟨hnonneg, hmem⟩ := hzero hkind
      have hne : size ≠ 0 := hpos.resolve_left (by rw [hkind]; decide)
      exact documented_of_head hparse htype hsize hkind (lt_of_le_of_ne hnonneg hne.symm) hmem
        (hhead hkind)
    · -- the data is in the string, so the size is what was declared
      obtain ⟨hin, hused, hdata⟩ := hother hkind
      have hsame : size = (sz.toNat : ℤ) := by omega
      exact documented_of_data hparse htype hsize hknown hsame hpos hin hused hdata

/-- The flat texts have no negative numbers. -/
theorem flatLib_int64 : flatLib.Int64 where
  bounds := by
    intro text key j n hparse hindex
    obtain ⟨ms, -, rfl⟩ := Option.map_eq_some_iff.mp hparse
    have hflat : ((ms.map fun m => (m.1, ofFlat m.2)).lookup key).getD .null
        = .numberInteger n := Option.some.inj hindex
    cases hmember : (ms.map fun m => (m.1, ofFlat m.2)).lookup key with
    | none =>
      rw [hmember] at hflat
      cases hflat
    | some v =>
      rw [hmember] at hflat
      obtain rfl : v = .numberInteger n := hflat
      obtain ⟨before, behind, hsplit, -⟩ := List.lookup_eq_some_iff.mp hmember
      have hmem : (key, Json.numberInteger n) ∈ ms.map fun m => (m.1, ofFlat m.2) := by
        rw [hsplit]
        exact List.mem_append_right _ List.mem_cons_self
      obtain ⟨⟨_, value⟩, -, hm⟩ := List.mem_map.mp hmem
      cases value with
      | text s => cases hm
      | number n => cases hm

/-- A message of one byte. -/
theorem documented_message :
    ∃ q usedBytes, Package.fromString flatLib {} (messageText ++ [0, 1]) = .ok (true, q, usedBytes)
      ∧ ∃ members type size,
        Documented flatLib (messageText ++ [0, 1]) members type size q.data usedBytes := by
  have hrun : (Package.fromString flatLib {} (messageText ++ [0, 1])).map Prod.fst = .ok true := by
    decide +kernel
  obtain ⟨⟨ok, q, usedBytes⟩, hq, rfl⟩ := exists_of_map_eq_ok hrun
  have htype : headerType flatLib (messageText ++ [0, 1]) = some (ascii "message") := by
    decide +kernel
  have hsize : declaredSize flatLib (messageText ++ [0, 1]) = some 1 := by decide +kernel
  have hcond := (documented_iff flatLib_int64 (by decide +kernel) hq).mpr
    ⟨_, _, htype, hsize, Or.inr (by decide), fun h => absurd h (by decide)⟩
  exact ⟨q, usedBytes, hq, hcond⟩

/-- A head of size zero is written and read. -/
theorem zeroSize_accepted :
    ∃ str q usedBytes, createHead flatLib (ascii "a") 0 [] = some str
      ∧ Package.fromString flatLib {} str = .ok (true, q, usedBytes)
      ∧ declaredSize flatLib str = some 0
      ∧ ¬ ∃ members type size, Documented flatLib str members type size q.data usedBytes := by
  have hrun : ((createHead flatLib (ascii "a") 0 []).map fun str =>
      ((Package.fromString flatLib {} str).map Prod.fst, headerType flatLib str,
        declaredSize flatLib str))
      = some (.ok true, some (ascii "head"), some 0) := by
    decide +kernel
  obtain ⟨str, hstr, hseen⟩ := Option.map_eq_some_iff.mp hrun
  obtain ⟨hok, htype, hsize⟩ : _ ∧ _ ∧ _ := by simpa only [Prod.mk.injEq] using hseen
  obtain ⟨⟨ok, q, usedBytes⟩, hq, rfl⟩ := exists_of_map_eq_ok hok
  refine ⟨str, q, usedBytes, hstr, hq, hsize, ?_⟩
  rintro ⟨members, type, size, hdoc⟩
  obtain rfl := Option.some.inj (hdoc.read.1.symm.trans htype)
  obtain rfl := Option.some.inj (hdoc.read.2.symm.trans hsize)
  exact absurd (hdoc.pos (by decide)) (lt_irrefl 0)

end AndrenBoost.Jcp
