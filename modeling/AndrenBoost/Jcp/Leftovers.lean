import AndrenBoost.Jcp.Retry
import AndrenBoost.Jcp.Header

/-!
# What is left of earlier calls

A package that is filled in again should show nothing of what it held before, and a
call that fails should leave it as it is.  The decoder never empties the head map,
replaces the data only where it has some, and stores what it has read before it knows
that the rest is there.

## Main definitions

* `AgreeBeyond` — two packages agree on what a header does not overwrite.
* `Header.SumFits` — the sum of the length test fits into its type.

## Main results

* `reuse_iff` — **two packages are filled in alike exactly when they agree beyond the
  header.**
* `failure_leaves` — **a call that fails leaves the data, and the type and the fields
  it has read**, if its sum fits.
-/

namespace AndrenBoost.Jcp

open StdString

/-- The type of the header, if it has one. -/
def headerType (lib : JsonLib) (str : Bytes) : Option Bytes := (typedJson lib str).map Prod.snd

/-- Two packages agree on what a header of a type does not overwrite: the other keys
of the head map, and behind a head the data. -/
structure AgreeBeyond (type : Bytes) (p p' : Package) : Prop where
  head : ∀ key, key ∉ (headFields type).map Prod.fst → p.head.find? key = p'.head.find? key
  data : type = ascii "head" → p.data = p'.data

theorem headerType_of_readHeader {lib : JsonLib} {str : Bytes} {h : Header}
    (hread : readHeader lib str = some h) : headerType lib str = some h.type := by
  obtain ⟨⟨j, type⟩, hjson, rfl⟩ := Option.map_eq_some_iff.mp hread
  rw [headerType, hjson]
  rfl

/-- Which packages a header and its data make the same of. -/
theorem store_eq_store_iff {p p' : Package} {h : Header} {body : Option Bytes}
    (hfields : h.fields.map Prod.fst = (headFields h.type).map Prod.fst)
    (hbody : body = none ↔ h.type = ascii "head") :
    ({ p.store h with data := body.getD p.data } : Package)
        = { p'.store h with data := body.getD p'.data }
      ↔ AgreeBeyond h.type p p' := by
  have hhead : p.head.setAll h.fields = p'.head.setAll h.fields
      ↔ ∀ key, key ∉ (headFields h.type).map Prod.fst → p.head.find? key = p'.head.find? key := by
    rw [SortedMap.setAll_eq_iff, hfields]
  have hdata : body.getD p.data = body.getD p'.data
      ↔ (h.type = ascii "head" → p.data = p'.data) := by
    rw [← hbody]
    cases body with
    | none => simp
    | some body => simp
  constructor
  · intro heq
    exact ⟨hhead.mp (congrArg Package.head heq), hdata.mp (congrArg Package.data heq)⟩
  · intro hagree
    show Package.mk h.type (p.head.setAll h.fields) (body.getD p.data)
      = Package.mk h.type (p'.head.setAll h.fields) (body.getD p'.data)
    rw [hhead.mpr hagree.head, hdata.mpr hagree.data]

/-- The text of a frame. -/
def frameText : Bytes := ascii "\x7b\"index\":0,\"name\":\"a\",\"size\":2,\"type\":\"frame\"\x7d"

/-- The text of a message. -/
def messageText : Bytes := ascii "\x7b\"size\":1,\"type\":\"message\"\x7d"

/-- A string that is accepted with one package is accepted with every one, and what is
stored does not depend on it. -/
theorem accepted_on_all {lib : JsonLib} {p q : Package} {str : Bytes} {usedBytes : UInt64}
    (h : p.fromString lib str = .ok (true, q, usedBytes)) :
    ∃ (header : Header) (body : Option Bytes), headerType lib str = some header.type
      ∧ header.fields.map Prod.fst = (headFields header.type).map Prod.fst
      ∧ (body = none ↔ header.type = ascii "head")
      ∧ ∀ p' : Package, p'.fromString lib str
        = .ok (true, { p'.store header with data := body.getD p'.data }, usedBytes) := by
  rw [fromString_eq] at h
  cases hread : readHeader lib str with
  | none =>
    rw [hread] at h
    cases h
  | some header =>
    rw [hread] at h
    dsimp only at h
    rcases decode_cases header str with hrefuse | ⟨body, n, hsize, hbody, haccept⟩ | hfault
    · rw [hrefuse] at h
      cases h
    · rw [haccept] at h
      cases h
      obtain ⟨size, hsome⟩ := Option.ne_none_iff_exists'.mp hsize
      exact ⟨header, body, headerType_of_readHeader hread, (Header.of_size hread hsome).2.1,
        hbody, fun p' => by rw [fromString_eq, hread]; exact haccept p'⟩
    · rw [hfault] at h
      cases h

/-- **Two packages are filled in alike exactly when they agree beyond the header.** -/
theorem reuse_iff {lib : JsonLib} {p q : Package} {str : Bytes} {usedBytes : UInt64}
    (h : p.fromString lib str = .ok (true, q, usedBytes)) (p' : Package) :
    p'.fromString lib str = .ok (true, q, usedBytes)
      ↔ ∃ type, headerType lib str = some type ∧ AgreeBeyond type p p' := by
  obtain ⟨header, body, htype, hfields, hbody, hall⟩ := accepted_on_all h
  have hq : { p.store header with data := body.getD p.data } = q :=
    congrArg (fun r => r.2.1) (Except.ok.inj ((hall p).symm.trans h))
  rw [hall p', htype, ← hq]
  constructor
  · intro heq
    have hstore : ({ p'.store header with data := body.getD p'.data } : Package)
        = { p.store header with data := body.getD p.data } :=
      congrArg (fun r => r.2.1) (Except.ok.inj heq)
    exact ⟨_, rfl, (store_eq_store_iff hfields hbody).mp hstore.symm⟩
  · rintro ⟨type, htype', hagree⟩
    cases htype'
    rw [(store_eq_store_iff hfields hbody).mpr hagree]

/-- A message replaces the data of the package, and leaves its head map. -/
theorem reuse_message :
    ∃ q usedBytes, Package.fromString flatLib {} (messageText ++ [0, 1]) = .ok (true, q, usedBytes)
      ∧ Package.fromString flatLib { type := ascii "head", data := [7] } (messageText ++ [0, 1])
        = .ok (true, q, usedBytes) := by
  have hrun : (Package.fromString flatLib {} (messageText ++ [0, 1])).map Prod.fst = .ok true := by
    decide +kernel
  obtain ⟨⟨ok, q, usedBytes⟩, hq, rfl⟩ := exists_of_map_eq_ok hrun
  have htype : headerType flatLib (messageText ++ [0, 1]) = some (ascii "message") := by
    decide +kernel
  exact ⟨q, usedBytes, hq, (reuse_iff hq _).mpr
    ⟨_, htype, ⟨fun key _ => rfl, fun h => absurd h (by decide)⟩⟩⟩

/-- Behind a frame a head keeps the data and the index of the frame. -/
theorem head_after_frame :
    ∃ p q fresh,
      Package.fromString flatLib {} (frameText ++ [0, 1, 2]) = .ok (true, p, 49)
      ∧ p.fromString flatLib (headText ++ [0]) = .ok (true, q, 36)
      ∧ Package.fromString flatLib {} (headText ++ [0]) = .ok (true, fresh, 36)
      ∧ (q.data, q.head.find? (ascii "index")) = ([1, 2], some (.size 0))
      ∧ (fresh.data, fresh.head.find? (ascii "index")) = ([], none) := by
  have hboth : ((Package.fromString flatLib {} (frameText ++ [0, 1, 2])).bind fun r =>
      (r.2.1.fromString flatLib (headText ++ [0])).map fun s =>
        ((r.1, r.2.2), (s.1, s.2.2), s.2.1.data, s.2.1.head.find? (ascii "index")))
        = .ok ((true, 49), (true, 36), [1, 2], some (.size 0)) := by
    decide +kernel
  have hfresh : ((Package.fromString flatLib {} (headText ++ [0])).map fun s =>
      ((s.1, s.2.2), s.2.1.data, s.2.1.head.find? (ascii "index")))
        = .ok ((true, 36), [], none) := by
    decide +kernel
  obtain ⟨⟨ok₀, p, n₀⟩, hp, hboth⟩ := exists_of_bind_eq_ok hboth
  obtain ⟨⟨ok, q, n⟩, hq, hseen⟩ := exists_of_map_eq_ok hboth
  obtain ⟨⟨ok', fresh, n'⟩, hfresh, hseen'⟩ := exists_of_map_eq_ok hfresh
  simp only [Prod.mk.injEq] at hseen hseen'
  obtain ⟨⟨rfl, rfl⟩, ⟨rfl, rfl⟩, hdata, hindex⟩ := hseen
  obtain ⟨⟨rfl, rfl⟩, hdata', hindex'⟩ := hseen'
  exact ⟨p, q, fresh, hp, hq, hfresh, by rw [hdata, hindex], by rw [hdata', hindex']⟩

/-- The sum of the length test fits into its type, where the decoder gets to the test:
behind a header with a size, of a frame or of a message. -/
def Header.SumFits (h : Header) (str : Bytes) : Prop :=
  h.type ≠ ascii "head" → ∀ size, h.size = some size →
    (headStr str).length + 1 + size.toNat < 2 ^ 64

/-- Only a sum that does not fit lets the copy out of the string. -/
theorem decode_ne_error {h : Header} {str : Bytes} (hlen : str.length < 2 ^ 63)
    (hfits : h.SumFits str) (p : Package) (e : Fault) : p.decode h str ≠ .error e := by
  intro heq
  rw [Package.decode] at heq
  cases hsize : h.size with
  | none =>
    rw [hsize] at heq
    cases heq
  | some size =>
    rw [hsize] at heq
    dsimp only [Package.finish] at heq
    by_cases hhead : h.type = ascii "head"
    · rw [if_pos hhead] at heq
      cases heq
    · rw [if_neg hhead, takeData_spec _ _ hlen, if_pos (hfits hhead size hsize)] at heq
      split_ifs at heq

/-- **A call that fails leaves the data, and the type and the fields it has read**, and
a call whose sum fits returns. -/
theorem failure_leaves {lib : JsonLib} {str : Bytes} (hlen : str.length < 2 ^ 63)
    (hfits : ∀ header, readHeader lib str = some header → header.SumFits str) (p : Package) :
    ∃ ok q usedBytes, p.fromString lib str = .ok (ok, q, usedBytes)
      ∧ (ok = false → usedBytes = 0 ∧ q.data = p.data
        ∧ q = (readHeader lib str).elim p p.store) := by
  rw [fromString_eq]
  cases hread : readHeader lib str with
  | none => exact ⟨false, p, 0, rfl, fun _ => ⟨rfl, rfl, rfl⟩⟩
  | some header =>
    dsimp only
    rcases decode_cases header str with hrefuse | ⟨body, n, -, -, haccept⟩ | hfault
    · exact ⟨false, p.store header, 0, hrefuse p, fun _ => ⟨rfl, rfl, rfl⟩⟩
    · exact ⟨true, _, n, haccept p, fun hok => absurd hok (by decide)⟩
    · exact absurd (hfault p) (decode_ne_error hlen (hfits header hread) p _)

/-- A frame without its last byte, after which the package has a new type and new fields. -/
theorem failure_leaves_frame :
    ∃ q, Package.fromString flatLib { data := [7] } (frameText ++ [0, 1]) = .ok (false, q, 0)
      ∧ q.data = [7] ∧ q.type = ascii "frame"
      ∧ q.head.find? (ascii "size") = some (.size 2) := by
  have hrun : (Package.fromString flatLib { data := [7] } (frameText ++ [0, 1])).map
      (fun r => (r.1, r.2.1.type, r.2.1.head.find? (ascii "size")))
      = .ok (false, ascii "frame", some (.size 2)) := by
    decide +kernel
  have hsize : (readHeader flatLib (frameText ++ [0, 1])).map Header.size = some (some 2) := by
    decide +kernel
  have hfits : ∀ header, readHeader flatLib (frameText ++ [0, 1]) = some header →
      header.SumFits (frameText ++ [0, 1]) := by
    intro header hread _ size hsome
    rw [hread, Option.map_some, hsome] at hsize
    cases hsize
    decide +kernel
  obtain ⟨ok, q, n, hq, hleaves⟩ := failure_leaves (p := { data := [7] }) (by decide +kernel) hfits
  obtain ⟨r, hr, hseen⟩ := exists_of_map_eq_ok hrun
  cases hr.symm.trans hq
  obtain ⟨rfl, htype, hfind⟩ : ok = false ∧ _ ∧ _ := by simpa only [Prod.mk.injEq] using hseen
  obtain ⟨rfl, hdata, -⟩ := hleaves rfl
  exact ⟨q, hq, hdata, htype, hfind⟩

/-- A type that is none of the three is stored, and so is the name of a head that has
no size. -/
theorem refused_stored :
    (∃ q, Package.fromString flatLib {} (ascii "\x7b\"type\":\"x\"\x7d" ++ [0]) = .ok (false, q, 0)
      ∧ q.type = ascii "x" ∧ q.type ≠ ({} : Package).type)
    ∧ ∃ q, Package.fromString flatLib {} (ascii "\x7b\"name\":\"a\",\"type\":\"head\"\x7d" ++ [0])
        = .ok (false, q, 0)
      ∧ q.head.find? (ascii "name") = some (.text (ascii "a"))
      ∧ q.head.find? (ascii "name") ≠ ({} : Package).head.find? (ascii "name") := by
  have htype : (Package.fromString flatLib {} (ascii "\x7b\"type\":\"x\"\x7d" ++ [0])).map
      (fun r => ((r.1, r.2.2), r.2.1.type)) = .ok ((false, 0), ascii "x") := by
    decide +kernel
  have hname : (Package.fromString flatLib {}
      (ascii "\x7b\"name\":\"a\",\"type\":\"head\"\x7d" ++ [0])).map
        (fun r => ((r.1, r.2.2), r.2.1.head.find? (ascii "name")))
      = .ok ((false, 0), some (.text (ascii "a"))) := by
    decide +kernel
  obtain ⟨⟨ok, q, n⟩, hq, hseen⟩ := exists_of_map_eq_ok htype
  obtain ⟨⟨ok', q', n'⟩, hq', hseen'⟩ := exists_of_map_eq_ok hname
  simp only [Prod.mk.injEq] at hseen hseen'
  obtain ⟨⟨rfl, rfl⟩, hx⟩ := hseen
  obtain ⟨⟨rfl, rfl⟩, ha⟩ := hseen'
  exact ⟨⟨q, hq, hx, by rw [hx]; decide⟩, q', hq', ha, by rw [ha]; decide⟩

end AndrenBoost.Jcp
