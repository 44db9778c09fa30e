import AndrenBoost.Jcp.Stream

/-!
# Decoding what has not arrived completely

A decoder that is called on the beginning of an encoding should refuse it, and
leave nothing behind that a later call on the whole encoding shows.  Frames and
messages are compared with the size they declare; a head is not, and the zero byte
that should end it is looked for with `str[headStr.size()]`, which at the end of a
string is its terminator.

## Main definitions

* `JsonLib.RefusesCut` — what is asked of the library about texts that are cut off.
* `attempts` — calls of the decoder on one package.
* `RefusedThenDecoded` — every attempt is refused, and the last call decodes as if
  there had been none.

## Main results

* `fromString_of_cut` — one attempt.
* `attempts_spec` — any number of them.
* `refusedThenDecoded_iff` — **attempts are harmless exactly when none is on a head
  that lacks only its zero byte.**
-/

namespace AndrenBoost.Jcp

open StdString

/-- The library does not read a text that it wrote and that is cut off. -/
structure JsonLib.RefusesCut (lib : JsonLib) : Prop where
  parse_eq_none : ∀ {members : List (Bytes × Json)} {text cut : Bytes}, IsHeader members →
    lib.dump (.object members) = some text → cut <+: text → cut ≠ text → lib.parse cut = none

/-- Calls of the decoder on one package: what each of them returned, with
`usedBytes`, and the package after them. -/
def attempts (lib : JsonLib) (p : Package) :
    List Bytes → Except Fault (List (Bool × UInt64) × Package)
  | [] => .ok ([], p)
  | str :: strs =>
      (p.fromString lib str).bind fun (ok, p, usedBytes) =>
        (attempts lib p strs).map fun (results, p) => ((ok, usedBytes) :: results, p)

/-- Every attempt on a fresh package is refused and uses nothing, and afterwards
`str` decodes as on a fresh package. -/
def RefusedThenDecoded (lib : JsonLib) (str : Bytes) (cuts : List Bytes) : Prop :=
  ∃ results p, attempts lib {} cuts = .ok (results, p)
    ∧ (∀ r ∈ results, r = (false, 0))
    ∧ Package.fromString lib p str = Package.fromString lib {} str

/-- The package is a head. -/
def Item.IsHead : Item → Prop
  | .head _ _ => True
  | _ => False

namespace Item

/-- Filling in a package for the second time changes nothing but the data, which is
replaced. -/
theorem fill_fill (item : Item) (p : Package) :
    item.fill { item.fill p with data := p.data } = item.fill p := by
  cases item with
  | head name size =>
    unfold fill
    dsimp only
    rw [SortedMap.set_of_find?_eq_some (k := ascii "name"),
      SortedMap.set_of_find?_eq_some (k := ascii "size")]
    · rw [SortedMap.find?_set, if_pos rfl]
    · rw [SortedMap.find?_set, if_neg (by decide), SortedMap.find?_set, if_pos rfl]
  | frame name data index =>
    unfold fill
    dsimp only
    rw [SortedMap.set_of_find?_eq_some (k := ascii "name"),
      SortedMap.set_of_find?_eq_some (k := ascii "index"),
      SortedMap.set_of_find?_eq_some (k := ascii "size")]
    · rw [SortedMap.find?_set, if_pos rfl]
    · rw [SortedMap.find?_set, if_neg (by decide), SortedMap.find?_set, if_pos rfl]
    · rw [SortedMap.find?_set, if_neg (by decide), SortedMap.find?_set, if_neg (by decide),
        SortedMap.find?_set, if_pos rfl]
  | message content => rfl

end Item

/-! ### One attempt -/

section Cut

variable {lib : JsonLib} {item : Item} {text cut : Bytes}

/-- A beginning of an encoding ends within the header, or behind it. -/
theorem cut_cases {body : Bytes} (h : cut <+: text ++ body) :
    (cut <+: text ∧ cut ≠ text) ∨ ∃ tail, cut = text ++ tail ∧ tail <+: body := by
  rcases List.prefix_or_prefix_of_prefix h (List.prefix_append text body) with hin | ⟨tail, rfl⟩
  · by_cases heq : cut = text
    · exact Or.inr ⟨[], by rw [heq, List.append_nil], List.nil_prefix⟩
    · exact Or.inl ⟨hin, heq⟩
  · exact Or.inr ⟨tail, rfl, (List.prefix_append_right_inj text).mp h⟩

theorem takeWhile_text (h0 : 0 ∉ text) : text.takeWhile (· != 0) = text := by
  rw [List.takeWhile_eq_self_iff]
  exact fun b hb => bne_iff_ne.2 fun h => h0 (h ▸ hb)

/-- The header of what ends behind it. -/
theorem takeWhile_cut (h0 : 0 ∉ text) {tail data : Bytes} (htail : tail <+: 0 :: data) :
    (text ++ tail).takeWhile (· != 0) = text := by
  rcases tail with _ | ⟨b, tail⟩
  · rw [List.append_nil, takeWhile_text h0]
  · obtain ⟨rfl, -⟩ := List.cons_prefix_cons.mp htail
    rw [List.append_cons]
    exact takeWhile_header h0 tail

/-- An attempt within the header. -/
theorem fromString_of_cut_header (p : Package) (h0 : 0 ∉ cut) (hparse : lib.parse cut = none) :
    p.fromString lib cut = .ok (false, p, 0) := by
  unfold Package.fromString
  rw [takeWhile_text h0]
  dsimp only
  rw [hparse]

/-- An attempt on a frame or a message that ends behind the header: the declared
size is not there. -/
theorem fromString_of_cut_data (p : Package) (h0 : 0 ∉ text)
    (hparse : lib.parse text = some (.object item.members)) (hkind : ¬ item.IsHead)
    (hlen : (text ++ [0] ++ item.data).length < 2 ^ 64) {tail : Bytes}
    (htail : tail <+: 0 :: item.data) (hne : tail ≠ 0 :: item.data) :
    p.fromString lib (text ++ tail)
      = .ok (false, { item.fill p with data := p.data }, 0) := by
  have hshort : sizeOf (text ++ tail) < sizeOf text + 1 + sizeOf item.data := by
    have hlt : tail.length < (0 :: item.data).length :=
      lt_of_le_of_ne htail.length_le fun h => hne (htail.eq_of_length h)
    have hsum : sizeOf text + 1 + sizeOf item.data = sizeOf (text ++ [0] ++ item.data) := by
      rw [sizeOf_append, sizeOf_append]
      rfl
    simp only [List.length_append, List.length_cons, List.length_nil] at hlen hlt
    rw [hsum, UInt64.lt_iff_toNat_lt, toNat_sizeOf (by simp; omega), toNat_sizeOf (by simp; omega)]
    simp only [List.length_append, List.length_cons, List.length_nil]
    omega
  unfold Package.fromString
  rw [takeWhile_cut h0 htail]
  dsimp only
  rw [hparse]
  cases item with
  | head name size => exact absurd trivial hkind
  | frame name data index => exact if_pos hshort
  | message content => exact if_pos hshort

/-- An attempt on a head that lacks its zero byte succeeds. -/
theorem fromString_of_cut_zero (p : Package) (h0 : 0 ∉ text)
    (hparse : lib.parse text = some (.object item.members)) (hkind : item.IsHead) :
    p.fromString lib text
      = .ok (true, { item.fill p with data := p.data }, sizeOf text + 1) := by
  -- the byte at the end of the string is its terminator
  have hchar : charAt text text.length = .ok 0 := by simp [charAt]
  unfold Package.fromString
  rw [takeWhile_text h0]
  dsimp only
  rw [hparse]
  cases item with
  | head name size =>
    show (charAt text text.length >>= fun c =>
      if c ≠ 0 then pure (false, _, 0) else pure (true, _, sizeOf text + 1)) = _
    rw [hchar]
    rfl
  | frame name data index => exact absurd hkind id
  | message content => exact absurd hkind id

end Cut

/-! ### Any number of attempts -/

section Attempts

variable {lib : JsonLib} {item : Item} {text : Bytes} (hcut : lib.RefusesCut)
  (hname : item.ValidName) (hdump : lib.dump (.object item.members) = some text)
  (h0 : 0 ∉ text) (hparse : lib.parse text = some (.object item.members))
  (hlen : (text ++ [0] ++ item.data).length < 2 ^ 64)

include hcut hname hdump h0 hparse hlen

/-- **One attempt** on a beginning of an encoding.  It is refused, with one
exception; and whatever it leaves in the package, decoding fills in the same. -/
theorem fromString_of_cut {cut : Bytes} (hpre : cut <+: text ++ [0] ++ item.data)
    (hne : cut ≠ text ++ [0] ++ item.data) (p : Package) :
    ∃ ok p' usedBytes, p.fromString lib cut = .ok (ok, p', usedBytes)
      ∧ item.fill p' = item.fill p
      ∧ ((ok, usedBytes) = (false, 0)
        ↔ ¬ (item.IsHead ∧ cut.length + 1 = (text ++ [0] ++ item.data).length)) := by
  have hlen' := hlen
  rw [List.append_assoc] at hpre hne hlen' ⊢
  rcases cut_cases hpre with ⟨hin, hshort⟩ | ⟨tail, rfl, htail⟩
  · have hnone := hcut.parse_eq_none (Item.isHeader_members hname) hdump hin hshort
    refine ⟨_, _, _, fromString_of_cut_header p (fun h => h0 (hin.subset h)) hnone, rfl,
      iff_of_true rfl ?_⟩
    have hlt : cut.length < text.length :=
      lt_of_le_of_ne hin.length_le fun h => hshort (hin.eq_of_length h)
    simp only [List.length_append, List.length_cons, List.length_nil]
    omega
  · have htail_ne : tail ≠ [0] ++ item.data := fun h => hne (by rw [h])
    by_cases hkind : item.IsHead
    · -- behind the text of a head there is only its zero byte
      have hdata : item.data = [] := by
        cases item with
        | head name size => rfl
        | frame name data index => exact absurd hkind id
        | message content => exact absurd hkind id
      rw [hdata, List.append_nil] at htail htail_ne ⊢
      obtain rfl : tail = [] := by
        rcases tail with _ | ⟨b, tail⟩
        · rfl
        · obtain ⟨rfl, hnil⟩ := List.cons_prefix_cons.mp htail
          rw [List.prefix_nil.mp hnil] at htail_ne
          exact absurd rfl htail_ne
      rw [List.append_nil]
      refine ⟨_, _, _, fromString_of_cut_zero p h0 hparse hkind, item.fill_fill p,
        iff_of_false ?_ ?_⟩
      · simp
      · simp [hkind]
    · exact ⟨_, _, _, fromString_of_cut_data p h0 hparse hkind hlen htail htail_ne,
        item.fill_fill p, iff_of_true rfl fun h => hkind h.1⟩

/-- **Any number of attempts.** -/
theorem attempts_spec : ∀ {cuts : List Bytes},
    (∀ cut ∈ cuts, cut <+: text ++ [0] ++ item.data ∧ cut ≠ text ++ [0] ++ item.data) →
    ∀ p : Package, ∃ results p', attempts lib p cuts = .ok (results, p')
      ∧ item.fill p' = item.fill p
      ∧ ((∀ r ∈ results, r = (false, 0))
        ↔ ¬ (item.IsHead
          ∧ ∃ cut ∈ cuts, cut.length + 1 = (text ++ [0] ++ item.data).length)) := by
  intro cuts
  induction cuts with
  | nil => intro _ p; exact ⟨[], p, rfl, rfl, by simp⟩
  | cons cut cuts ih =>
    intro h p
    rw [List.forall_mem_cons] at h
    obtain ⟨ok, p₁, usedBytes, hfrom, hfill, hrefused⟩ :=
      fromString_of_cut hcut hname hdump h0 hparse hlen h.1.1 h.1.2 p
    obtain ⟨results, p', hrun, hfill', hrest⟩ := ih h.2 p₁
    refine ⟨(ok, usedBytes) :: results, p', ?_, hfill'.trans hfill, ?_⟩
    · rw [attempts, hfrom]
      show (attempts lib p₁ cuts).map _ = _
      rw [hrun]
      rfl
    · rw [List.forall_mem_cons, hrefused, hrest, List.exists_mem_cons_iff, and_or_left, not_or]

end Attempts

/-- **Attempts are harmless exactly when none is on a head that lacks only its zero
byte.**  An encoding, any beginnings of it that the decoder is called on one after
another, and then the encoding itself. -/
theorem refusedThenDecoded_iff {lib : JsonLib} (hlib : lib.Lawful) (hcut : lib.RefusesCut)
    {item : Item} (hname : item.ValidName) :
    ∃ str, item.encode lib = some str ∧ (str.length < 2 ^ 64 →
      ∀ cuts : List Bytes, (∀ cut ∈ cuts, cut <+: str ∧ cut ≠ str) →
        (RefusedThenDecoded lib str cuts
          ↔ ¬ (item.IsHead ∧ ∃ cut ∈ cuts, cut.length + 1 = str.length))) := by
  obtain ⟨text, hdump, h0, hparse⟩ := hlib.roundTrip (Item.isHeader_members hname)
  refine ⟨text ++ [0] ++ item.data, by rw [item.encode_eq, hdump]; rfl, fun hlen cuts hcuts => ?_⟩
  obtain ⟨results, p, hrun, hfill, hrefused⟩ :=
    attempts_spec hcut hname hdump h0 hparse hlen hcuts {}
  have hdecode : ∀ p : Package, p.fromString lib (text ++ [0] ++ item.data)
      = .ok (true, item.fill p, sizeOf (text ++ [0] ++ item.data)) :=
    fun p => fromString_encode_self p h0 hparse hlen
  rw [← hrefused]
  constructor
  · rintro ⟨results', p', hrun', hall, -⟩
    rw [hrun] at hrun'
    cases hrun'
    exact hall
  · intro hall
    exact ⟨results, p, hrun, hall, by rw [hdecode, hdecode, hfill]⟩

/-! ### The library for flat objects -/

theorem flatLib_refusesCut : flatLib.RefusesCut where
  parse_eq_none := by
    intro members text cut hm hdump hpre hne
    obtain ⟨text', hdump', -, hparse⟩ := flatLib_lawful.roundTrip hm
    obtain rfl : text = text' := Option.some.inj (hdump.symm.trans hdump')
    obtain ⟨x, rfl⟩ := hpre
    have hx : x ≠ [] := fun h => hne (by rw [h, List.append_nil])
    show (FlatJson.parse cut).map _ = none
    cases hread : FlatJson.parse cut with
    | none => rfl
    | some ms =>
      -- otherwise the whole text would not read
      have hwhole : flatLib.parse (cut ++ x) = none := by
        show (FlatJson.parse (cut ++ x)).map _ = none
        rw [FlatJson.parse_append_eq_none hread hx]
        rfl
      rw [hwhole] at hparse
      exact absurd hparse (by simp)

/-- A frame of which there are first some bytes of its header, then the header
without its zero byte, and then all but the last byte. -/
theorem refusedThenDecoded_frame :
    ∃ str, (Item.frame (ascii "a") [1, 2] 0).encode flatLib = some str
      ∧ RefusedThenDecoded flatLib str [str.take 5, str.take 46, str.take 48] := by
  have ha : ValidUtf8 (ascii "a") := ⟨['a'], by decide⟩
  obtain ⟨str, hstr, hiff⟩ := @refusedThenDecoded_iff flatLib flatLib_lawful flatLib_refusesCut
    (.frame (ascii "a") [1, 2] 0) ha
  have hlen : str.length = 49 := by
    have hall : ((Item.frame (ascii "a") [1, 2] 0).encode flatLib).all
        (fun str => str.length = 49) = true := by
      decide +kernel
    rw [hstr] at hall
    exact of_decide_eq_true hall
  have hcut : ∀ n < 49, str.take n <+: str ∧ str.take n ≠ str := fun n hn => by
    refine ⟨List.take_prefix n str, fun h => ?_⟩
    have := congrArg List.length h
    rw [List.length_take, hlen] at this
    omega
  refine ⟨str, hstr, (hiff (by rw [hlen]; decide) _ ?_).2 fun h => h.1⟩
  exact List.forall_mem_cons.2 ⟨hcut 5 (by decide), List.forall_mem_cons.2 ⟨hcut 46 (by decide),
    List.forall_mem_singleton.2 (hcut 48 (by decide))⟩⟩

/-- The text of a head. -/
def headText : Bytes := ascii "\x7b\"name\":\"a\",\"size\":3,\"type\":\"head\"\x7d"

/-- Without its zero byte the head is accepted, and 36 of its 35 bytes are used. -/
theorem headText_accepted :
    createHead flatLib (ascii "a") 3 [] = some (headText ++ [0]) ∧ headText.length = 35
      ∧ (attempts flatLib {} [headText]).map Prod.fst = .ok [(true, 36)]
      ∧ ¬ RefusedThenDecoded flatLib (headText ++ [0]) [headText] := by
  have hrun : (attempts flatLib {} [headText]).map Prod.fst = .ok [(true, 36)] := by
    decide +kernel
  refine ⟨by decide +kernel, by decide +kernel, hrun, ?_⟩
  rintro ⟨results, p, hattempts, hall, -⟩
  rw [hattempts] at hrun
  cases hrun
  exact absurd (hall (true, 36) List.mem_cons_self) (by decide)

end AndrenBoost.Jcp
