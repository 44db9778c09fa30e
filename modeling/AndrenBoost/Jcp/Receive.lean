import AndrenBoost.Jcp.Retry
import AndrenBoost.Lib.Incremental

/-!
# Receiving packages in chunks

What does not parse is left to the next parse, says the header: a receiver keeps the
bytes that are left, puts the next chunk behind them and parses from the beginning.
Where the chunks are cut makes no difference to frames and messages.  A head is
taken for complete when only its zero byte is missing; then that byte is in front of
everything that follows, and nothing parses any more.

## Main definitions

* `receive lib chunks` — the packages that were parsed, and the bytes that are left.
* `CutBeforeZero` — a chunk ends in front of the zero byte of a head.

## Main results

* `decodeOne_of_cut`, `decodeOne_of_cut_zero` — packages that are cut short.
* `decoder` — what the decoder does at every place of a stream.
* `receive_iff` — **the packages come out of every cutting, exactly unless a chunk
  ends in front of the zero byte of a head.**
-/

namespace AndrenBoost.Jcp

open StdString

/-- The bytes of a package. -/
def Item.bytes (lib : JsonLib) (item : Item) : Bytes := (item.encode lib).getD []

/-- With every chunk the receiver parses packages until that fails, and keeps the
rest. -/
def receive (lib : JsonLib) (chunks : List Bytes) : List Package × Bytes :=
  Incremental.receive (decodeOne lib) chunks

/-- A chunk ends in front of the zero byte of a head. -/
def CutBeforeZero (lib : JsonLib) (items : List Item) (chunks : List Bytes) : Prop :=
  ∃ front before head after, front <+: chunks ∧ items = before ++ head :: after
    ∧ head.IsHead ∧ front.flatten ++ [0] = (before ++ [head]).flatMap (Item.bytes lib)

section Decode

variable {lib : JsonLib} {item : Item}

theorem Item.IsHead.data_eq (h : item.IsHead) : item.data = [] := by
  cases item with
  | head name size => rfl
  | frame name data index => exact absurd h id
  | message content => exact absurd h id

/-- The bytes of a package and their header. -/
theorem exists_header (hlib : lib.Lawful) (h : item.ValidName) :
    ∃ text, lib.dump (.object item.members) = some text ∧ 0 ∉ text
      ∧ lib.parse text = some (.object item.members)
      ∧ item.bytes lib = text ++ [0] ++ item.data := by
  obtain ⟨text, hdump, h0, hparse⟩ := hlib.roundTrip (Item.isHeader_members h)
  refine ⟨text, hdump, h0, hparse, ?_⟩
  rw [Item.bytes, item.encode_eq, hdump]
  rfl

/-- No text is empty, since there are two of them. -/
theorem parse_nil (hlib : lib.Lawful) (hcut : lib.RefusesCut) : lib.parse [] = none := by
  have hheader : ∀ content, IsHeader (Item.message content).members :=
    fun content => Item.isHeader_members trivial
  obtain ⟨text, hdump, -, hparse⟩ := hlib.roundTrip (hheader [])
  obtain ⟨text', hdump', -, hparse'⟩ := hlib.roundTrip (hheader [0])
  by_cases h : [] = text
  · refine hcut.parse_eq_none (hheader [0]) hdump' List.nil_prefix fun h' => ?_
    rw [← h] at hparse
    rw [← h', hparse] at hparse'
    exact absurd hparse' (by simp [Item.members, sizeOf])
  · exact hcut.parse_eq_none (hheader []) hdump List.nil_prefix h

/-- Nothing parses where there is no header. -/
theorem decodeOne_of_no_header (hnil : lib.parse [] = none) {str : Bytes}
    (h : str.takeWhile (· != 0) = []) : decodeOne lib str = none := by
  unfold decodeOne Package.fromString
  rw [h]
  dsimp only
  rw [hnil]

/-- A package that is cut short is refused, unless only the zero byte of a head is
missing. -/
theorem decodeOne_of_cut (hlib : lib.Lawful) (hcut : lib.RefusesCut) (h : item.ValidName)
    {t u : Bytes} (hlen : (item.bytes lib).length < 2 ^ 64) (hword : item.bytes lib = t ++ u)
    (hu : u ≠ []) (hnot : ¬ (item.IsHead ∧ item.bytes lib = t ++ [0])) :
    decodeOne lib t = none := by
  obtain ⟨text, hdump, h0, hparse, hbytes⟩ := exists_header hlib h
  rw [hbytes] at hlen hword hnot
  have hne : t ≠ text ++ [0] ++ item.data := by
    rw [hword]
    exact fun heq => hu (List.self_eq_append_right.mp heq)
  obtain ⟨ok, p, usedBytes, hfrom, -, hiff⟩ := fromString_of_cut hcut h hdump h0 hparse hlen
    ⟨u, hword.symm⟩ hne {}
  have hrefused : (ok, usedBytes) = (false, 0) := by
    refine hiff.mpr ?_
    rintro ⟨hhead, hone⟩
    -- the only byte that is missing is the zero byte
    refine hnot ⟨hhead, ?_⟩
    rw [hhead.data_eq, List.append_nil] at hone hword ⊢
    have hlast : t = text := by
      refine List.append_inj_left hword.symm ?_
      rw [List.length_append] at hone
      exact Nat.succ_injective hone
    rw [hlast]
  cases hrefused
  rw [decodeOne, hfrom]

/-- Without its zero byte a head is accepted, and one byte too many is used. -/
theorem decodeOne_of_cut_zero (hlib : lib.Lawful) (h : item.ValidName) (hhead : item.IsHead)
    {t : Bytes} (hlen : (item.bytes lib).length < 2 ^ 64) (hword : item.bytes lib = t ++ [0]) :
    (∃ members, lib.parse t = some (.object members))
      ∧ decodeOne lib t = some (item.decoded, t.length + 1) := by
  obtain ⟨text, -, h0, hparse, hbytes⟩ := exists_header hlib h
  rw [hbytes, hhead.data_eq, List.append_nil] at hlen hword
  obtain rfl : t = text := (List.append_cancel_right hword).symm
  have hused : (sizeOf t + 1).toNat = t.length + 1 := by
    have hsum : sizeOf t + 1 = sizeOf (t ++ [0]) := (sizeOf_append t [0]).symm
    rw [hsum, toNat_sizeOf hlen, List.length_append]
    rfl
  refine ⟨⟨_, hparse⟩, ?_⟩
  rw [decodeOne, fromString_of_cut_zero {} h0 hparse hhead]
  dsimp only
  rw [hused]
  cases item with
  | head name size => rfl
  | frame name data index => exact absurd hhead id
  | message content => exact absurd hhead id

/-- **What the decoder does at every place of a stream.** -/
theorem decoder (hlib : lib.Lawful) (hcut : lib.RefusesCut) :
    Incremental.Decoder (fun item : {item : Item // item.ValidName} => item.val.bytes lib)
      (fun item => item.val.decoded) (2 ^ 64) (decodeOne lib)
      (fun item cut => item.val.IsHead ∧ item.val.bytes lib = cut ++ [0]) where
  ne_nil := by
    rintro ⟨item, h⟩
    obtain ⟨text, -, -, -, hbytes⟩ := exists_header hlib h
    dsimp only
    rw [hbytes, List.append_assoc]
    exact List.append_ne_nil_of_right_ne_nil _ (List.cons_ne_nil 0 _)
  word := by
    rintro ⟨item, h⟩ rest hlen
    obtain ⟨str, hstr, hdecode⟩ := decodeOne_encode hlib h
    have hbytes : item.bytes lib = str := by rw [Item.bytes, hstr, Option.getD_some]
    dsimp only at hlen ⊢
    rw [hbytes] at hlen ⊢
    exact hdecode rest hlen
  nil := decodeOne_of_no_header (parse_nil hlib hcut) rfl
  refuse := by
    rintro ⟨item, h⟩ t u hlen hword hu hnot
    exact decodeOne_of_cut hlib hcut h hlen hword hu hnot
  accept := by
    rintro ⟨item, h⟩ t hlen ⟨hhead, hword⟩
    obtain ⟨⟨members, hparse⟩, hdecode⟩ := decodeOne_of_cut_zero hlib h hhead hlen hword
    refine ⟨0, t.length + 1, hword, ?_, Nat.le_succ _, hdecode,
      fun r => decodeOne_of_no_header (parse_nil hlib hcut) rfl⟩
    rintro rfl
    rw [parse_nil hlib hcut] at hparse
    cases hparse

end Decode

/-- The packages with a name in UTF-8. -/
theorem exists_map_val {items : List Item} (hnames : ∀ item ∈ items, item.ValidName) :
    ∃ l : List {item : Item // item.ValidName}, l.map Subtype.val = items :=
  ⟨items.attachWith _ hnames, List.attachWith_map_subtype_val _⟩

theorem cutEarly_iff {lib : JsonLib} (hlib : lib.Lawful)
    {l : List {item : Item // item.ValidName}} {chunks : List Bytes} :
    Incremental.CutEarly (fun item : {item : Item // item.ValidName} => item.val.bytes lib)
        (fun item cut => item.val.IsHead ∧ item.val.bytes lib = cut ++ [0]) l chunks
      ↔ CutBeforeZero lib (l.map Subtype.val) chunks := by
  constructor
  · rintro ⟨front, g, m, l', t, hfront, rfl, hfed, hhead, hword⟩
    refine ⟨front, g.map Subtype.val, m.val, l'.map Subtype.val, hfront, ?_, hhead, ?_⟩
    · rw [List.map_append, List.map_cons]
    · rw [hfed, List.flatMap_append, List.flatMap_singleton, hword, List.flatMap_map,
        List.append_assoc]
  · rintro ⟨front, before, head, after, hfront, hitems, hhead, hfed⟩
    obtain ⟨g, r, rfl, rfl, hr⟩ := List.map_eq_append_iff.mp hitems
    obtain ⟨m, l', rfl, rfl, rfl⟩ := List.map_eq_cons_iff.mp hr
    obtain ⟨text, -, -, -, hbytes⟩ := exists_header hlib m.property
    rw [hhead.data_eq, List.append_nil] at hbytes
    refine ⟨front, g, m, l', text, hfront, rfl, ?_, hhead, hbytes⟩
    rw [List.flatMap_append, List.flatMap_singleton, hbytes, List.flatMap_map,
      ← List.append_assoc] at hfed
    exact List.append_cancel_right hfed

/-- **The packages come out of every cutting, exactly unless a chunk ends in front of
the zero byte of a head.**  Then all that comes out are the packages up to a head. -/
theorem receive_iff {lib : JsonLib} (hlib : lib.Lawful) (hcut : lib.RefusesCut)
    {items : List Item} (hnames : ∀ item ∈ items, item.ValidName) :
    ∃ strs, items.mapM (Item.encode lib) = some strs
      ∧ (strs.flatten.length < 2 ^ 64 → ∀ chunks : List Bytes, chunks.flatten = strs.flatten →
        (receive lib chunks = (items.map Item.decoded, []) ↔ ¬ CutBeforeZero lib items chunks)
          ∧ (CutBeforeZero lib items chunks → ∃ before head after,
            items = before ++ head :: after ∧ head.IsHead
              ∧ receive lib chunks = ((before ++ [head]).map Item.decoded,
                  0 :: after.flatMap (Item.bytes lib)))) := by
  have hencode : ∀ item ∈ items, item.encode lib = some (item.bytes lib) := by
    intro item hitem
    obtain ⟨str, hstr, -⟩ := decodeOne_encode hlib (hnames item hitem)
    rw [Item.bytes, hstr, Option.getD_some]
  refine ⟨items.map (Item.bytes lib), mapM_eq_some hencode, ?_⟩
  rw [← List.flatMap_def]
  obtain ⟨l, rfl⟩ := exists_map_val hnames
  rw [List.flatMap_map]
  intro hlen chunks hflat
  rw [← cutEarly_iff hlib]
  constructor
  · rw [List.map_map]
    exact (decoder hlib hcut).receive_eq_iff hflat hlen
  · intro hearly
    have hrest : chunks.flatten ++ []
        = l.flatMap fun item : {item : Item // item.ValidName} => item.val.bytes lib := by
      rw [List.append_nil, hflat]
    obtain ⟨g, m, l', t, z, buf, rfl, ⟨hhead, hword⟩, hword', hrec, hbuf, -⟩ :=
      (decoder hlib hcut).exists_stuck hlen hearly hrest
    obtain rfl : 0 = z :=
      List.singleton_injective (List.append_cancel_left (hword.symm.trans hword'))
    rw [List.append_nil] at hbuf
    refine ⟨g.map Subtype.val, m.val, l'.map Subtype.val, ?_, hhead, ?_⟩
    · rw [List.map_append, List.map_cons]
    · rw [receive, hrec, hbuf, List.flatMap_map, ← List.map_singleton, ← List.map_append,
        List.map_map]
      rfl

/-- The bytes of a message that is a seven. -/
def sevenText : Bytes := ascii "\x7b\"size\":1,\"type\":\"message\"\x7d" ++ [0, 7]

/-- A head and a message come out of two chunks that are cut between them, but not of
two that are cut one byte earlier. -/
theorem receive_head_message :
    receive flatLib [headText ++ [0], sevenText]
        = ([(Item.head (ascii "a") 3).decoded, (Item.message [7]).decoded], [])
      ∧ receive flatLib [headText, [0] ++ sevenText]
        = ([(Item.head (ascii "a") 3).decoded], [0] ++ sevenText) := by
  have ha : ValidUtf8 (ascii "a") := ⟨['a'], by decide⟩
  obtain ⟨strs, hstrs, hreceive⟩ := @receive_iff flatLib flatLib_lawful flatLib_refusesCut
    [.head (ascii "a") 3, .message [7]]
    (List.forall_mem_cons.2 ⟨ha, List.forall_mem_singleton.2 trivial⟩)
  have hbytes : [Item.head (ascii "a") 3, .message [7]].mapM (Item.encode flatLib)
      = some [headText ++ [0], sevenText] := by
    decide +kernel
  obtain rfl : strs = [headText ++ [0], sevenText] :=
    Option.some.inj (hstrs.symm.trans hbytes)
  -- the only head is the first package
  have hfirst : ∀ {before head after}, [Item.head (ascii "a") 3, .message [7]]
      = before ++ head :: after → head.IsHead →
        before = [] ∧ head = .head (ascii "a") 3 ∧ after = [.message [7]] := by
    intro before head after h hhead
    match before, h with
    | [], h => cases h; exact ⟨rfl, rfl, rfl⟩
    | [_], h => cases h; exact absurd hhead id
    | _ :: _ :: before, h => cases before <;> cases h
  have hhead : (Item.head (ascii "a") 3).bytes flatLib = headText ++ [0] := by decide +kernel
  have hmessage : (Item.message [7]).bytes flatLib = sevenText := by decide +kernel
  specialize hreceive (by decide +kernel)
  refine ⟨(hreceive _ rfl).1.mpr ?_, ?_⟩
  · rintro ⟨front, before, head, after, hfront, hitems, hishead, hfed⟩
    obtain ⟨rfl, rfl, rfl⟩ := hfirst hitems hishead
    rw [List.nil_append, List.flatMap_singleton, hhead] at hfed
    have hlen : front.flatten.length = 35 := congrArg List.length (List.append_cancel_right hfed)
    rcases List.prefix_cons_iff.mp hfront with rfl | ⟨front, rfl, -⟩
    · exact absurd hlen (by decide)
    · have htext : (headText ++ [0]).length = 36 := by decide +kernel
      rw [List.flatten_cons, List.length_append, htext] at hlen
      omega
  · obtain ⟨before, head, after, hitems, hishead, hrec⟩ :=
      (hreceive [headText, [0] ++ sevenText] (by decide +kernel)).2
        ⟨[headText], [], _, _, ⟨_, rfl⟩, rfl, trivial, by
          rw [List.nil_append, List.flatMap_singleton, hhead]
          rfl⟩
    obtain ⟨rfl, rfl, rfl⟩ := hfirst hitems hishead
    rw [hrec, List.flatMap_singleton, hmessage]
    rfl

end AndrenBoost.Jcp
