import AndrenBoost.Spl.Stream

/-!
# Packages cut in two

A fragment that ends inside a package leaves the first part of it for the next
fragment, and `check` puts that fragment in front.  The string it then parses
begins with the first line only if the fragment does, or if one of the fields
holds that line; else the fragment is dropped, and its bytes are missing in the
end.

## Main definitions

* `HeadFree ms` — the first line occurs only where a package begins.

## Main results

* `Feeds.accounted_le` — a run accounts for no more bytes than it was fed.
* `alignedCut_of_decodes` — **a cut that decodes is aligned**, if the packages
  have data and the first line does not occur in them.
* `alignedCut_law` — an aligned cut decodes, and that converse.
* `cut_in_header_lost` — a package cut behind its second line.
-/

namespace AndrenBoost.Spl

open StdString

/-! ### Accounting for a run -/

/-- The checks account for no more bytes than there were. -/
theorem ChecksTo.shrinks {s t : SplProtocol} (h : ChecksTo s t) (hs : Single s)
    (hlen : s.held ≤ maxHeld) : Shrinks s t := by
  induction h with
  | stop hc hno =>
    obtain ⟨i, hi⟩ := hs.exists_inputor
    exact (check_outcome hi (by rwa [← hs.held]) hc).shrinks hs
  | again hc hok _ ih =>
    obtain ⟨i, hi⟩ := hs.exists_inputor
    have hstep := (check_outcome hi (by rwa [← hs.held]) hc).shrinks hs
    exact hstep.trans (ih (single_of_empty hstep.inputor) (hstep.held.trans hlen))

theorem accounted_pushData {s : SplProtocol} (h : s.inputor = some {}) (f : Bytes) :
    (s.pushData f).accounted = s.accounted + f.length := by
  unfold SplProtocol.accounted
  rw [SplProtocol.held_pushData h, ← Nat.add_assoc]
  rfl

/-- Pushing a fragment and checking accounts for no more than the fragment. -/
theorem ChecksTo.accounted_le {s s' : SplProtocol} {f : Bytes} (h : ChecksTo (s.pushData f) s')
    (hin : s.inputor = some {}) (hlen : s.held + f.length ≤ maxHeld) :
    s'.inputor = some {} ∧ s'.held ≤ s.held + f.length
      ∧ (HasData s' → HasData s ∧ s'.accounted ≤ s.accounted + f.length) := by
  have hpush := SplProtocol.held_pushData hin f
  have hshrinks := h.shrinks (single_pushData hin f) (by omega)
  have hheld := hshrinks.held
  rw [hpush] at hheld
  refine ⟨hshrinks.inputor, hheld, fun hs' => ⟨hshrinks.hasData hs', ?_⟩⟩
  rw [← accounted_pushData hin]
  exact hshrinks.accounted hs'

/-- A run accounts for no more bytes than it was fed. -/
theorem Feeds.accounted_le {s t : SplProtocol} {fs : List Bytes} (h : Feeds s fs t)
    (hin : s.inputor = some {}) (hlen : s.held + fs.flatten.length ≤ maxHeld) (ht : HasData t) :
    HasData s ∧ t.accounted ≤ s.accounted + fs.flatten.length := by
  induction h with
  | nil s => exact ⟨ht, Nat.le_refl _⟩
  | @cons s s' t f fs hf hfs ih =>
    rw [List.flatten_cons, List.length_append] at hlen ⊢
    obtain ⟨hin', hheld, hstep⟩ := hf.accounted_le hin (by omega)
    obtain ⟨hs', hrun⟩ := ih hin' (by omega) ht
    obtain ⟨hs, hle⟩ := hstep hs'
    exact ⟨hs, by omega⟩

/-! ### The first part of a package -/

/-- A package whose end is missing stays in the history, or is dropped. -/
theorem historyData_of_partial {s t : SplProtocol} {m : Message} {x u : Bytes} (hs : Single s)
    (hbuf : s.nextBuffer = x) (hm : m.encode = x ++ u) (hlen : m.encode.length ≤ maxHeld)
    (hu : u ≠ []) (h : ChecksTo s t) (ht : HasData t) :
    t.historyData = x ∨ t = s.fetched := by
  obtain ⟨i, hi⟩ := hs.exists_inputor
  have hbuflen : s.nextBuffer.length ≤ maxHeld := by
    rw [hm, List.length_append] at hlen
    rw [hbuf]
    omega
  cases h with
  | stop hc hno =>
    cases check_outcome hi hbuflen hc with
    | dropped _ _ => exact Or.inr rfl
    | kept _ => exact Or.inl hbuf
    | delivered hok =>
      rw [hno] at hok
      exact absurd hok Bool.false_ne_true
    | emptied _ hp _ =>
      exact absurd hp (ht _ (List.mem_append_right _ (List.mem_singleton_self _)))
  | again hc hok h' =>
    cases check_outcome hi hbuflen hc with
    | dropped hno _ =>
      rw [hno] at hok
      exact absurd hok Bool.false_ne_true
    | kept hno =>
      rw [hno] at hok
      exact absurd hok Bool.false_ne_true
    | emptied hno _ _ =>
      rw [hno] at hok
      exact absurd hok Bool.false_ne_true
    | @delivered h d body _ hd hdata _ hle =>
      -- the header is that of the package, and declares more than there is
      have hsplit : m.header.bytes ++ m.data = h.bytes ++ (body ++ u) := by
        rw [← Message.encode_eq, hm, ← hbuf, hdata, List.append_assoc]
      obtain ⟨rfl, hbody⟩ := Header.bytes_append_inj hsplit
      have hsize : m.data.length < 2 ^ 63 := by
        rw [Message.encode_eq, List.length_append, maxHeld] at hlen
        omega
      have hd' := m.declares hsize
      rw [Header.Declares, hd] at hd'
      cases hd'
      have hpos := List.length_pos_iff.2 hu
      rw [hbody, List.length_append] at hle
      omega

/-- The first line occurs only where a package begins. -/
def HeadFree (ms : List Message) : Prop :=
  ∀ pre post, encodeAll ms = pre ++ firstLine ++ post →
    ∃ ms₁ ms₂, ms = ms₁ ++ ms₂ ∧ pre = encodeAll ms₁

theorem HeadFree.suffix {g ms : List Message} (h : HeadFree (g ++ ms)) : HeadFree ms := by
  intro pre post hpre
  obtain ⟨ms₁, ms₂, hms, heq⟩ := h (encodeAll g ++ pre) post (by
    rw [encodeAll_append, hpre]
    simp only [List.append_assoc])
  obtain ⟨ms₁', rfl, hpre'⟩ := prefixCode_encode.exists_of_flatMap_append heq
  rw [List.append_assoc] at hms
  exact ⟨ms₁', ms₂, List.append_cancel_left hms, hpre'⟩

/-- Behind a cut inside a package no fragment brings the first line to the front. -/
theorem not_firstLine_of_cut {g l : List Message} {m : Message} {x u f r : Bytes}
    (hfree : HeadFree (g ++ m :: l)) (hm : m.encode = x ++ u) (hx : x ≠ []) (hu : u ≠ [])
    (hf : f ≠ []) (hr : f ++ r = u ++ encodeAll l) : ¬ firstLine <+: f ++ x := by
  by_cases hlt : f.length < firstLine.length
  · obtain ⟨rest, hrest⟩ := m.exists_encode_eq_firstLine
    apply not_firstLine_isPrefix hf hlt
    obtain ⟨b, x', rfl⟩ := List.exists_cons_of_ne_nil hx
    have hfirst : (firstLine ++ rest)[0]? = (b :: x' ++ u)[0]? := by rw [← hrest, hm]
    exact hfirst.symm
  · intro hpre
    -- the fragment itself begins with the first line
    obtain ⟨f', rfl⟩ := List.prefix_of_prefix_length_le hpre (List.prefix_append f x)
      (Nat.not_lt.1 hlt)
    obtain ⟨ms₁, ms₂, hms, hpre'⟩ := hfree (encodeAll g ++ x) (f' ++ r) (by
      rw [encodeAll_append, encodeAll_cons, hm, List.append_assoc x u]
      rw [List.append_assoc] at hr
      show encodeAll g ++ (x ++ (u ++ encodeAll l)) = _
      rw [← hr]
      simp only [List.append_assoc])
    obtain ⟨ms₁', -, hx'⟩ := prefixCode_encode.exists_of_flatMap_append hpre'
    exact prefixCode_encode.flatMap_ne_of_append_eq hm hx hu ms₁' hx'

/-! ### No other cut decodes -/

/-- What a fragment that ends inside a package leaves behind: the first part of
the package, or, if that is all there was, the state before. -/
theorem historyData_of_cut {s t : SplProtocol} {g : List Message} {m : Message} {x u : Bytes}
    (hin : s.inputor = some {}) (hhist : s.historyData = []) (hdata : ∀ m ∈ g, m.data ≠ [])
    (hm : m.encode = x ++ u) (hmlen : m.encode.length ≤ maxHeld) (hu : u ≠ [])
    (hlen : (encodeAll g ++ x).length ≤ maxHeld) (h : ChecksTo (s.pushData (encodeAll g ++ x)) t)
    (ht : HasData t) : t.historyData = x ∨ t = s := by
  have hbuf : (s.pushData (encodeAll g ++ x)).nextBuffer = encodeAll g ++ x := by
    rw [nextBuffer_pushData hin, hhist, List.append_nil]
  have hsingle := single_pushData hin (encodeAll g ++ x)
  by_cases hg : g = []
  · subst hg
    have hpart := historyData_of_partial hsingle hbuf hm hmlen hu h ht
    rwa [fetched_pushData hin] at hpart
  · left
    -- the whole packages come out first
    have hlast : ∀ m ∈ g.getLast?, m.data ++ x ≠ [] := fun m' hm' =>
      List.append_ne_nil_of_left_ne_nil (hdata m' (List.mem_of_getLast? hm')) x
    rw [checksTo_after_iff hsingle hg hbuf (by rwa [hbuf]) hlast] at h
    -- the whole packages are delivered, and only the first part is left to parse
    have hin' : ((s.pushData (encodeAll g ++ x)).after g x).inputor = some {} := hsingle
    have hbuf' : ((s.pushData (encodeAll g ++ x)).after g x).nextBuffer = x := by
      rw [SplProtocol.nextBuffer, hin']
      rfl
    obtain hx | ht' := historyData_of_partial (single_of_empty hin') hbuf' hm hmlen hu h ht
    · exact hx
    · rw [ht']
      rfl

/-- Bytes are lost when the first fragment ends inside a package: the fragment is
dropped, or it leaves the first part of the package, and the next one is. -/
theorem accounted_lt_of_cut {s t : SplProtocol} {fs : List Bytes} {g l : List Message}
    {m : Message} {x u : Bytes} (hfeeds : Feeds s ((encodeAll g ++ x) :: fs) t)
    (hin : s.inputor = some {}) (hhist : s.historyData = []) (hne : ∀ f ∈ fs, f ≠ [])
    (hm : m.encode = x ++ u) (hx : x ≠ []) (hu : u ≠ []) (hrest : fs.flatten = u ++ encodeAll l)
    (hdata : ∀ m' ∈ g, m'.data ≠ []) (hfree : HeadFree (g ++ m :: l))
    (hlen : (encodeAll (g ++ m :: l)).length ≤ maxHeld) (ht : HasData t) :
    t.accounted < s.accounted + ((encodeAll g ++ x) :: fs).flatten.length := by
  have hheld : s.held = 0 := by
    rw [held_of_empty hin, hhist]
    rfl
  have hmlen : (encodeAll g).length + (x.length + u.length) + (encodeAll l).length ≤ maxHeld := by
    rw [encodeAll_append, encodeAll_cons, hm] at hlen
    simp only [List.length_append] at hlen
    omega
  have hfs : fs.flatten.length = u.length + (encodeAll l).length := by
    rw [hrest, List.length_append]
  have hflen : (encodeAll g ++ x).length = (encodeAll g).length + x.length := List.length_append
  have hxpos := List.length_pos_iff.2 hx
  rw [List.flatten_cons, List.length_append]
  cases hfeeds with
  | @cons _ s' _ _ _ hf hfeeds' =>
    obtain ⟨hin', hheld', hstep⟩ := hf.accounted_le hin (by omega)
    obtain ⟨hs', hrun⟩ := hfeeds'.accounted_le hin' (by omega) ht
    have hle := (hstep hs').2
    obtain hx' | rfl := historyData_of_cut hin hhist hdata hm
      (by rw [hm, List.length_append]; omega) hu (by omega) hf hs'
    · -- the next fragment comes before the first part of the package
      cases hfeeds' with
      | nil s => exact absurd (List.append_eq_nil_iff.1 hrest.symm).1 hu
      | @cons _ s'' _ f' fs' hf' hfs' =>
        have hf'ne := hne f' List.mem_cons_self
        have hline := not_firstLine_of_cut hfree hm hx hu hf'ne hrest
        rw [← hx', ← nextBuffer_pushData hin'] at hline
        obtain ⟨et, hcheck, hno⟩ := check_of_not_firstLine hline
        rw [fetched_pushData hin'] at hcheck
        obtain rfl := (checksTo_iff_of_not_hasOk hcheck hno).1 hf'
        have hsplit : (f' :: fs').flatten.length = f'.length + fs'.flatten.length := by
          rw [List.flatten_cons, List.length_append]
        obtain ⟨-, hrun'⟩ := hfs'.accounted_le hin' (by omega) ht
        have hf'pos := List.length_pos_iff.2 hf'ne
        omega
    · -- the fragment was dropped
      omega

/-- A run from an empty history that accounts for every byte of the stream was fed
an aligned cut of it. -/
theorem alignedCut_of_feeds {s t : SplProtocol} {fs : List Bytes} {ms : List Message}
    (hfeeds : Feeds s fs t) (hin : s.inputor = some {}) (hhist : s.historyData = [])
    (hne : ∀ f ∈ fs, f ≠ []) (hstream : fs.flatten = encodeAll ms)
    (hdata : ∀ m ∈ ms, m.data ≠ []) (hfree : HeadFree ms)
    (hlen : (encodeAll ms).length ≤ maxHeld) (ht : HasData t)
    (hacc : s.accounted + fs.flatten.length ≤ t.accounted) : AlignedCut ms fs := by
  induction fs generalizing s ms with
  | nil =>
    rw [prefixCode_encode.flatMap_eq_nil hstream.symm]
    exact ⟨[], rfl, rfl, fun g hg => absurd hg List.not_mem_nil⟩
  | cons f fs ih =>
    rw [List.forall_mem_cons] at hne
    rw [List.flatten_cons] at hstream
    obtain ⟨g, l, rfl, rfl, hrest⟩ | ⟨g, m, l, x, u, rfl, rfl, hm, hx, hu, hrest⟩ :=
      exists_of_append_eq_encodeAll hstream
    · -- the fragment ends with a package
      have hg : g ≠ [] := by
        rintro rfl
        exact hne.1 rfl
      have hlast : ∃ m ∈ g.getLast?, m.data ≠ [] :=
        ⟨g.getLast hg, List.getLast?_eq_getLast_of_ne_nil hg,
          hdata _ (List.mem_append_left _ (List.getLast_mem hg))⟩
      rw [encodeAll_append, List.length_append] at hlen
      rw [List.flatten_cons, List.length_append] at hacc
      cases hfeeds with
      | cons hf hfs =>
        have hheld : s.held = 0 := by
          rw [held_of_empty hin, hhist]
          rfl
        have hfs' : fs.flatten.length = (encodeAll l).length := congrArg List.length hrest
        obtain ⟨hin', hheld', hstep⟩ := hf.accounted_le hin (by omega)
        obtain ⟨hs', -⟩ := hfs.accounted_le hin' (by omega) ht
        have hle := (hstep hs').2
        obtain rfl := hf.unique (checksTo_pushData hin hhist (by omega) hlast)
        obtain ⟨groups, rfl, rfl, hgroups⟩ := ih hfs hin hhist hne.2 hrest
          (fun m hm => hdata m (List.mem_append_right _ hm)) hfree.suffix
          (by omega) (by omega)
        exact ⟨g :: groups, rfl, rfl, List.forall_mem_cons.2 ⟨hlast, hgroups⟩⟩
    · have hlt := accounted_lt_of_cut hfeeds hin hhist hne.2 hm hx hu hrest
        (fun m' hm' => hdata m' (List.mem_append_left _ hm')) hfree hlen ht
      omega

theorem weight_eq_of_contents {p : SplPackage} {m : Message}
    (h : contents p = contents m.toPackage) : weight p = m.encode.length := by
  obtain ⟨hservice, hrequest, hdata⟩ : p.service = m.service ∧ p.request = m.request
      ∧ p.data = m.data := by
    cases h' : p
    rw [h'] at h
    cases h
    exact ⟨rfl, rfl, rfl⟩
  rw [weight, hservice, hrequest, hdata]
  rfl

theorem sum_weight_of_contents {ps : List SplPackage} {ms : List Message}
    (h : ps.map contents = ms.map fun m => contents m.toPackage) :
    (ps.map weight).sum = (encodeAll ms).length := by
  induction ps generalizing ms with
  | nil =>
    cases ms with
    | nil => rfl
    | cons m ms => exact absurd h (by rintro ⟨⟩)
  | cons p ps ih =>
    cases ms with
    | nil => exact absurd h (by rintro ⟨⟩)
    | cons m ms =>
      rw [List.map_cons, List.map_cons, List.cons.injEq] at h
      rw [List.map_cons, List.sum_cons, weight_eq_of_contents h.1, ih h.2]
      rw [encodeAll_cons, List.length_append]

/-- A cut that decodes is aligned. -/
theorem alignedCut_of_decodes {ms : List Message} {fragments : List Bytes}
    (hcut : fragments.flatten = encodeAll ms) (hne : ∀ f ∈ fragments, f ≠ [])
    (hlen : (encodeAll ms).length ≤ maxHeld) (hdata : ∀ m ∈ ms, m.data ≠ [])
    (hfree : HeadFree ms) (h : DecodesTo ms fragments) : AlignedCut ms fragments := by
  obtain ⟨s, s', ps, hfeeds, hfetch, hps, -⟩ := h
  rw [fetchPackages_length] at hfetch
  cases hfetch
  -- the packages that came out are those sent, and these have data
  have hs : HasData s := by
    intro p hp
    have hmem : contents p ∈ ms.map fun m => contents m.toPackage := by
      rw [← hps]
      exact List.mem_map_of_mem hp
    obtain ⟨m, hm, heq⟩ := List.mem_map.1 hmem
    have hpdata : m.data = p.data := congrArg (fun c => c.2.2) heq
    rw [← hpdata]
    exact hdata m hm
  refine alignedCut_of_feeds hfeeds rfl rfl hne hcut hdata hfree hlen hs ?_
  show 0 + _ ≤ (s.waitReadQue.map weight).sum + s.held
  rw [sum_weight_of_contents hps, hcut]
  omega

/-- An aligned cut of a stream decodes; and only an aligned one does, if the
packages have data and the first line does not occur in them. -/
theorem alignedCut_law {ms : List Message} {fragments : List Bytes}
    (hcut : fragments.flatten = encodeAll ms) (hne : ∀ f ∈ fragments, f ≠ [])
    (hlen : ∀ f ∈ fragments, f.length ≤ maxHeld) :
    (AlignedCut ms fragments → DecodesTo ms fragments)
      ∧ ((encodeAll ms).length ≤ maxHeld → (∀ m ∈ ms, m.data ≠ []) → HeadFree ms →
          DecodesTo ms fragments → AlignedCut ms fragments) :=
  ⟨decodes_of_alignedCut hlen, alignedCut_of_decodes hcut hne⟩

/-! ### A package in two fragments -/

/-- The first line occurs in a package at its beginning only. -/
theorem headFree_ping : HeadFree [ping] := by
  intro pre post h
  have honly : ∀ k ≤ (encodeAll [ping]).length,
      firstLine <+: (encodeAll [ping]).drop k → k = 0 := by
    decide +kernel
  have hle : pre.length ≤ (encodeAll [ping]).length := by
    rw [h, List.append_assoc, List.length_append]
    exact Nat.le_add_right _ _
  have hpre : firstLine <+: (encodeAll [ping]).drop pre.length := by
    rw [h, List.append_assoc, List.drop_left]
    exact List.prefix_append _ _
  exact ⟨[], [ping], rfl, List.length_eq_zero_iff.1 (honly _ hle hpre)⟩

/-- A package in one fragment and two in another decode; and one that is decoded
from one fragment was cut so. -/
theorem alignedCut_law_pings :
    DecodesTo [ping, ping, ping] [encodeAll [ping], encodeAll [ping, ping]]
      ∧ AlignedCut [ping] [encodeAll [ping]] := by
  have hthree : AlignedCut [ping, ping, ping] [encodeAll [ping], encodeAll [ping, ping]] := by
    refine ⟨[[ping], [ping, ping]], rfl, rfl, ?_⟩
    intro g hg
    obtain rfl | rfl : g = [ping] ∨ g = [ping, ping] := by simpa using hg
    · exact ⟨ping, rfl, by decide⟩
    · exact ⟨ping, rfl, by decide⟩
  have hone : DecodesTo [ping] [encodeAll [ping]] := by
    refine (alignedCut_law (by decide +kernel) (by decide +kernel) (by decide +kernel)).1
      ⟨[[ping]], rfl, rfl, ?_⟩
    intro g hg
    rw [List.mem_singleton.1 hg]
    exact ⟨ping, rfl, by decide⟩
  constructor
  · exact (alignedCut_law (by decide +kernel) (by decide +kernel) (by decide +kernel)).1
      hthree
  · exact (alignedCut_law (by decide +kernel) (by decide +kernel) (by decide +kernel)).2
      (by decide +kernel) (by decide) headFree_ping hone

/-- The first two lines of a package, then the rest of it: the rest is dropped. -/
theorem cut_in_header_lost :
    [ping.encode.take 25, ping.encode.drop 25].flatten = encodeAll [ping]
      ∧ ¬ DecodesTo [ping] [ping.encode.take 25, ping.encode.drop 25] := by
  refine ⟨by decide +kernel, ?_⟩
  rintro ⟨s, s', ps, hfeeds, hfetch, hps, -⟩
  have hfirst : (SplProtocol.fresh.pushData (ping.encode.take 25)).check
      = .ok (.failedRequest, { SplProtocol.fresh with historyData := ping.encode.take 25 }) := by
    decide +kernel
  have hsecond : (SplProtocol.pushData { SplProtocol.fresh with historyData := ping.encode.take 25 }
      (ping.encode.drop 25)).check
      = .ok (.failedHead, { SplProtocol.fresh with historyData := ping.encode.take 25 }) := by
    decide +kernel
  cases hfeeds with
  | cons hf hfs =>
    obtain rfl := (checksTo_iff_of_not_hasOk hfirst rfl).1 hf
    cases hfs with
    | cons hf' hfs' =>
      obtain rfl := (checksTo_iff_of_not_hasOk hsecond rfl).1 hf'
      cases hfs'
      cases hfetch
      exact absurd hps (by rintro ⟨⟩)

end AndrenBoost.Spl
