import AndrenBoost.Spl.Outcome

/-!
# Packages from a cut stream

A stream of packages is cut into fragments, and each is pushed and checked until
there is no more success.  The packages come out if every fragment is made of
whole packages and the last of them has data.

## Main definitions

* `ChecksTo s s'` — `check` until it no longer reports `OK`.
* `Feeds s fragments s'` — a push and its checks for each fragment.
* `DecodesTo ms fragments` — the fragments give the messages back.
* `AlignedCut ms fragments` — every fragment is made of whole packages, the last
  of which has data.

## Main results

* `checksTo_after_iff` — packages at the front of the buffer come out first.
* `decodes_of_alignedCut` — **an aligned cut decodes.**
-/

namespace AndrenBoost.Spl

open StdString

/-! ### Feeding a receiver -/

/-- `check` is called until it no longer reports `OK`. -/
inductive ChecksTo : SplProtocol → SplProtocol → Prop
  | stop {s s' : SplProtocol} {et : CheckType} (hc : s.check = .ok (et, s'))
      (hno : et.hasOk = false) : ChecksTo s s'
  | again {s s' s'' : SplProtocol} {et : CheckType} (hc : s.check = .ok (et, s'))
      (hok : et.hasOk = true) (h : ChecksTo s' s'') : ChecksTo s s''

/-- Fragments are pushed one by one, each followed by its checks. -/
inductive Feeds : SplProtocol → List Bytes → SplProtocol → Prop
  | nil (s : SplProtocol) : Feeds s [] s
  | cons {s s' s'' : SplProtocol} {f : Bytes} {fs : List Bytes} (hf : ChecksTo (s.pushData f) s')
      (hfs : Feeds s' fs s'') : Feeds s (f :: fs) s''

/-- After a successful check the checks go on. -/
theorem checksTo_iff_of_hasOk {s s' t : SplProtocol} {et : CheckType}
    (hc : s.check = .ok (et, s')) (hok : et.hasOk = true) : ChecksTo s t ↔ ChecksTo s' t := by
  constructor
  · intro h
    cases h with
    | stop hc' hno =>
      rw [hc] at hc'
      cases hc'
      rw [hno] at hok
      exact absurd hok Bool.false_ne_true
    | again hc' _ h' =>
      rw [hc] at hc'
      cases hc'
      exact h'
  · exact .again hc hok

/-- A failed check is the last one. -/
theorem checksTo_iff_of_not_hasOk {s s' t : SplProtocol} {et : CheckType}
    (hc : s.check = .ok (et, s')) (hno : et.hasOk = false) : ChecksTo s t ↔ t = s' := by
  constructor
  · intro h
    cases h with
    | stop hc' _ =>
      rw [hc] at hc'
      cases hc'
      rfl
    | again hc' hok _ =>
      rw [hc] at hc'
      cases hc'
      rw [hno] at hok
      exact absurd hok Bool.false_ne_true
  · rintro rfl
    exact .stop hc hno

/-- The checks end in one state only. -/
theorem ChecksTo.unique {s t t' : SplProtocol} (h : ChecksTo s t) (h' : ChecksTo s t') :
    t = t' := by
  induction h with
  | stop hc hno => exact ((checksTo_iff_of_not_hasOk hc hno).1 h').symm
  | again hc hok _ ih => exact ih ((checksTo_iff_of_hasOk hc hok).1 h')

/-- `n` packages are fetched. -/
def fetchPackages : ℕ → SplProtocol → Except Fault (List SplPackage × SplProtocol)
  | 0, s => .ok ([], s)
  | n + 1, s => do
    let (p, s) ← s.fetchOnePackage
    let (ps, s) ← fetchPackages n s
    return (p :: ps, s)

/-- All that is ready can be fetched, in order. -/
theorem fetchPackages_length (s : SplProtocol) :
    fetchPackages s.waitReadQue.length s = .ok (s.waitReadQue, { s with waitReadQue := [] }) := by
  obtain ⟨history, que, input⟩ := s
  induction que with
  | nil => rfl
  | cons p que ih =>
    show (fetchPackages que.length ⟨history, que, input⟩ >>= _) = _
    rw [ih]
    rfl

/-! ### The stream and its cuts -/

/-- The fields a reader of the packages looks at. -/
def contents (p : SplPackage) : Bytes × Bytes × Bytes := (p.service, p.request, p.data)

/-- The fragments give the messages back, and nothing is left over. -/
def DecodesTo (ms : List Message) (fragments : List Bytes) : Prop :=
  ∃ s s' ps, Feeds .fresh fragments s ∧ fetchPackages s.waitReadQue.length s = .ok (ps, s')
    ∧ ps.map contents = ms.map (fun m => contents m.toPackage) ∧ s'.historyData = []

/-- Every fragment is made of whole packages, the last of which has data. -/
def AlignedCut (ms : List Message) (fragments : List Bytes) : Prop :=
  ∃ groups : List (List Message), groups.flatten = ms ∧ groups.map encodeAll = fragments
    ∧ ∀ g ∈ groups, ∃ m ∈ g.getLast?, m.data ≠ []

/-! ### Aligned cuts decode -/

theorem fetched_of_empty {s : SplProtocol} (h : s.inputor = some {}) : s.fetched = s := by
  obtain ⟨history, que, input⟩ := s
  cases h
  rfl

theorem nextBuffer_pushData {s : SplProtocol} (h : s.inputor = some {}) (f : Bytes) :
    (s.pushData f).nextBuffer = f ++ s.historyData := by
  unfold SplProtocol.nextBuffer SplProtocol.pushData
  rw [h]
  rfl

theorem single_pushData {s : SplProtocol} (h : s.inputor = some {}) (f : Bytes) :
    Single (s.pushData f) := by
  unfold Single SplProtocol.fetched SplProtocol.pushData
  rw [h]
  rfl

theorem fetched_pushData {s : SplProtocol} (h : s.inputor = some {}) (f : Bytes) :
    (s.pushData f).fetched = s := by
  obtain ⟨history, que, input⟩ := s
  cases h
  rfl

/-- The state after the messages were taken off the front of the buffer. -/
def SplProtocol.after (s : SplProtocol) (g : List Message) (rest : Bytes) : SplProtocol :=
  { s.fetched with historyData := rest, waitReadQue := s.waitReadQue ++ g.map Message.delivered }

/-- Whole packages at the front of the buffer are delivered one by one. -/
theorem checksTo_after_iff {s t : SplProtocol} {g : List Message} {rest : Bytes} (hs : Single s)
    (hg : g ≠ []) (hbuf : s.nextBuffer = encodeAll g ++ rest) (hlen : s.nextBuffer.length ≤ maxHeld)
    (hlast : ∀ m ∈ g.getLast?, m.data ++ rest ≠ []) :
    ChecksTo s t ↔ ChecksTo (s.after g rest) t := by
  induction g generalizing s with
  | nil => exact absurd rfl hg
  | cons m g ih =>
    rw [encodeAll_cons, List.append_assoc] at hbuf
    have hne : m.data ++ (encodeAll g ++ rest) ≠ [] := by
      cases g with
      | nil => exact hlast m rfl
      | cons m' g =>
        apply List.append_ne_nil_of_right_ne_nil
        rw [encodeAll_cons, List.append_assoc]
        exact List.append_ne_nil_of_left_ne_nil m'.encode_ne_nil _
    obtain ⟨et, hok, hcheck⟩ := SplProtocol.check_encode hbuf hne hlen
    rw [checksTo_iff_of_hasOk hcheck hok]
    cases g with
    | nil => rfl
    | cons m' g =>
      -- after the first message the buffer is the history, and nothing is waiting
      have hin : (s.after [m] (encodeAll (m' :: g) ++ rest)).inputor = some {} := hs
      have hbuf' : (s.after [m] (encodeAll (m' :: g) ++ rest)).nextBuffer
          = encodeAll (m' :: g) ++ rest := by
        rw [SplProtocol.nextBuffer, hin]
        rfl
      have hlen' : (s.after [m] (encodeAll (m' :: g) ++ rest)).nextBuffer.length ≤ maxHeld := by
        rw [hbuf, List.length_append] at hlen
        rw [hbuf']
        exact (Nat.le_add_left _ _).trans hlen
      have hstep := ih (single_of_empty hin) (List.cons_ne_nil m' g) hbuf' hlen'
        (by rwa [List.getLast?_cons_cons] at hlast)
      have hafter : (s.after [m] (encodeAll (m' :: g) ++ rest)).after (m' :: g) rest
          = s.after (m :: m' :: g) rest := by
        rw [SplProtocol.after, fetched_of_empty hin]
        show (⟨rest, s.waitReadQue ++ [m.delivered] ++ (m' :: g).map Message.delivered,
          s.fetched.inputor⟩ : SplProtocol) = _
        rw [List.append_assoc]
        rfl
      rw [hafter] at hstep
      exact hstep

/-- A fragment made of whole packages, the last of which has data, is used up. -/
theorem checksTo_pushData {s : SplProtocol} {g : List Message} (hin : s.inputor = some {})
    (hhist : s.historyData = []) (hlen : (encodeAll g).length ≤ maxHeld)
    (hlast : ∃ m ∈ g.getLast?, m.data ≠ []) :
    ChecksTo (s.pushData (encodeAll g))
      { s with waitReadQue := s.waitReadQue ++ g.map Message.delivered } := by
  obtain ⟨m, hm, hdata⟩ := hlast
  have hg : g ≠ [] := by
    rintro rfl
    cases hm
  have hbuf : (s.pushData (encodeAll g)).nextBuffer = encodeAll g ++ [] := by
    rw [nextBuffer_pushData hin, hhist]
  have hafter : (s.pushData (encodeAll g)).after g []
      = { s with waitReadQue := s.waitReadQue ++ g.map Message.delivered } := by
    rw [SplProtocol.after, fetched_pushData hin, ← hhist]
    rfl
  rw [checksTo_after_iff (single_pushData hin _) hg hbuf (by rwa [hbuf, List.append_nil])
    (fun m' hm' => by
      cases Option.mem_unique hm hm'
      rwa [List.append_nil]), hafter]
  have hnil : ({ s with waitReadQue := s.waitReadQue ++ g.map Message.delivered } :
      SplProtocol).nextBuffer = [] := by
    unfold SplProtocol.nextBuffer
    dsimp only
    rw [hin]
    exact hhist
  obtain ⟨et, hcheck, hno⟩ := SplProtocol.check_of_nil hnil
  rw [fetched_of_empty (by exact hin)] at hcheck
  exact .stop hcheck hno

/-- Fragments made of whole packages, the last of which has data. -/
theorem feeds_of_groups {s : SplProtocol} {groups : List (List Message)}
    (hin : s.inputor = some {}) (hhist : s.historyData = [])
    (hlen : ∀ g ∈ groups, (encodeAll g).length ≤ maxHeld)
    (hlast : ∀ g ∈ groups, ∃ m ∈ g.getLast?, m.data ≠ []) :
    Feeds s (groups.map encodeAll)
      { s with waitReadQue := s.waitReadQue ++ groups.flatten.map Message.delivered } := by
  induction groups generalizing s with
  | nil =>
    simp only [List.flatten_nil, List.map_nil, List.append_nil]
    exact .nil s
  | cons g groups ih =>
    have hhead := checksTo_pushData hin hhist (hlen g List.mem_cons_self)
      (hlast g List.mem_cons_self)
    have htail := ih (s := { s with waitReadQue := s.waitReadQue ++ g.map Message.delivered })
      hin hhist (fun g' hg' => hlen g' (List.mem_cons_of_mem g hg'))
      (fun g' hg' => hlast g' (List.mem_cons_of_mem g hg'))
    rw [List.flatten_cons, List.map_append, ← List.append_assoc]
    exact .cons hhead htail

/-- An aligned cut decodes. -/
theorem decodes_of_alignedCut {ms : List Message} {fragments : List Bytes}
    (hlen : ∀ f ∈ fragments, f.length ≤ maxHeld) (hcut : AlignedCut ms fragments) :
    DecodesTo ms fragments := by
  obtain ⟨groups, rfl, rfl, hlast⟩ := hcut
  have hfeeds := feeds_of_groups (s := .fresh) rfl rfl
    (fun g hg => hlen _ (List.mem_map_of_mem hg)) hlast
  refine ⟨_, _, _, hfeeds, fetchPackages_length _, ?_, rfl⟩
  show ([] ++ groups.flatten.map Message.delivered).map contents = _
  rw [List.nil_append, List.map_map]
  rfl

end AndrenBoost.Spl
