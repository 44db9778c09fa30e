import Mathlib.Data.Set.Basic
import Mathlib.Data.List.Induction
import Mathlib.Tactic.Common

/-!
# Reduction of interleaved runs

One thread calls an operation that takes several steps, and other threads take
steps between them.  If each of the others' steps can be moved out of the operation,
to the front or to the back as its *cut* says, then the run is one in which the
operation takes place at once.

## Main definitions

* `Steps T s w s'` — a run from `s` to `s'` whose steps are labelled `w`.
* `Footprint T view l reads writes` — the parts of the state a step depends on,
  and those it changes.
* `Swaps T a b` — a step `b` right after a step `a` can be taken before it.
* `Moves R w w'` — the same steps in another order.
* `Thread T stage pc` — the labels with a stage are the steps of one thread, which
  takes its stages in turn and may stop after each.
* `Movers R stage cut` — which steps give way to which.
* `Serial stage w` — the stages of an operation stand together.

## Main results

* `swaps_of_footprints` — **Bernstein's conditions**: steps that do not touch what
  the other one reads or changes can be swapped.
* `Moves.filterMap_eq` — what a new order keeps.
* `exists_serial` — an interleaved run can be put in serial order.
* `exists_atomic` — **reduction**: it is a run of the operations as wholes.
-/

namespace Reduction

variable {S L : Type*}

/-! ### Runs -/

/-- A run from one state to another, with the labels of its steps. -/
inductive Steps (T : S → L → S → Prop) : S → List L → S → Prop
  | nil (s : S) : Steps T s [] s
  | cons {s s₁ s' : S} {l : L} {w : List L} (h : T s l s₁) (hs : Steps T s₁ w s') :
      Steps T s (l :: w) s'

section Steps

variable {T : S → L → S → Prop} {s s' : S}

theorem steps_nil_iff : Steps T s [] s' ↔ s = s' := by
  constructor
  · intro h
    cases h
    rfl
  · rintro rfl
    exact .nil s

theorem steps_cons_iff {l : L} {w : List L} :
    Steps T s (l :: w) s' ↔ ∃ s₁, T s l s₁ ∧ Steps T s₁ w s' := by
  constructor
  · intro h
    cases h with
    | cons h hs => exact ⟨_, h, hs⟩
  · rintro ⟨s₁, h, hs⟩
    exact .cons h hs

theorem steps_append_iff {u v : List L} :
    Steps T s (u ++ v) s' ↔ ∃ s₁, Steps T s u s₁ ∧ Steps T s₁ v s' := by
  induction u generalizing s with
  | nil =>
    rw [List.nil_append]
    exact ⟨fun h => ⟨s, .nil s, h⟩, fun ⟨s₁, h, hs⟩ => by rwa [steps_nil_iff.mp h]⟩
  | cons l u ih =>
    rw [List.cons_append, steps_cons_iff]
    constructor
    · rintro ⟨s₁, h, hs⟩
      obtain ⟨s₂, hu, hv⟩ := ih.mp hs
      exact ⟨s₂, .cons h hu, hv⟩
    · rintro ⟨s₂, hu, hv⟩
      obtain ⟨s₁, h, hs⟩ := steps_cons_iff.mp hu
      exact ⟨s₁, h, ih.mpr ⟨s₂, hs, hv⟩⟩

theorem steps_singleton_iff {l : L} : Steps T s [l] s' ↔ T s l s' := by
  rw [steps_cons_iff]
  constructor
  · rintro ⟨s₁, h, hs⟩
    rwa [← steps_nil_iff.mp hs]
  · intro h
    exact ⟨s', h, .nil s'⟩

end Steps

/-! ### Swapping two steps -/

/-- A step `b` right after a step `a` can be taken before it. -/
def Swaps (T : S → L → S → Prop) (a b : L) : Prop :=
  ∀ ⦃s s₁ s' : S⦄, T s a s₁ → T s₁ b s' → ∃ s₂, T s b s₂ ∧ T s₂ a s'

section Footprint

variable {K : Type*} {C : K → Type*}

/-- A step depends on the parts `reads` of the state only, and changes the parts
`writes` only. -/
structure Footprint (T : S → L → S → Prop) (view : ∀ k, S → C k) (l : L)
    (reads writes : Set K) : Prop where
  frame : ∀ ⦃s s' : S⦄, T s l s' → ∀ k ∉ writes, view k s' = view k s
  depends : ∀ ⦃s s' t : S⦄, T s l s' → (∀ k ∈ reads, view k t = view k s) →
    ∃ t', T t l t' ∧ ∀ k ∈ writes, view k t' = view k s'

variable {T : S → L → S → Prop} {view : ∀ k, S → C k} {a b : L}
  {readsA writesA readsB writesB : Set K}

/-- **Bernstein's conditions.**  Steps that do not touch what the other one reads or
changes can be swapped. -/
theorem swaps_of_footprints (hext : ∀ s t : S, (∀ k, view k s = view k t) → s = t)
    (ha : Footprint T view a readsA writesA) (hb : Footprint T view b readsB writesB)
    (hab : ∀ k ∈ writesA, k ∉ readsB) (hba : ∀ k ∈ writesB, k ∉ readsA)
    (hww : ∀ k ∈ writesA, k ∉ writesB) : Swaps T a b := by
  intro s s₁ s' hsa hsb
  -- `b` reads the same in `s` as after `a`, and `a` the same after `b` as in `s`
  obtain ⟨s₂, htb, heqb⟩ := hb.depends hsb (t := s) fun k hk =>
    (ha.frame hsa k fun hk' => hab k hk' hk).symm
  obtain ⟨s₃, hta, heqa⟩ := ha.depends hsa (t := s₂) fun k hk =>
    hb.frame htb k fun hk' => hba k hk' hk
  suffices heq : s₃ = s' from ⟨s₂, htb, heq ▸ hta⟩
  refine hext _ _ fun k => ?_
  by_cases hka : k ∈ writesA
  · rw [heqa k hka, hb.frame hsb k (hww k hka)]
  · rw [ha.frame hta k hka]
    by_cases hkb : k ∈ writesB
    · exact heqb k hkb
    · rw [hb.frame htb k hkb, hb.frame hsb k hkb, ha.frame hsa k hka]

end Footprint

/-! ### Other orders of the same steps -/

/-- The steps `w` in an order `w'` that is reached by swapping a step `a` with a
step `b` right behind it where `R a b`. -/
inductive Moves (R : L → L → Prop) : List L → List L → Prop
  | refl (w : List L) : Moves R w w
  | cons (l : L) {w w' : List L} (h : Moves R w w') : Moves R (l :: w) (l :: w')
  | swap {a b : L} (h : R a b) (w : List L) : Moves R (a :: b :: w) (b :: a :: w)
  | trans {w w' w'' : List L} (h : Moves R w w') (h' : Moves R w' w'') : Moves R w w''

namespace Moves

variable {R : L → L → Prop} {w w' : List L}

theorem append_left (u : List L) (h : Moves R w w') : Moves R (u ++ w) (u ++ w') := by
  induction u with
  | nil => exact h
  | cons l u ih => exact ih.cons l

theorem append_right (h : Moves R w w') (v : List L) : Moves R (w ++ v) (w' ++ v) := by
  induction h with
  | refl w => exact .refl _
  | cons l _ ih => exact ih.cons l
  | swap hab w => exact .swap hab (w ++ v)
  | trans _ _ ih ih' => exact ih.trans ih'

/-- A step moves ahead of steps that give way to it. -/
theorem ahead {l : L} : ∀ {u : List L}, (∀ a ∈ u, R a l) → Moves R (u ++ [l]) (l :: u) := by
  intro u
  induction u with
  | nil => intro _; exact .refl _
  | cons a u ih =>
    intro h
    rw [List.forall_mem_cons] at h
    exact ((ih h.2).cons a).trans (.swap h.1 u)

/-- The new order is a run to the same state. -/
theorem steps {T : S → L → S → Prop} (hR : ∀ a b, R a b → Swaps T a b) (h : Moves R w w') :
    ∀ {s s' : S}, Steps T s w s' → Steps T s w' s' := by
  induction h with
  | refl w => intro s s' hrun; exact hrun
  | cons l _ ih =>
    intro s s' hrun
    obtain ⟨s₁, hl, hrun⟩ := steps_cons_iff.mp hrun
    exact .cons hl (ih hrun)
  | swap hab w =>
    intro s s' hrun
    obtain ⟨s₁, ha, hrun⟩ := steps_cons_iff.mp hrun
    obtain ⟨s₂, hb, hrun⟩ := steps_cons_iff.mp hrun
    obtain ⟨s₃, hb, ha⟩ := hR _ _ hab ha hb
    exact .cons hb (.cons ha hrun)
  | trans _ _ ih ih' => intro s s' hrun; exact ih' (ih hrun)

/-- What is read off the steps keeps its order, unless two steps are swapped that
both show something. -/
theorem filterMap_eq {M : Type*} {f : L → Option M}
    (hf : ∀ a b, R a b → f a = none ∨ f b = none) (h : Moves R w w') :
    w.filterMap f = w'.filterMap f := by
  induction h with
  | refl w => rfl
  | cons l _ ih => rw [List.filterMap_cons, List.filterMap_cons, ih]
  | @swap a b hab w =>
    rw [List.filterMap_cons, List.filterMap_cons, List.filterMap_cons, List.filterMap_cons]
    rcases hf a b hab with ha | hb
    · rw [ha]
    · rw [hb]
  | trans _ _ ih ih' => exact ih.trans ih'

end Moves

/-! ### Operations in stages -/

/-- The labels with a stage are the steps of one thread.  `pc` says which stage is
next: the following one, or the first one if the operation is over. -/
structure Thread (T : S → L → S → Prop) (stage : L → Option ℕ) (pc : S → ℕ) : Prop where
  own : ∀ ⦃s s' : S⦄ ⦃l : L⦄ ⦃j : ℕ⦄, T s l s' → stage l = some j →
    pc s = j ∧ (pc s' = 0 ∨ pc s' = j + 1)
  other : ∀ ⦃s s' : S⦄ ⦃l : L⦄, T s l s' → stage l = none → pc s' = pc s

/-- Which steps give way to which.  A step of another thread that comes before the
stage `cut x` moves to the front of the operation, any later one to its back. -/
structure Movers (R : L → L → Prop) (stage : L → Option ℕ) (cut : L → ℕ) : Prop where
  front : ∀ ⦃c x : L⦄ ⦃j : ℕ⦄, stage c = some j → stage x = none → j + 1 < cut x → R c x
  back : ∀ ⦃x c : L⦄ ⦃j : ℕ⦄, stage x = none → stage c = some j → cut x ≤ j → R x c
  others : ∀ ⦃x y : L⦄, stage x = none → stage y = none → cut x < cut y → R x y

/-- The stages of an operation, from the first one on. -/
def IsBlock (stage : L → Option ℕ) (b : List L) : Prop :=
  b.map stage = (List.range b.length).map some

/-- The stages of each operation stand together. -/
inductive Serial (stage : L → Option ℕ) : List L → Prop
  | nil : Serial stage []
  | other {x : L} {w : List L} (hx : stage x = none) (h : Serial stage w) : Serial stage (x :: w)
  | block {b w : List L} (hb : IsBlock stage b) (hne : b ≠ []) (h : Serial stage w) :
      Serial stage (b ++ w)

section Serial

variable {stage : L → Option ℕ}

theorem Serial.append {u v : List L} (hu : Serial stage u) (hv : Serial stage v) :
    Serial stage (u ++ v) := by
  induction hu with
  | nil => exact hv
  | other hx _ ih => exact .other hx ih
  | block hb hne _ ih =>
    rw [List.append_assoc]
    exact .block hb hne ih

theorem serial_of_others : ∀ {w : List L}, (∀ x ∈ w, stage x = none) → Serial stage w := by
  intro w
  induction w with
  | nil => intro _; exact .nil
  | cons x w ih =>
    intro h
    rw [List.forall_mem_cons] at h
    exact .other h.1 (ih h.2)

theorem IsBlock.serial {b : List L} (hb : IsBlock stage b) : Serial stage b := by
  by_cases hne : b = []
  · rw [hne]
    exact .nil
  · rw [← List.append_nil b]
    exact .block hb hne .nil

theorem isBlock_nil : IsBlock stage [] := rfl

/-- The next stage. -/
theorem IsBlock.concat {b : List L} {l : L} (hb : IsBlock stage b)
    (hl : stage l = some b.length) : IsBlock stage (b ++ [l]) := by
  rw [IsBlock, List.map_append, hb, List.length_append, List.length_singleton, List.range_succ,
    List.map_append, List.map_singleton, List.map_singleton, hl]

theorem IsBlock.stage_of_mem {b : List L} (hb : IsBlock stage b) {l : L} (hl : l ∈ b) :
    ∃ j < b.length, stage l = some j := by
  have hmem := List.mem_map_of_mem (f := stage) hl
  rw [hb] at hmem
  obtain ⟨j, hj, heq⟩ := List.mem_map.mp hmem
  exact ⟨j, List.mem_range.mp hj, heq.symm⟩

end Serial

/-! ### Reduction -/

section Reduction

variable {T : S → L → S → Prop} {R : L → L → Prop} {stage : L → Option ℕ} {pc : S → ℕ}
  {cut : L → ℕ}

/-- A run up to some moment: what is in serial order already, the stages of the
operation under way, and the steps of others that go behind it. -/
structure Gathered (R : L → L → Prop) (stage : L → Option ℕ) (cut : L → ℕ)
    (w done block later : List L) : Prop where
  moves : Moves R w (done ++ (block ++ later))
  serial : Serial stage done
  isBlock : IsBlock stage block
  behind : ∀ x ∈ later, stage x = none ∧ cut x ≤ block.length

namespace Gathered

variable {w done block later : List L}

theorem serial_all (h : Gathered R stage cut w done block later) :
    Serial stage (done ++ (block ++ later)) :=
  h.serial.append (h.isBlock.serial.append (serial_of_others fun x hx => (h.behind x hx).1))

theorem moves_concat (h : Gathered R stage cut w done block later) (l : L) :
    Moves R (w ++ [l]) (done ++ (block ++ (later ++ [l]))) := by
  have := h.moves.append_right [l]
  rwa [List.append_assoc, List.append_assoc] at this

/-- A step of another thread goes to the front of the operation or to its back. -/
theorem other (h : Gathered R stage cut w done block later) (hM : Movers R stage cut) {l : L}
    (hl : stage l = none) :
    ∃ done' later', Gathered R stage cut (w ++ [l]) done' block later' := by
  by_cases hcut : block.length < cut l
  · refine ⟨done ++ [l], later, ?_, h.serial.append (serial_of_others (by simpa using hl)),
      h.isBlock, h.behind⟩
    have hahead : Moves R ((block ++ later) ++ [l]) (l :: (block ++ later)) := by
      refine Moves.ahead fun a ha => ?_
      rcases List.mem_append.mp ha with ha | ha
      · obtain ⟨j, hj, hstage⟩ := h.isBlock.stage_of_mem ha
        exact hM.front hstage hl (by omega)
      · exact hM.others (h.behind a ha).1 hl ((h.behind a ha).2.trans_lt hcut)
    have hmoves := (h.moves_concat l).trans
      (Moves.append_left done (by rwa [List.append_assoc] at hahead))
    rwa [List.append_assoc]
  · refine ⟨done, later ++ [l], h.moves_concat l, h.serial, h.isBlock, fun x hx => ?_⟩
    rcases List.mem_append.mp hx with hx | hx
    · exact h.behind x hx
    · rw [List.mem_singleton.mp hx]
      exact ⟨hl, Nat.le_of_not_lt hcut⟩

/-- The first stage closes what was under way. -/
theorem first (h : Gathered R stage cut w done block later) {l : L} (hl : stage l = some 0) :
    Gathered R stage cut (w ++ [l]) (done ++ (block ++ later)) [l] [] where
  moves := by
    have := h.moves_concat l
    rwa [List.append_nil, List.append_assoc, List.append_assoc]
  serial := h.serial_all
  isBlock := isBlock_nil.concat hl
  behind := fun x hx => absurd hx List.not_mem_nil

/-- A later stage moves up to the stages before it. -/
theorem next (h : Gathered R stage cut w done block later) (hM : Movers R stage cut) {l : L}
    (hl : stage l = some block.length) :
    Gathered R stage cut (w ++ [l]) done (block ++ [l]) later where
  moves := by
    have hahead : Moves R (later ++ [l]) (l :: later) := Moves.ahead fun x hx =>
      hM.back (h.behind x hx).1 hl (h.behind x hx).2
    refine (h.moves_concat l).trans (Moves.append_left done ?_)
    rw [List.append_assoc]
    exact Moves.append_left block hahead
  serial := h.serial
  isBlock := h.isBlock.concat hl
  behind := fun x hx => by
    rw [List.length_append]
    exact ⟨(h.behind x hx).1, (h.behind x hx).2.trans (Nat.le_add_right _ _)⟩

end Gathered

/-- Every run can be gathered. -/
theorem exists_gathered (hT : Thread T stage pc) (hM : Movers R stage cut) {s : S}
    (hstart : pc s = 0) {w : List L} : ∀ {s' : S}, Steps T s w s' →
      ∃ done block later, Gathered R stage cut w done block later
        ∧ (pc s' = 0 ∨ pc s' = block.length) := by
  induction w using List.reverseRecOn with
  | nil =>
    intro s' hrun
    rw [← steps_nil_iff.mp hrun]
    exact ⟨[], [], [], ⟨.refl [], .nil, isBlock_nil, fun x hx => absurd hx List.not_mem_nil⟩,
      Or.inl hstart⟩
  | append_singleton w l ih =>
    intro s' hrun
    obtain ⟨s₁, hrun, hl⟩ := steps_append_iff.mp hrun
    rw [steps_singleton_iff] at hl
    obtain ⟨done, block, later, h, hpc⟩ := ih hrun
    cases hstage : stage l with
    | none =>
      obtain ⟨done', later', h'⟩ := h.other hM hstage
      rw [hT.other hl hstage]
      exact ⟨done', block, later', h', hpc⟩
    | some j =>
      obtain ⟨hj, hnext⟩ := hT.own hl hstage
      by_cases h0 : j = 0
      · subst h0
        exact ⟨_, _, _, h.first hstage, hnext⟩
      · have hlen : j = block.length := by omega
        subst hlen
        refine ⟨_, _, _, h.next hM hstage, hnext.imp id fun hsucc => ?_⟩
        rw [hsucc, List.length_append, List.length_singleton]

/-- **An interleaved run can be put in serial order.** -/
theorem exists_serial (hT : Thread T stage pc) (hM : Movers R stage cut)
    (hR : ∀ a b, R a b → Swaps T a b) {s s' : S} {w : List L} (hrun : Steps T s w s')
    (hstart : pc s = 0) : ∃ w', Moves R w w' ∧ Serial stage w' ∧ Steps T s w' s' := by
  obtain ⟨done, block, later, h, -⟩ := exists_gathered hT hM hstart hrun
  exact ⟨_, h.moves, h.serial_all, h.moves.steps hR hrun⟩

/-- In a serial run to a state between two operations, so are the states in front
of a step of another thread and of a first stage. -/
theorem Serial.pc_eq_zero (hT : Thread T stage pc) {w : List L} (h : Serial stage w) :
    ∀ {s s' : S}, Steps T s w s' → pc s' = 0 → pc s = 0 := by
  induction h with
  | nil =>
    intro s s' hrun hend
    rwa [steps_nil_iff.mp hrun]
  | other hx _ ih =>
    intro s s' hrun hend
    obtain ⟨s₁, hstep, hrest⟩ := steps_cons_iff.mp hrun
    rw [← hT.other hstep hx]
    exact ih hrest hend
  | @block b w hb hne _ _ =>
    intro s s' hrun _
    obtain ⟨l, b, rfl⟩ := List.exists_cons_of_ne_nil hne
    obtain ⟨s₁, hstep, -⟩ := steps_cons_iff.mp hrun
    have hl : stage l = some 0 := by
      rw [IsBlock, List.map_cons, List.length_cons, List.range_succ_eq_map, List.map_cons,
        List.cons.injEq] at hb
      exact hb.1
    exact (hT.own hstep hl).1

variable {S' M : Type*} {T' : S' → M → S' → Prop} {abs : S → S'} {read : L → Option M}

/-- **Reduction.**  If a step of another thread is a step of the specification, and
the stages of an operation that nobody interrupts are one step of it, then every
interleaved run that begins and ends between two operations is a run of the
specification, in an order reached by swaps. -/
theorem exists_atomic (hT : Thread T stage pc) (hM : Movers R stage cut)
    (hR : ∀ a b, R a b → Swaps T a b)
    (hother : ∀ ⦃s s' : S⦄ ⦃x : L⦄, stage x = none → T s x s' →
      ∃ m, read x = some m ∧ T' (abs s) m (abs s'))
    (hblock : ∀ ⦃s s' : S⦄ ⦃b : List L⦄, IsBlock stage b → b ≠ [] → Steps T s b s' →
      pc s' = 0 → ∃ m, b.filterMap read = [m] ∧ T' (abs s) m (abs s'))
    {s s' : S} {w : List L} (hrun : Steps T s w s') (hstart : pc s = 0) (hend : pc s' = 0) :
    ∃ w', Moves R w w' ∧ Steps T' (abs s) (w'.filterMap read) (abs s') := by
  obtain ⟨w', hmoves, hserial, hrun'⟩ := exists_serial hT hM hR hrun hstart
  refine ⟨w', hmoves, ?_⟩
  clear hmoves hrun hstart
  induction hserial generalizing s with
  | nil =>
    rw [steps_nil_iff.mp hrun']
    exact .nil _
  | other hx _ ih =>
    obtain ⟨s₁, hstep, hrest⟩ := steps_cons_iff.mp hrun'
    obtain ⟨m, hm, hstep'⟩ := hother hx hstep
    rw [List.filterMap_cons, hm]
    exact .cons hstep' (ih hrest)
  | block hb hne hw ih =>
    obtain ⟨s₁, hsteps, hrest⟩ := steps_append_iff.mp hrun'
    obtain ⟨m, hm, hstep'⟩ := hblock hb hne hsteps (hw.pc_eq_zero hT hrest hend)
    rw [List.filterMap_append, hm]
    exact .cons hstep' (ih hrest)

end Reduction

end Reduction
