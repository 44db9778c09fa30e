import Mathlib.Data.List.Basic
import Mathlib.Tactic.Common

/-!
# One component of a machine

A machine takes actions one after another and may refuse one.  A *component* of it
is a part of its state that only some of the actions touch, and touch in a way that
depends on that part alone.  What a run makes of a component is then what the
component's own actions make of it, whatever stands between them; so the order of
actions of different components makes no difference to any of them.

## Main definitions

* `Component.IsComponent step view mine act` — the part `view` of the state is
  changed by the actions in `mine` only, and by these as `act` says.

## Main results

* `IsComponent.view_foldlM` — a component after a run.
* `foldlM_invariant` — what a run keeps.
* `exists_foldlM` — a run none of whose actions is refused ends in some state.
-/

namespace Component

variable {F S C A : Type*}

/-- A part of the state, the actions that touch it, and what they make of it. -/
structure IsComponent (step : S → A → Except F S) (view : S → C) (mine : A → Prop)
    (act : C → A → C) : Prop where
  /-- An action of the component. -/
  own : ∀ {s s' a}, step s a = .ok s' → mine a → view s' = act (view s) a
  /-- Any other action. -/
  frame : ∀ {s s' a}, step s a = .ok s' → ¬ mine a → view s' = view s

/-- A run that starts with `a`. -/
theorem foldlM_cons_eq_ok {step : S → A → Except F S} {s s' : S} {a : A} {as : List A} :
    (a :: as).foldlM step s = .ok s' ↔ ∃ s₁, step s a = .ok s₁ ∧ as.foldlM step s₁ = .ok s' := by
  rw [List.foldlM_cons]
  cases h : step s a with
  | error e => simp [bind, Except.bind]
  | ok s₁ => simp [bind, Except.bind]

/-- A run in two parts. -/
theorem foldlM_append_eq_ok {step : S → A → Except F S} {s s' : S} {as bs : List A} :
    (as ++ bs).foldlM step s = .ok s' ↔
      ∃ s₁, as.foldlM step s = .ok s₁ ∧ bs.foldlM step s₁ = .ok s' := by
  rw [List.foldlM_append]
  cases h : as.foldlM step s with
  | error e => simp [bind, Except.bind]
  | ok s₁ => simp [bind, Except.bind]

/-- What every action keeps, a run keeps. -/
theorem foldlM_invariant {step : S → A → Except F S} (P : S → Prop)
    (hstep : ∀ {s s' a}, step s a = .ok s' → P s → P s') {as : List A} {s s' : S}
    (hrun : as.foldlM step s = .ok s') (hs : P s) : P s' := by
  induction as generalizing s with
  | nil =>
    cases hrun
    exact hs
  | cons a as ih =>
    obtain ⟨s₁, ha, hrest⟩ := foldlM_cons_eq_ok.mp hrun
    exact ih hrest (hstep ha hs)

/-- A run none of whose actions is refused ends in some state. -/
theorem exists_foldlM {step : S → A → Except F S} : ∀ {as : List A} (s : S),
    (∀ a ∈ as, ∀ s, ∃ s', step s a = .ok s') → ∃ s', as.foldlM step s = .ok s' := by
  intro as
  induction as with
  | nil => intro s _; exact ⟨s, rfl⟩
  | cons a as ih =>
    intro s h
    rw [List.forall_mem_cons] at h
    obtain ⟨s₁, hstep⟩ := h.1 s
    obtain ⟨s', hrun⟩ := ih s₁ h.2
    exact ⟨s', foldlM_cons_eq_ok.mpr ⟨s₁, hstep, hrun⟩⟩

section Component

variable {step : S → A → Except F S} {view : S → C} {mine : A → Prop} [DecidablePred mine]
  {act : C → A → C}

/-- **A component after a run** is what its own actions make of it. -/
theorem IsComponent.view_foldlM (h : IsComponent step view mine act) :
    ∀ {as : List A} {s s' : S}, as.foldlM step s = .ok s' →
      view s' = (as.filter fun a => mine a).foldl act (view s) := by
  intro as
  induction as with
  | nil => intro s s' hrun; cases hrun; rfl
  | cons a as ih =>
    intro s s' hrun
    obtain ⟨s₁, hstep, hrest⟩ := foldlM_cons_eq_ok.mp hrun
    rw [ih hrest]
    by_cases ha : mine a
    · rw [List.filter_cons_of_pos (by simpa using ha), List.foldl_cons, h.own hstep ha]
    · rw [List.filter_cons_of_neg (by simpa using ha), h.frame hstep ha]

end Component

end Component
