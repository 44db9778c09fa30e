import Mathlib.Tactic.Common

/-!
# What calls can tell

A system takes calls one after another.  Each call gives an answer and a new state,
or fails.  Two states are indistinguishable if every sequence of calls is answered
alike from both, and for that it suffices that a relation between states is kept by
every call while the answers agree.

## Main definitions

* `Observation.observe step s ops` — the answers to a sequence of calls.
* `Observation.Indistinguishable step s t` — all sequences are answered alike.
* `Observation.Alike R` — results that agree, with states related by `R`.

## Main results

* `Observation.indistinguishable_of_alike` — **a relation that calls keep.**
-/

namespace Observation

variable {S Op O F : Type*}

/-- The answers to a sequence of calls, up to the first that fails. -/
def observe (step : S → Op → Except F (O × S)) : S → List Op → Except F (List O)
  | _, [] => .ok []
  | s, op :: ops => (step s op).bind fun r => (observe step r.2 ops).map fun os => r.1 :: os

/-- Every sequence of calls is answered alike from both states. -/
def Indistinguishable (step : S → Op → Except F (O × S)) (s t : S) : Prop :=
  ∀ ops, observe step s ops = observe step t ops

/-- The same answer with related states, or the same failure. -/
inductive Alike (R : S → S → Prop) : Except F (O × S) → Except F (O × S) → Prop
  | ok (o : O) {s t : S} (h : R s t) : Alike R (.ok (o, s)) (.ok (o, t))
  | error (e : F) : Alike R (.error e) (.error e)

/-- **A relation that calls keep**, with the same answers, relates states that are
indistinguishable. -/
theorem indistinguishable_of_alike {step : S → Op → Except F (O × S)} {R : S → S → Prop}
    (hstep : ∀ s t op, R s t → Alike R (step s op) (step t op)) {s t : S} (h : R s t) :
    Indistinguishable step s t := by
  intro ops
  induction ops generalizing s t with
  | nil => rfl
  | cons op ops ih =>
    have hfirst := hstep s t op h
    rw [observe, observe]
    generalize step s op = x at hfirst ⊢
    generalize step t op = y at hfirst ⊢
    cases hfirst with
    | ok o hst =>
      show (observe step _ ops).map _ = (observe step _ ops).map _
      rw [ih hst]
    | error e => rfl

/-- The first answer tells states apart. -/
theorem Indistinguishable.fst_eq {step : S → Op → Except F (O × S)} {s t s' t' : S} {o o' : O}
    {op : Op} (h : Indistinguishable step s t) (hs : step s op = .ok (o, s'))
    (ht : step t op = .ok (o', t')) : o = o' := by
  have hobs := h [op]
  rw [observe, observe, hs, ht] at hobs
  simpa [Except.bind, Except.map, observe] using hobs

end Observation
