import Mathlib.Data.List.Basic
import Mathlib.Tactic.Common

/-!
# Streams of self-delimiting words

Words that tell where they end can be written one after another and cut apart
again.  The words are lists over any alphabet, and a cut of the stream may fall
inside a word.

## Main definitions

* `PrefixCode encode` — no word continues another, and none is empty.
* `decodeMany decode n s` — `n` values taken off the front of `s`.

## Main results

* `PrefixCode.exists_of_flatMap_append` — a concatenation of words that is the
  front of another one is its front word by word.
* `exists_of_append_eq_flatMap` — where a cut of a stream can fall.
* `decodeMany_flatMap` — **a decoder that reads one word at the front reads a
  stream of them.**
-/

variable {M S V : Type*} {encode : M → List S}

/-! ### Delimiters -/

/-- What stands before the first delimiter, and what behind it. -/
theorem append_cons_inj_of_delimiter {c : S} {l l' r r' : List S} (hl : c ∉ l) (hl' : c ∉ l')
    (h : l ++ c :: r = l' ++ c :: r') : l = l' ∧ r = r' := by
  obtain ⟨k, rfl, hk⟩ | ⟨k, rfl, hk⟩ := List.append_eq_append_iff.1 h
  · cases k with
    | nil => exact ⟨(List.append_nil l).symm, (List.cons.inj hk).2⟩
    | cons b k =>
      obtain ⟨rfl, -⟩ := List.cons.inj hk
      exact absurd (List.mem_append_right l List.mem_cons_self) hl'
  · cases k with
    | nil => exact ⟨List.append_nil l', (List.cons.inj hk).2.symm⟩
    | cons b k =>
      obtain ⟨rfl, -⟩ := List.cons.inj hk
      exact absurd (List.mem_append_right l' List.mem_cons_self) hl

/-- A delimiter is the first one, or lies behind it. -/
theorem append_cons_cases_of_delimiter {c : S} {l r pre post : List S} (hl : c ∉ l)
    (h : l ++ c :: r = pre ++ c :: post) :
    post = r ∨ ∃ mid, r = mid ++ c :: post := by
  obtain ⟨k, rfl, hk⟩ | ⟨k, rfl, hk⟩ := List.append_eq_append_iff.1 h
  · cases k with
    | nil => exact Or.inl (List.cons.inj hk).2.symm
    | cons b k => exact Or.inr ⟨k, (List.cons.inj hk).2⟩
  · cases k with
    | nil => exact Or.inl (List.cons.inj hk).2
    | cons b k =>
      obtain ⟨rfl, -⟩ := List.cons.inj hk
      exact absurd (List.mem_append_right pre List.mem_cons_self) hl

/-! ### Prefix codes -/

/-- No word continues another, and none is empty. -/
structure PrefixCode (encode : M → List S) : Prop where
  ne_nil : ∀ m, encode m ≠ []
  append_inj : ∀ {m m' r r'}, encode m ++ r = encode m' ++ r' → m = m' ∧ r = r'

namespace PrefixCode

/-- A concatenation of words that is the front of another one. -/
theorem exists_of_flatMap_append (h : PrefixCode encode) {l l' : List M} {r : List S}
    (heq : l.flatMap encode ++ r = l'.flatMap encode) :
    ∃ l'', l' = l ++ l'' ∧ r = l''.flatMap encode := by
  induction l generalizing l' with
  | nil => exact ⟨l', rfl, heq⟩
  | cons m l ih =>
    cases l' with
    | nil =>
      rw [List.flatMap_cons, List.flatMap_nil, List.append_assoc] at heq
      exact absurd (List.append_eq_nil_iff.1 heq).1 (h.ne_nil m)
    | cons m' l' =>
      rw [List.flatMap_cons, List.flatMap_cons, List.append_assoc] at heq
      obtain ⟨rfl, htail⟩ := h.append_inj heq
      obtain ⟨l'', rfl, hr⟩ := ih htail
      exact ⟨l'', rfl, hr⟩

theorem flatMap_eq_nil (h : PrefixCode encode) {l : List M} (hl : l.flatMap encode = []) :
    l = [] := by
  cases l with
  | nil => rfl
  | cons m l =>
    rw [List.flatMap_cons] at hl
    exact absurd (List.append_eq_nil_iff.1 hl).1 (h.ne_nil m)

/-- A word that is cut in two does not begin with whole words. -/
theorem flatMap_ne_of_append_eq (h : PrefixCode encode) {m : M} {t u : List S}
    (hm : encode m = t ++ u) (ht : t ≠ []) (hu : u ≠ []) (l : List M) : t ≠ l.flatMap encode := by
  rintro rfl
  have hone : l.flatMap encode ++ u = [m].flatMap encode := by
    rw [← hm, List.flatMap_singleton]
  obtain ⟨l'', hl, hu'⟩ := h.exists_of_flatMap_append hone
  cases l with
  | nil => exact ht rfl
  | cons m' l =>
    have hnil : l'' = [] := by
      rw [List.cons_append, List.cons.injEq] at hl
      exact (List.append_eq_nil_iff.1 hl.2.symm).2
    rw [hnil] at hu'
    exact hu hu'

end PrefixCode

/-- A cut of a stream falls between two words or inside one. -/
theorem exists_of_append_eq_flatMap {l : List M} {f r : List S}
    (h : f ++ r = l.flatMap encode) :
    (∃ g l', l = g ++ l' ∧ f = g.flatMap encode ∧ r = l'.flatMap encode)
      ∨ ∃ g m l' t u, l = g ++ m :: l' ∧ f = g.flatMap encode ++ t ∧ encode m = t ++ u
        ∧ t ≠ [] ∧ u ≠ [] ∧ r = u ++ l'.flatMap encode := by
  induction l generalizing f with
  | nil =>
    obtain ⟨rfl, rfl⟩ := List.append_eq_nil_iff.1 h
    exact Or.inl ⟨[], [], rfl, rfl, rfl⟩
  | cons m l ih =>
    rw [List.flatMap_cons] at h
    obtain ⟨u, hm, hr⟩ | ⟨k, rfl, hk⟩ := List.append_eq_append_iff.1 h
    · -- the cut falls within the first word, or at one of its ends
      by_cases hf : f = []
      · subst hf
        exact Or.inl ⟨[], m :: l, rfl, rfl, h⟩
      · by_cases hu : u = []
        · subst hu
          rw [List.append_nil] at hm
          exact Or.inl ⟨[m], l, rfl, by rw [List.flatMap_singleton, hm], hr⟩
        · exact Or.inr ⟨[], m, l, f, u, rfl, rfl, hm, hf, hu, hr⟩
    · obtain ⟨g, l', rfl, rfl, hr⟩ | ⟨g, m', l', t, u, rfl, rfl, hm', ht, hu, hr⟩ := ih hk.symm
      · exact Or.inl ⟨m :: g, l', rfl, rfl, hr⟩
      · exact Or.inr ⟨m :: g, m', l', t, u, rfl, by rw [List.flatMap_cons, List.append_assoc],
          hm', ht, hu, hr⟩

/-! ### Decoding a stream -/

/-- `n` values taken off the front of a stream by a decoder that says how much it
used. -/
def decodeMany (decode : List S → Option (V × ℕ)) : ℕ → List S → Option (List V × List S)
  | 0, s => some ([], s)
  | n + 1, s => (decode s).bind fun (v, used) =>
      (decodeMany decode n (s.drop used)).map fun (vs, rest) => (v :: vs, rest)

/-- A decoder that reads one word at the front of strings of a bounded length
reads a stream of them. -/
theorem decodeMany_flatMap {decode : List S → Option (V × ℕ)} {value : M → V} {l : List M}
    {bound : ℕ} (h : ∀ m ∈ l, ∀ r, (encode m ++ r).length < bound →
      decode (encode m ++ r) = some (value m, (encode m).length))
    (rest : List S) (hlen : (l.flatMap encode ++ rest).length < bound) :
    decodeMany decode l.length (l.flatMap encode ++ rest) = some (l.map value, rest) := by
  induction l with
  | nil => rfl
  | cons m l ih =>
    rw [List.flatMap_cons, List.append_assoc] at hlen
    have hword := h m List.mem_cons_self _ hlen
    rw [List.length_append] at hlen
    have htail := ih (fun m' hm' => h m' (List.mem_cons_of_mem m hm')) (by omega)
    rw [List.flatMap_cons, List.append_assoc, List.length_cons, decodeMany, hword,
      Option.bind_some]
    dsimp only
    rw [List.drop_left, htail]
    rfl
