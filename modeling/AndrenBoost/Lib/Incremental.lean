import AndrenBoost.Lib.PrefixCode
import Mathlib.Data.List.Induction

/-!
# Decoding a stream that comes in chunks

A receiver keeps the bytes it has not used.  With every chunk it takes words off the
front as long as its decoder succeeds, which says how much it used.  A decoder that
refuses words that are cut short does not mind where the chunks are cut; one that
accepts some words without their last symbol does mind when a cut falls there.

## Main definitions

* `Incremental.drain decode fuel buf` — words are taken off the front.
* `Incremental.receive decode chunks` — what was decoded, and what is left.
* `Incremental.Decoder` — what is asked of the decoder; `early m t` says that it
  accepts `t` for the word of `m`, whose last symbol is missing.
* `Incremental.CutEarly` — a cut falls in front of such a symbol.

## Main results

* `Decoder.exists_at` — what has been decoded at any moment.
* `Decoder.exists_stuck` — what becomes of the receiver at such a cut.
* `Decoder.receive_eq_iff` — **the cuts make no difference, unless one of them falls
  there.**
-/

namespace Incremental

variable {M S V : Type*}

/-- Words are taken off the front, `fuel` of them at most. -/
def drain (decode : List S → Option (V × ℕ)) : ℕ → List S → List V × List S
  | 0, buf => ([], buf)
  | fuel + 1, buf =>
    match decode buf with
    | none => ([], buf)
    | some (v, used) =>
      let (vs, rest) := drain decode fuel (buf.drop used)
      (v :: vs, rest)

/-- A chunk comes in.  No more words than symbols can be taken. -/
def feed (decode : List S → Option (V × ℕ)) (state : List V × List S) (chunk : List S) :
    List V × List S :=
  let buf := state.2 ++ chunk
  let (vs, rest) := drain decode buf.length buf
  (state.1 ++ vs, rest)

/-- What was decoded from the chunks, and what is left. -/
def receive (decode : List S → Option (V × ℕ)) (chunks : List (List S)) : List V × List S :=
  chunks.foldl (feed decode) ([], [])

theorem receive_concat (decode : List S → Option (V × ℕ)) (chunks : List (List S))
    (chunk : List S) :
    receive decode (chunks ++ [chunk]) = feed decode (receive decode chunks) chunk :=
  List.foldl_concat _ _ _ _

/-- Where nothing can be decoded, nothing is taken. -/
theorem drain_of_none {decode : List S → Option (V × ℕ)} {buf : List S} (h : decode buf = none)
    (fuel : ℕ) : drain decode fuel buf = ([], buf) := by
  cases fuel with
  | zero => rfl
  | succ fuel => rw [drain, h]

/-- What is asked of a decoder of streams of up to `bound` symbols. -/
structure Decoder (encode : M → List S) (value : M → V) (bound : ℕ)
    (decode : List S → Option (V × ℕ)) (early : M → List S → Prop) : Prop where
  ne_nil : ∀ m, encode m ≠ []
  /-- A word is read in front of anything. -/
  word : ∀ ⦃m r⦄, (encode m ++ r).length < bound →
    decode (encode m ++ r) = some (value m, (encode m).length)
  nil : decode [] = none
  /-- A word that is cut short is refused. -/
  refuse : ∀ ⦃m t u⦄, (encode m).length < bound → encode m = t ++ u → u ≠ [] → ¬ early m t →
    decode t = none
  /-- The exception: its last symbol is missing, and in front of a string nothing is
  ever decoded. -/
  accept : ∀ ⦃m t⦄, (encode m).length < bound → early m t →
    ∃ z used, encode m = t ++ [z] ∧ t ≠ [] ∧ t.length ≤ used ∧ decode t = some (value m, used)
      ∧ ∀ r, decode (z :: r) = none

/-- A cut falls where a word is accepted without its last symbol. -/
def CutEarly (encode : M → List S) (early : M → List S → Prop) (l : List M)
    (chunks : List (List S)) : Prop :=
  ∃ front g m l' t, front <+: chunks ∧ l = g ++ m :: l' ∧ front.flatten = g.flatMap encode ++ t
    ∧ early m t

section Drain

variable {encode : M → List S} {value : M → V} {bound : ℕ} {decode : List S → Option (V × ℕ)}
  {early : M → List S → Prop}

/-- Whole words at the front are taken one by one. -/
theorem Decoder.drain_words (h : Decoder encode value bound decode early) {t : List S} :
    ∀ {g : List M} {fuel : ℕ}, (g.flatMap encode ++ t).length < bound →
      drain decode (g.length + fuel) (g.flatMap encode ++ t)
        = (g.map value ++ (drain decode fuel t).1, (drain decode fuel t).2) := by
  intro g
  induction g with
  | nil =>
    intro fuel _
    rw [List.length_nil, Nat.zero_add]
    rfl
  | cons m g ih =>
    intro fuel hlen
    rw [List.flatMap_cons, List.append_assoc] at hlen ⊢
    have htail : (g.flatMap encode ++ t).length < bound := by
      rw [List.length_append] at hlen
      omega
    rw [List.length_cons, Nat.add_right_comm, drain, h.word hlen]
    dsimp only
    rw [List.drop_left, ih htail]
    rfl

theorem length_le_flatMap (hne : ∀ m, encode m ≠ []) (g : List M) :
    g.length ≤ (g.flatMap encode).length := by
  induction g with
  | nil => exact Nat.zero_le _
  | cons m g ih =>
    have := List.length_pos_iff.mpr (hne m)
    rw [List.flatMap_cons, List.length_append, List.length_cons]
    omega

/-- All the words of a buffer are taken, and then what the decoder makes of the
rest. -/
theorem Decoder.feed_words (h : Decoder encode value bound decode early) (vs : List V)
    {buf chunk t : List S} {g : List M} (hbuf : buf ++ chunk = g.flatMap encode ++ t)
    (hlen : (g.flatMap encode ++ t).length < bound) :
    ∃ fuel, t.length ≤ fuel ∧ feed decode (vs, buf) chunk
      = (vs ++ (g.map value ++ (drain decode fuel t).1), (drain decode fuel t).2) := by
  have hle := length_le_flatMap h.ne_nil g
  refine ⟨(g.flatMap encode).length - g.length + t.length, Nat.le_add_left _ _, ?_⟩
  have hfuel : (g.flatMap encode ++ t).length
      = g.length + ((g.flatMap encode).length - g.length + t.length) := by
    rw [List.length_append]
    omega
  unfold feed
  dsimp only
  rw [hbuf, hfuel, h.drain_words hlen]

end Drain

/-! ### Anywhere in the stream -/

section Stream

variable {encode : M → List S} {value : M → V} {bound : ℕ} {decode : List S → Option (V × ℕ)}
  {early : M → List S → Prop}

/-- What was fed is some words and the beginning of the next one. -/
structure At (encode : M → List S) (l : List M) (fed : List S) (g : List M) (t : List S)
    (l' : List M) : Prop where
  words : l = g ++ l'
  fed : fed = g.flatMap encode ++ t
  cut : t = [] ∨ ∃ m l'' u, l' = m :: l'' ∧ encode m = t ++ u ∧ u ≠ []

/-- The next chunk brings some words to their end and begins another one. -/
theorem At.feed {l l' g : List M} {fed chunk rest t : List S} (h : At encode l fed g t l')
    (hflat : fed ++ chunk ++ rest = l.flatMap encode) :
    ∃ g₁ t₁ l₁, t ++ chunk = g₁.flatMap encode ++ t₁ ∧ At encode l (fed ++ chunk) (g ++ g₁) t₁ l₁ := by
  have htail : (t ++ chunk) ++ rest = l'.flatMap encode := by
    rw [h.words, List.flatMap_append, h.fed, List.append_assoc, List.append_assoc,
      List.append_cancel_left_eq] at hflat
    rwa [List.append_assoc]
  rcases exists_of_append_eq_flatMap htail with
    ⟨g₁, l₁, hl', hbuf, -⟩ | ⟨g₁, m, l₁, t₁, u, hl', hbuf, hm, -, hu, -⟩
  · refine ⟨g₁, [], l₁, by rw [hbuf, List.append_nil], ?_, ?_, Or.inl rfl⟩
    · rw [h.words, hl', List.append_assoc]
    · rw [h.fed, List.append_assoc, hbuf, List.flatMap_append, List.append_nil]
  · refine ⟨g₁, t₁, m :: l₁, hbuf, ?_, ?_, Or.inr ⟨m, l₁, u, rfl, hm, hu⟩⟩
    · rw [h.words, hl', List.append_assoc]
    · rw [h.fed, List.append_assoc, hbuf, List.flatMap_append, List.append_assoc]

/-- No word of the stream lies between two such places. -/
theorem At.eq_nil (hne : ∀ m, encode m ≠ []) {l l' g as : List M} {fed t t₂ : List S}
    (h : At encode l fed g t l') {l₂ : List M} (hl : l' = as ++ l₂)
    (hfed : fed = (g ++ as).flatMap encode ++ t₂) : as = [] := by
  rw [h.fed, List.flatMap_append, List.append_assoc, List.append_cancel_left_eq] at hfed
  cases as with
  | nil => rfl
  | cons m as =>
    rw [List.flatMap_cons, List.append_assoc] at hfed
    rcases h.cut with rfl | ⟨m', l'', u, hl'', hm, hu⟩
    · exact absurd (List.append_eq_nil_iff.mp hfed.symm).1 (hne m)
    · rw [hl, List.cons_append, List.cons.injEq] at hl''
      have hlen := congrArg List.length hfed
      rw [hl''.1, hm] at hlen
      have := List.length_pos_iff.mpr hu
      simp only [List.length_append] at hlen
      omega

/-- There is one such place. -/
theorem At.unique (hne : ∀ m, encode m ≠ []) {l l₁ l₂ g₁ g₂ : List M} {fed t₁ t₂ : List S}
    (h₁ : At encode l fed g₁ t₁ l₁) (h₂ : At encode l fed g₂ t₂ l₂) : g₁ = g₂ ∧ t₁ = t₂ := by
  have hg : g₁ = g₂ := by
    rcases List.append_eq_append_iff.mp (h₁.words.symm.trans h₂.words) with
      ⟨as, hg, hl⟩ | ⟨as, hg, hl⟩
    · rw [hg, h₁.eq_nil hne hl (hg ▸ h₂.fed), List.append_nil]
    · rw [hg, h₂.eq_nil hne hl (hg ▸ h₁.fed), List.append_nil]
  subst hg
  exact ⟨rfl, List.append_cancel_left (h₁.fed.symm.trans h₂.fed)⟩

variable {l : List M} {chunks : List (List S)} {rest : List S}

/-- A word, and what is fed of it, fits into the stream. -/
theorem At.length_lt {l' g : List M} {fed t : List S} (h : At encode l fed g t l')
    (hflat : fed ++ rest = l.flatMap encode) (hlen : (l.flatMap encode).length < bound) :
    (g.flatMap encode ++ t).length < bound := by
  rw [← hflat, h.fed, List.length_append] at hlen
  omega

theorem length_lt_of_mem (hlen : (l.flatMap encode).length < bound) {m : M} (hm : m ∈ l) :
    (encode m).length < bound := by
  obtain ⟨s, r, rfl⟩ := List.append_of_mem hm
  rw [List.flatMap_append, List.flatMap_cons, List.length_append, List.length_append] at hlen
  omega

/-- What is fed of the next word is refused, unless it is accepted early. -/
theorem Decoder.decode_at (h : Decoder encode value bound decode early)
    (hlen : (l.flatMap encode).length < bound) {g l' : List M} {fed t : List S}
    (hat : At encode l fed g t l') (hnot : ∀ m l'', l' = m :: l'' → ¬ early m t) :
    decode t = none := by
  rcases hat.cut with rfl | ⟨m, l'', u, hl', hm, hu⟩
  · exact h.nil
  · have hmem : m ∈ l := by
      rw [hat.words, hl']
      exact List.mem_append_right _ List.mem_cons_self
    exact h.refuse (length_lt_of_mem hlen hmem) hm hu (hnot m l'' hl')

theorem CutEarly.concat {chunk : List S} (h : CutEarly encode early l chunks) :
    CutEarly encode early l (chunks ++ [chunk]) := by
  obtain ⟨front, g, m, l', t, hf, hrest⟩ := h
  exact ⟨front, g, m, l', t, hf.trans (List.prefix_append _ _), hrest⟩

/-- Unless a cut falls early, the words that are complete have been decoded, and the
beginning of the next one is left. -/
theorem Decoder.exists_at (h : Decoder encode value bound decode early)
    (hlen : (l.flatMap encode).length < bound) (hcut : ¬ CutEarly encode early l chunks)
    (hflat : chunks.flatten ++ rest = l.flatMap encode) :
    ∃ g t l', At encode l chunks.flatten g t l'
      ∧ receive decode chunks = (g.map value, t) := by
  induction chunks using List.reverseRecOn generalizing rest with
  | nil => exact ⟨[], [], l, ⟨rfl, rfl, Or.inl rfl⟩, rfl⟩
  | append_singleton chunks chunk ih =>
    rw [List.flatten_append, List.flatten_singleton] at hflat ⊢
    obtain ⟨g, t, l', hat, hrec⟩ := ih (fun hc => hcut hc.concat)
      (by rwa [List.append_assoc] at hflat)
    obtain ⟨g₁, t₁, l₁, hbuf, hat₁⟩ := hat.feed hflat
    have hnone : decode t₁ = none := by
      refine h.decode_at hlen hat₁ fun m l'' hl₁ hearly => hcut ?_
      refine ⟨chunks ++ [chunk], g ++ g₁, m, l'', t₁, List.prefix_refl _, ?_, ?_, hearly⟩
      · rw [hat₁.words, hl₁]
      · rw [List.flatten_append, List.flatten_singleton, hat₁.fed]
    have hshort : (g₁.flatMap encode ++ t₁).length < bound := by
      have := hat₁.length_lt hflat hlen
      rw [List.flatMap_append, List.append_assoc, List.length_append] at this
      omega
    obtain ⟨fuel, -, hfeed⟩ := h.feed_words (g.map value) hbuf hshort
    refine ⟨g ++ g₁, t₁, l₁, hat₁, ?_⟩
    rw [receive_concat, hrec, hfeed, drain_of_none hnone, List.append_nil, List.map_append]

/-- A word that is accepted early is taken without its last symbol, and nothing is
left. -/
theorem Decoder.exists_early (h : Decoder encode value bound decode early) {m : M} {t : List S}
    (hm : (encode m).length < bound) (hearly : early m t) :
    ∃ z, encode m = t ++ [z] ∧ t ≠ [] ∧ (∀ r, decode (z :: r) = none)
      ∧ ∀ fuel, t.length ≤ fuel → drain decode fuel t = ([value m], []) := by
  obtain ⟨z, used, hword, ht, hused, haccept, hz⟩ := h.accept hm hearly
  refine ⟨z, hword, ht, hz, fun fuel hfuel => ?_⟩
  have hpos := List.length_pos_iff.mpr ht
  obtain ⟨k, rfl⟩ : ∃ k, fuel = k + 1 := ⟨fuel - 1, by omega⟩
  rw [drain, haccept]
  dsimp only
  rw [List.drop_eq_nil_of_le hused, drain_of_none h.nil]

/-- The receiver at the first cut that falls early. -/
theorem Decoder.receive_of_cut (h : Decoder encode value bound decode early)
    (hlen : (l.flatMap encode).length < bound) {chunk : List S}
    (hbefore : ¬ CutEarly encode early l chunks)
    (hflat : chunks.flatten ++ chunk ++ rest = l.flatMap encode) {g l' : List M} {m : M}
    {t : List S} {z : S} (hl : l = g ++ m :: l')
    (hfed : chunks.flatten ++ chunk = g.flatMap encode ++ t) (hword : encode m = t ++ [z])
    (hdrain : ∀ fuel, t.length ≤ fuel → drain decode fuel t = ([value m], [])) :
    receive decode (chunks ++ [chunk]) = ((g ++ [m]).map value, []) := by
  have hat : At encode l (chunks.flatten ++ chunk) g t (m :: l') :=
    ⟨hl, hfed, Or.inr ⟨m, l', [z], rfl, hword, List.cons_ne_nil z []⟩⟩
  obtain ⟨g₀, t₀, l₀, hat₀, hrec⟩ := h.exists_at hlen hbefore
    (by rwa [List.append_assoc] at hflat)
  obtain ⟨g₁, t₁, l₁, hbuf, hat₁⟩ := hat₀.feed hflat
  obtain ⟨rfl, rfl⟩ := hat₁.unique h.ne_nil hat
  have hshort := hat₁.length_lt hflat hlen
  rw [List.flatMap_append, List.append_assoc, List.length_append] at hshort
  obtain ⟨fuel, hfuel, hfeed⟩ := h.feed_words (g₀.map value) hbuf (by omega)
  rw [receive_concat, hrec, hfeed, hdrain fuel hfuel, List.map_append, List.map_append,
    List.append_assoc]
  rfl

/-- Where a cut falls early, nothing is decoded behind the word it falls in. -/
theorem Decoder.exists_stuck (h : Decoder encode value bound decode early)
    (hlen : (l.flatMap encode).length < bound) (hcut : CutEarly encode early l chunks)
    (hflat : chunks.flatten ++ rest = l.flatMap encode) :
    ∃ g m l' t z buf, l = g ++ m :: l' ∧ early m t ∧ encode m = t ++ [z]
      ∧ receive decode chunks = ((g ++ [m]).map value, buf)
      ∧ buf ++ rest = z :: l'.flatMap encode ∧ ∀ r, decode (z :: r) = none := by
  have hmem : ∀ {g m l'}, l = g ++ m :: l' → (encode m).length < bound := fun hl =>
    length_lt_of_mem hlen (hl ▸ List.mem_append_right _ List.mem_cons_self)
  induction chunks using List.reverseRecOn generalizing rest with
  | nil =>
    obtain ⟨front, g, m, l', t, hf, hl, hfed, hearly⟩ := hcut
    obtain rfl := List.prefix_nil.mp hf
    obtain ⟨z, -, ht, -⟩ := h.exists_early (hmem hl) hearly
    exact absurd (List.append_eq_nil_iff.mp hfed.symm).2 ht
  | append_singleton chunks chunk ih =>
    rw [List.flatten_append, List.flatten_singleton] at hflat
    by_cases hbefore : CutEarly encode early l chunks
    · -- nothing can be decoded any more
      obtain ⟨g, m, l', t, z, buf, hl, hearly, hword, hrec, hbuf, hz⟩ :=
        ih hbefore (by rwa [List.append_assoc] at hflat)
      have hnone : decode (buf ++ chunk) = none := by
        rw [← List.append_assoc] at hbuf
        cases hb : buf ++ chunk with
        | nil => exact h.nil
        | cons z' b =>
          rw [hb, List.cons_append, List.cons.injEq] at hbuf
          rw [hbuf.1]
          exact hz b
      refine ⟨g, m, l', t, z, buf ++ chunk, hl, hearly, hword, ?_, ?_, hz⟩
      · rw [receive_concat, hrec, feed]
        dsimp only
        rw [drain_of_none hnone, List.append_nil]
      · rw [List.append_assoc, hbuf]
    · -- this is the cut
      obtain ⟨front, g, m, l', t, hf, hl, hfed, hearly⟩ := hcut
      have hfront : front = chunks ++ [chunk] := by
        rcases List.prefix_concat_iff.mp hf with heq | hle
        · exact heq
        · exact absurd ⟨front, g, m, l', t, hle, hl, hfed, hearly⟩ hbefore
      subst hfront
      rw [List.flatten_append, List.flatten_singleton] at hfed
      obtain ⟨z, hword, -, hz, hdrain⟩ := h.exists_early (hmem hl) hearly
      refine ⟨g, m, l', t, z, [], hl, hearly, hword,
        h.receive_of_cut hlen hbefore hflat hl hfed hword hdrain, ?_, hz⟩
      rw [hl, List.flatMap_append, List.flatMap_cons, hfed, hword, List.append_assoc,
        List.append_assoc, List.append_cancel_left_eq, List.append_cancel_left_eq] at hflat
      exact hflat

/-- **The cuts make no difference, unless one of them falls in front of the last symbol
of a word that is accepted without it.** -/
theorem Decoder.receive_eq_iff (h : Decoder encode value bound decode early)
    (hflat : chunks.flatten = l.flatMap encode) (hlen : (l.flatMap encode).length < bound) :
    receive decode chunks = (l.map value, []) ↔ ¬ CutEarly encode early l chunks := by
  have hrest : chunks.flatten ++ [] = l.flatMap encode := by rw [List.append_nil, hflat]
  constructor
  · intro hrec hcut
    obtain ⟨g, m, l', t, z, buf, -, -, -, hrec', hbuf, -⟩ := h.exists_stuck hlen hcut hrest
    obtain rfl : buf = [] := congrArg Prod.snd (hrec'.symm.trans hrec)
    exact absurd hbuf.symm (List.cons_ne_nil z _)
  · intro hcut
    obtain ⟨g, t, l', hat, hrec⟩ := h.exists_at hlen hcut hrest
    have hend : At encode l chunks.flatten l [] [] :=
      ⟨(List.append_nil l).symm, by rw [hflat, List.append_nil], Or.inl rfl⟩
    obtain ⟨rfl, rfl⟩ := hat.unique h.ne_nil hend
    exact hrec

end Stream

end Incremental
