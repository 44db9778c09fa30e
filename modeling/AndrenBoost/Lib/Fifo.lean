import Mathlib.Logic.Function.Basic
import Mathlib.Data.List.Basic
import Mathlib.Tactic.Common

/-!
# A family of queues behind one outlet

Queues indexed by `K`, all drained through a single outlet.  Two things happen
to them: a queue is *put*, which replaces whatever it held, and a set of queues
is *served*, which moves the front element of each to the outlet.  Every element
carries the index of its queue, so the outlet's stream can be sorted back.

## Main definitions

* `Fifo.Queues`, `Fifo.Act`, `Fifo.step`, `Fifo.run` — the state, the two
  actions, and runs of them.
* `Fifo.sent tag k out` — the part of the outlet's stream that came from `k`.
* `Fifo.puts`, `Fifo.overwritten` — what was put under `k`, and what each of
  these found there and replaced.

## Main results

* `ledger` — **the conservation law**: every block put under `k` is the part of
  it that was sent followed by the part the next block replaced.
* `sent_append_pending_iff` — nothing is lost exactly when nothing was replaced.
* `headed_infix`, `headed_suffix` — how a stream of headed blocks, each cut
  short, looks from one of its heads on.
-/

namespace Fifo

variable {K A : Type*} [DecidableEq K]

/-- A family of queues, front first. -/
abbrev Queues (K A : Type*) := K → List A

/-- What can happen to the family. -/
inductive Act (K A : Type*)
  /-- The queue under `k` becomes `l`. -/
  | put (k : K) (l : List A)
  /-- The front of each queue of `ks` goes out, in this order. -/
  | serve (ks : List K)

/-- What serving `ks` sends out. -/
def serveOut (Q : Queues K A) (ks : List K) : List A := ks.flatMap fun k => (Q k).head?.toList

/-- What serving `ks` leaves. -/
def serveNext (Q : Queues K A) (ks : List K) : Queues K A :=
  fun k => if k ∈ ks then (Q k).tail else Q k

/-- One action: what it sends out, and the queues after it. -/
def step (Q : Queues K A) : Act K A → List A × Queues K A
  | .put k l => ([], Function.update Q k l)
  | .serve ks => (serveOut Q ks, serveNext Q ks)

/-- A run of actions: the outlet's stream, and the queues at its end. -/
def run (Q : Queues K A) : List (Act K A) → List A × Queues K A
  | [] => ([], Q)
  | a :: acts => ((step Q a).1 ++ (run (step Q a).2 acts).1, (run (step Q a).2 acts).2)

@[simp] theorem run_nil (Q : Queues K A) : run Q [] = ([], Q) := rfl

theorem run_cons (Q : Queues K A) (a : Act K A) (acts : List (Act K A)) :
    run Q (a :: acts)
      = ((step Q a).1 ++ (run (step Q a).2 acts).1, (run (step Q a).2 acts).2) := rfl

/-! ### Sorting the stream back -/

section Tagged

variable (tag : A → Option K)

/-- The part of a stream that belongs to `k`. -/
def sent (k : K) (out : List A) : List A := out.filter fun a => tag a = some k

/-- Every queued element carries the index of its queue. -/
def Tagged (Q : Queues K A) : Prop := ∀ k, ∀ a ∈ Q k, tag a = some k

/-- A put brings elements carrying its index; a serve visits no queue twice. -/
def Act.Ok : Act K A → Prop
  | .put k l => ∀ a ∈ l, tag a = some k
  | .serve ks => ks.Nodup

variable {tag}

@[simp] theorem sent_nil (k : K) : sent tag k [] = [] := rfl

theorem sent_append (k : K) (out₁ out₂ : List A) :
    sent tag k (out₁ ++ out₂) = sent tag k out₁ ++ sent tag k out₂ := List.filter_append ..

theorem tagged_step {Q : Queues K A} {a : Act K A} (hQ : Tagged tag Q) (ha : a.Ok tag) :
    Tagged tag (step Q a).2 := by
  intro k x hx
  cases a with
  | put k' l =>
    by_cases h : k = k'
    · subst h
      exact ha x (by simpa [step] using hx)
    · exact hQ k x (by simpa [step, Function.update_of_ne h] using hx)
  | serve ks =>
    simp only [step, serveNext] at hx
    split_ifs at hx
    · exact hQ k x (List.mem_of_mem_tail hx)
    · exact hQ k x hx

theorem tagged_run {acts : List (Act K A)} : ∀ {Q : Queues K A}, Tagged tag Q →
    (∀ a ∈ acts, a.Ok tag) → Tagged tag (run Q acts).2 := by
  induction acts with
  | nil => intro Q hQ _; exact hQ
  | cons a acts ih =>
    intro Q hQ hok
    rw [List.forall_mem_cons] at hok
    exact ih (tagged_step hQ hok.1) hok.2

/-- Every element of the stream carries the index of a queue it came from. -/
theorem exists_tag_of_mem_run {acts : List (Act K A)} : ∀ {Q : Queues K A}, Tagged tag Q →
    (∀ a ∈ acts, a.Ok tag) → ∀ x ∈ (run Q acts).1, ∃ k, tag x = some k := by
  induction acts with
  | nil => intro Q _ _ x hx; simp at hx
  | cons a acts ih =>
    intro Q hQ hok x hx
    rw [List.forall_mem_cons] at hok
    rw [run_cons, List.mem_append] at hx
    rcases hx with hx | hx
    · cases a with
      | put k l => simp [step] at hx
      | serve ks =>
        obtain ⟨k, -, hx⟩ := List.mem_flatMap.mp hx
        exact ⟨k, hQ k x (List.mem_of_mem_head? (by simpa using hx))⟩
    · exact ih (tagged_step hQ hok.1) hok.2 x hx

/-- Elements carrying `k'` are all or none of what belongs to `k`. -/
theorem sent_of_forall_tag {l : List A} {k' : K} (h : ∀ a ∈ l, tag a = some k') (k : K) :
    sent tag k l = if k = k' then l else [] := by
  rw [sent]
  split_ifs with hk
  · exact List.filter_eq_self.mpr fun a ha => by simpa [hk] using h a ha
  · exact List.filter_eq_nil_iff.mpr fun a ha => by simpa [h a ha] using Ne.symm hk

/-- Serving sends the front of `k` when `k` is served, and nothing of `k`
otherwise. -/
theorem sent_serveOut {Q : Queues K A} (hQ : Tagged tag Q) (k : K) : ∀ {ks : List K},
    ks.Nodup → sent tag k (serveOut Q ks) = if k ∈ ks then (Q k).head?.toList else [] := by
  intro ks
  induction ks with
  | nil => intro _; rfl
  | cons k' ks ih =>
    intro hks
    rw [List.nodup_cons] at hks
    have hhead : ∀ a ∈ (Q k').head?.toList, tag a = some k' := fun a ha =>
      hQ k' a (List.mem_of_mem_head? (by simpa using ha))
    rw [serveOut, List.flatMap_cons, sent_append, sent_of_forall_tag hhead, ← serveOut, ih hks.2]
    by_cases h : k = k'
    · subst h
      simp [hks.1]
    · simp [h]

/-- Serving moves elements and loses none. -/
theorem sent_serveOut_append {Q : Queues K A} (hQ : Tagged tag Q) {ks : List K}
    (hks : ks.Nodup) (k : K) : sent tag k (serveOut Q ks) ++ serveNext Q ks k = Q k := by
  rw [sent_serveOut hQ k hks, serveNext]
  split_ifs
  · cases Q k <;> rfl
  · rfl

/-! ### The conservation law -/

/-- The blocks put under `k`, in order. -/
def puts (k : K) : List (Act K A) → List (List A)
  | [] => []
  | .put k' l :: acts => if k' = k then l :: puts k acts else puts k acts
  | .serve _ :: acts => puts k acts

/-- What each put under `k` found there. -/
def overwritten (k : K) (Q : Queues K A) : List (Act K A) → List (List A)
  | [] => []
  | .put k' l :: acts =>
      if k' = k then Q k :: overwritten k (Function.update Q k' l) acts
      else overwritten k (Function.update Q k' l) acts
  | .serve ks :: acts => overwritten k (serveNext Q ks) acts

theorem length_overwritten (k : K) : ∀ (acts : List (Act K A)) (Q : Queues K A),
    (overwritten k Q acts).length = (puts k acts).length := by
  intro acts
  induction acts with
  | nil => intro Q; rfl
  | cons a acts ih =>
    intro Q
    cases a with
    | put k' l => by_cases h : k' = k <;> simp [overwritten, puts, h, ih]
    | serve ks => exact ih _

/-- **The conservation law.**  What `k` held at the start and every block put
under it later is the part of it that was sent, followed by the part that was
still there when the next block replaced it — or, for the last one, that is
still there at the end. -/
theorem ledger (k : K) : ∀ (acts : List (Act K A)) {Q : Queues K A}, Tagged tag Q →
    (∀ a ∈ acts, a.Ok tag) → ∃ kept : List (List A),
      kept.length = (puts k acts).length + 1 ∧
      List.zipWith (· ++ ·) kept (overwritten k Q acts ++ [(run Q acts).2 k])
        = Q k :: puts k acts ∧
      sent tag k (run Q acts).1 = kept.flatten := by
  intro acts
  induction acts with
  | nil => intro Q _ _; exact ⟨[[]], by simp [puts, overwritten]⟩
  | cons a acts ih =>
    intro Q hQ hok
    rw [List.forall_mem_cons] at hok
    -- the ledger of the rest of the run, whose first block is what the action leaves
    obtain ⟨kept, hlen, hzip, hsent⟩ := ih (tagged_step hQ hok.1) hok.2
    cases a with
    | put k' l =>
      by_cases h : k' = k
      · -- a new block: the old one is closed with nothing more sent of it
        subst h
        refine ⟨[] :: kept, by simp [puts, hlen], ?_, ?_⟩
        · simpa [overwritten, puts, run_cons, step] using hzip
        · simpa [run_cons, step] using hsent
      · refine ⟨kept, by simp [puts, h, hlen], ?_, ?_⟩
        · simpa [overwritten, puts, run_cons, step, h, Function.update_of_ne (Ne.symm h)] using hzip
        · simpa [run_cons, step] using hsent
    | serve ks =>
      -- the element served, if any, is prepended to the open block
      have hmove := sent_serveOut_append hQ hok.1 k
      cases kept with
      | nil => simp at hlen
      | cons first rest =>
        refine ⟨(sent tag k (serveOut Q ks) ++ first) :: rest, by simpa [puts] using hlen, ?_, ?_⟩
        · simp only [step] at hzip
          cases hl : overwritten k (serveNext Q ks) acts ++ [(run (serveNext Q ks) acts).2 k] with
          | nil => simp at hl
          | cons x xs =>
            rw [hl, List.zipWith_cons_cons, List.cons.injEq] at hzip
            simp only [overwritten, puts, run_cons, step]
            rw [hl, List.zipWith_cons_cons, List.append_assoc, hzip.1, hzip.2, hmove]
        · simp only [run_cons, step, sent_append] at hsent ⊢
          rw [hsent, List.flatten_cons, List.flatten_cons, List.append_assoc]

/-- The parts sent are beginnings of the blocks. -/
theorem exists_block_of_mem {part : List A} : ∀ {l₁ l₂ : List (List A)}, l₁.length = l₂.length →
    part ∈ l₁ → ∃ block ∈ List.zipWith (· ++ ·) l₁ l₂, part <+: block := by
  intro l₁
  induction l₁ with
  | nil => intro l₂ _ h; simp at h
  | cons a l₁ ih =>
    intro l₂ hlen h
    cases l₂ with
    | nil => simp at hlen
    | cons b l₂ =>
      rw [List.zipWith_cons_cons]
      rcases List.mem_cons.mp h with rfl | h
      · exact ⟨_, List.mem_cons_self, List.prefix_append part b⟩
      · obtain ⟨block, hblock, hpre⟩ := ih (Nat.succ.inj hlen) h
        exact ⟨block, List.mem_cons_of_mem _ hblock, hpre⟩

theorem flatten_length_zipWith_append : ∀ {l₁ l₂ : List (List A)}, l₁.length = l₂.length →
    (List.zipWith (· ++ ·) l₁ l₂).flatten.length = l₁.flatten.length + l₂.flatten.length := by
  intro l₁
  induction l₁ with
  | nil => intro l₂ h; cases l₂ <;> simp_all
  | cons a l₁ ih =>
    intro l₂ h
    cases l₂ with
    | nil => simp at h
    | cons b l₂ =>
      have := ih (Nat.succ.inj h)
      simp only [List.zipWith_cons_cons, List.flatten_cons, List.length_append]
      omega

theorem flatten_zipWith_append_of_nil : ∀ {l₁ l₂ : List (List A)} (x : List A),
    l₁.length = l₂.length + 1 → (∀ d ∈ l₂, d = []) →
    (List.zipWith (· ++ ·) l₁ (l₂ ++ [x])).flatten = l₁.flatten ++ x := by
  intro l₁
  induction l₁ with
  | nil => intro l₂ x h; simp at h
  | cons a l₁ ih =>
    intro l₂ x h hnil
    cases l₂ with
    | nil => cases l₁ <;> simp_all
    | cons b l₂ =>
      rw [List.forall_mem_cons] at hnil
      simp only [List.cons_append, List.zipWith_cons_cons, List.flatten_cons, hnil.1,
        List.append_nil, ih x (Nat.succ.inj h) hnil.2, List.append_assoc]

/-- **Nothing is lost exactly when nothing was replaced**: the stream of `k`
followed by what `k` still holds is everything `k` was given if and only if each
put under `k` found an empty queue. -/
theorem sent_append_pending_iff (k : K) {acts : List (Act K A)} {Q : Queues K A}
    (hQ : Tagged tag Q) (hok : ∀ a ∈ acts, a.Ok tag) :
    sent tag k (run Q acts).1 ++ (run Q acts).2 k = Q k ++ (puts k acts).flatten ↔
      ∀ d ∈ overwritten k Q acts, d = [] := by
  obtain ⟨kept, hlen, hzip, hsent⟩ := ledger k acts hQ hok
  have hlen' : kept.length = (overwritten k Q acts).length + 1 := by
    rw [hlen, length_overwritten]
  rw [hsent, ← List.flatten_cons, ← hzip]
  constructor
  · intro h d hd
    have h1 := congrArg List.length h
    rw [flatten_length_zipWith_append (by simpa using hlen')] at h1
    simp only [List.length_append, List.flatten_append, List.flatten_cons, List.flatten_nil,
      List.append_nil] at h1
    have h2 : (overwritten k Q acts).flatten = [] := List.length_eq_zero_iff.mp (by omega)
    exact List.flatten_eq_nil_iff.mp h2 d hd
  · intro h
    exact (flatten_zipWith_append_of_nil _ hlen' h).symm

end Tagged

/-! ### Streams of headed blocks -/

/-- An element of a stream in two parts stands in the second or in the first. -/
theorem exists_of_append_eq_append_cons {l r pre post : List A} {x : A}
    (h : l ++ r = pre ++ x :: post) :
    (∃ mid, pre = l ++ mid ∧ r = mid ++ x :: post) ∨
      ∃ mid, l = pre ++ x :: mid ∧ post = mid ++ r := by
  rcases List.append_eq_append_iff.mp h with ⟨c, hpre, hr⟩ | ⟨c, hl, hr⟩
  · exact Or.inl ⟨c, hpre, hr⟩
  · cases c with
    | nil => exact Or.inl ⟨[], by simpa using hl.symm, hr.symm⟩
    | cons y c =>
      rw [List.cons_append, List.cons.injEq] at hr
      exact Or.inr ⟨c, hr.1 ▸ hl, hr.2⟩

section Headed

variable (head : A → Prop)

/-- A headed block: nothing at all, or a head followed by elements that are not
heads. -/
def Headed (l : List A) : Prop :=
  l = [] ∨ ∃ h body, l = h :: body ∧ head h ∧ ∀ a ∈ body, ¬ head a

variable {head}

theorem Headed.of_isPrefix {l l' : List A} (h : Headed head l) (hp : l' <+: l) :
    Headed head l' := by
  obtain ⟨s, rfl⟩ := hp
  rcases h with h | ⟨a, body, h, ha, hbody⟩
  · exact Or.inl (List.append_eq_nil_iff.mp h).1
  · cases l' with
    | nil => exact Or.inl rfl
    | cons b l' =>
      rw [List.cons_append, List.cons.injEq] at h
      refine Or.inr ⟨b, l', rfl, h.1 ▸ ha, fun x hx => hbody x ?_⟩
      rw [← h.2]
      exact List.mem_append_left s hx

/-- In a headed block a head stands at the front only. -/
theorem Headed.eq_nil_of_append {pre post : List A} {a : A}
    (h : Headed head (pre ++ a :: post)) (ha : head a) : pre = [] := by
  rcases h with h | ⟨b, body, h, -, hbody⟩
  · simp at h
  · cases pre with
    | nil => rfl
    | cons c pre =>
      rw [List.cons_append, List.cons.injEq] at h
      exact absurd ha (hbody a (h.2 ▸ by simp))

/-- The first element of a stream of headed blocks is a head. -/
theorem head_of_flatten_eq_cons : ∀ {ks : List (List A)} {x : A} {xs : List A},
    (∀ l ∈ ks, Headed head l) → ks.flatten = x :: xs → head x := by
  intro ks
  induction ks with
  | nil => intro x xs _ h; simp at h
  | cons l ks ih =>
    intro x xs hks h
    rw [List.forall_mem_cons] at hks
    rcases hks.1 with hl | ⟨a, body, rfl, ha, -⟩
    · exact ih hks.2 (by simpa [hl] using h)
    · rw [List.flatten_cons, List.cons_append, List.cons.injEq] at h
      exact h.1 ▸ ha

/-- Whatever stands in a stream of headed blocks has a head at or before it. -/
theorem exists_head_of_flatten_eq {ks : List (List A)} {pre post : List A} {d : A}
    (hks : ∀ l ∈ ks, Headed head l) (h : ks.flatten = pre ++ d :: post) :
    head d ∨ ∃ a ∈ pre, head a := by
  cases pre with
  | nil => exact Or.inl (head_of_flatten_eq_cons hks h)
  | cons a pre => exact Or.inr ⟨a, List.mem_cons_self, head_of_flatten_eq_cons hks h⟩

/-- From one of its heads up to the next, a stream of headed blocks is the
beginning of one block. -/
theorem headed_infix : ∀ {ks : List (List A)} {pre mid post : List A} {a : A},
    (∀ l ∈ ks, Headed head l) → ks.flatten = pre ++ a :: (mid ++ post) → head a →
    (∀ x ∈ mid, ¬ head x) → ∃ l ∈ ks, a :: mid <+: l := by
  intro ks
  induction ks with
  | nil => intro pre mid post a _ h; simp at h
  | cons l ks ih =>
    intro pre mid post a hks h ha hmid
    rw [List.forall_mem_cons] at hks
    rw [List.flatten_cons] at h
    rcases exists_of_append_eq_append_cons h with ⟨c, hpre, hrest⟩ | ⟨c, hl, hrest⟩
    · -- the head lies beyond the first block
      obtain ⟨b, hb, hpre'⟩ := ih hks.2 hrest ha hmid
      exact ⟨b, List.mem_cons_of_mem _ hb, hpre'⟩
    · have hpre : pre = [] := (hl ▸ hks.1).eq_nil_of_append ha
      refine ⟨l, List.mem_cons_self, ?_⟩
      rw [hl, hpre, List.nil_append]
      -- `mid` ends inside the block, or the next block would bring a head into it
      rcases List.append_eq_append_iff.mp hrest with ⟨c', hc, -⟩ | ⟨c', hmid', hflat⟩
      · exact ⟨c', by rw [hc, List.cons_append]⟩
      · cases c' with
        | nil => exact ⟨[], by simp [hmid']⟩
        | cons y c' =>
          have hy := head_of_flatten_eq_cons hks.2 (by simpa using hflat)
          exact absurd hy (hmid y (by simp [hmid']))

/-- If the last block is not empty, the stream from its last head on is that
block. -/
theorem headed_suffix {ks : List (List A)} {last pre mid : List A} {a : A}
    (hlast : Headed head last) (hne : last ≠ [])
    (h : (ks ++ [last]).flatten = pre ++ a :: mid) (ha : head a)
    (hmid : ∀ x ∈ mid, ¬ head x) : last = a :: mid := by
  rw [List.flatten_append, List.flatten_singleton] at h
  rcases List.append_eq_append_iff.mp h with ⟨c, -, hl⟩ | ⟨c, -, hl⟩
  · have hc : c = [] := (hl ▸ hlast).eq_nil_of_append ha
    rw [hl, hc, List.nil_append]
  · rcases hlast with hlast | ⟨b, body, rfl, hb, -⟩
    · exact absurd hlast hne
    · cases c with
      | nil => exact hl.symm
      | cons y c =>
        rw [List.cons_append, List.cons.injEq] at hl
        exact absurd hb (hmid b (by simp [hl.2]))

end Headed

end Fifo
