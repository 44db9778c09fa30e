import AndrenBoost.Multiplex.Scheduler

/-!
# What the sender keeps, and what it drops

Over any run of calls the packages of a task leave the sender in the order they
were filed, each once.  The one way to lose a package is to add a task under a
key that still has packages waiting: the new task takes the place of the old
one.

## Main definitions

* `addsFor`, `discardedFor` — the package lists added under a key, and what each
  of these additions found waiting there.
* `fetchedFor` — the part of the fetched strings that belongs to a key.

## Main results

* `sender_ledger` — **every package list is what was fetched of it followed by
  what the next addition discarded.**
* `drain_reachable` — from any reachable state the emptying loop fetches exactly
  what is pending.
-/

namespace AndrenBoost.Multiplex

/-- The package lists added under `k`, in call order. -/
def addsFor (k : TaskKey) : List SendOp → List (List Bytes)
  | [] => []
  | .add id queueNo data :: ops =>
      if (queueNo, id) = k then dataList id queueNo data :: addsFor k ops else addsFor k ops
  | .fetch :: ops => addsFor k ops

/-- What was still pending under `k` at each addition for `k`, in call order. -/
def discardedFor (k : TaskKey) (m : MultiplexManager) : List SendOp → List (List Bytes)
  | [] => []
  | .add id queueNo data :: ops =>
      let rest := discardedFor k (addDataTaskToSend m id queueNo data) ops
      if (queueNo, id) = k then m.pending k :: rest else rest
  | .fetch :: ops => discardedFor k (fetchSomeDataToSend m).2 ops

/-- The fetched strings that belong to `k`, in fetch order. -/
def fetchedFor (k : TaskKey) (out : List Bytes) : List Bytes := Fifo.sent keyOf k out

theorem puts_actsOf (k : TaskKey) : ∀ (ops : List SendOp) (m : MultiplexManager),
    Fifo.puts k (actsOf m ops) = addsFor k ops := by
  intro ops
  induction ops with
  | nil => intro m; rfl
  | cons op ops ih =>
    intro m
    cases op with
    | add id queueNo data => simp only [actsOf, actOf, Fifo.puts, addsFor, ih]
    | fetch => exact ih _

theorem overwritten_actsOf (k : TaskKey) : ∀ (ops : List SendOp) (m : MultiplexManager),
    Fifo.overwritten k m.pending (actsOf m ops) = discardedFor k m ops := by
  intro ops
  induction ops with
  | nil => intro m; rfl
  | cons op ops ih =>
    intro m
    cases op with
    | add id queueNo data =>
      simp only [actsOf, actOf, stepOp, Fifo.overwritten, discardedFor]
      rw [← pending_addDataTaskToSend, ih]
    | fetch =>
      simp only [actsOf, actOf, stepOp, Fifo.overwritten, discardedFor]
      rw [← pending_fetchSomeDataToSend, ih]

/-- The ledger of a run from an empty manager, for one task key; the first block
is the empty deque the run starts with. -/
theorem runOps_ledger (ops : List SendOp) (k : TaskKey) :
    ∃ kept : List (List Bytes), kept.length = (addsFor k ops).length + 1 ∧
      List.zipWith (· ++ ·) kept (discardedFor k .new ops ++ [(runOps .new ops).2.pending k])
        = [] :: addsFor k ops ∧
      fetchedFor k (runOps .new ops).1 = kept.flatten := by
  -- the ledger of the queues, read through the refinement
  obtain ⟨kept, hlen, hzip, hsent⟩ :=
    Fifo.ledger k (actsOf .new ops) tagged_new (actsOf_ok ops .new)
  rw [run_pending] at hzip hsent
  rw [puts_actsOf] at hlen hzip
  rw [overwritten_actsOf] at hzip
  exact ⟨kept, hlen, hzip, hsent⟩

theorem fetchedFor_append_pending_iff (ops : List SendOp) (k : TaskKey) :
    fetchedFor k (runOps .new ops).1 ++ (runOps .new ops).2.pending k = (addsFor k ops).flatten ↔
      ∀ d ∈ discardedFor k .new ops, d = [] := by
  have h := Fifo.sent_append_pending_iff k tagged_new (actsOf_ok ops .new)
  rw [run_pending, puts_actsOf, overwritten_actsOf] at h
  exact h

theorem length_discardedFor (k : TaskKey) (ops : List SendOp) (m : MultiplexManager) :
    (discardedFor k m ops).length = (addsFor k ops).length := by
  rw [← overwritten_actsOf, Fifo.length_overwritten, puts_actsOf]

/-- The parts of a ledger are beginnings of the lists added. -/
theorem exists_block_of_mem_kept {ops : List SendOp} {k : TaskKey} {kept : List (List Bytes)}
    (hlen : kept.length = (addsFor k ops).length + 1)
    (hzip : List.zipWith (· ++ ·) kept
      (discardedFor k .new ops ++ [(runOps .new ops).2.pending k]) = [] :: addsFor k ops)
    {part : List Bytes} (hpart : part ∈ kept) : ∃ block ∈ [] :: addsFor k ops, part <+: block := by
  have hlen' : kept.length
      = (discardedFor k .new ops ++ [(runOps .new ops).2.pending k]).length := by
    rw [hlen, List.length_append, length_discardedFor, List.length_singleton]
  rw [← hzip]
  exact Fifo.exists_block_of_mem hlen' hpart

/-- Every list added under `k` is the package list of some task of `ops`. -/
theorem exists_of_mem_addsFor {k : TaskKey} {block : List Bytes} : ∀ {ops : List SendOp},
    block ∈ addsFor k ops →
      ∃ data, SendOp.add k.2 k.1 data ∈ ops ∧ block = dataList k.2 k.1 data := by
  intro ops
  induction ops with
  | nil => intro h; simp [addsFor] at h
  | cons op ops ih =>
    intro h
    have hrest : block ∈ addsFor k ops →
        ∃ data, SendOp.add k.2 k.1 data ∈ op :: ops ∧ block = dataList k.2 k.1 data := fun h =>
      (ih h).imp fun _ hd => ⟨List.mem_cons_of_mem _ hd.1, hd.2⟩
    cases op with
    | add id queueNo data =>
      rw [addsFor] at h
      split_ifs at h with hk
      · rcases List.mem_cons.mp h with rfl | h
        · subst hk
          exact ⟨data, List.mem_cons_self, rfl⟩
        · exact hrest h
      · exact hrest h
    | fetch => exact hrest h

/-- **The ledger of a run.**  From an empty manager, and for every task key: each
package list added (the first entry stands for the empty deque the run starts
with) is the part of it that was fetched, followed by the part the next addition
found pending and discarded or, for the last one, by the part still pending; and
the strings fetched are the fetched parts in order.  So the strings fetched
followed by the strings pending are all the package lists if and only if no
addition found anything to discard. -/
theorem sender_ledger (ops : List SendOp) (k : TaskKey) :
    (∃ kept : List (List Bytes), kept.length = (addsFor k ops).length + 1 ∧
      List.zipWith (· ++ ·) kept (discardedFor k .new ops ++ [(runOps .new ops).2.pending k])
        = [] :: addsFor k ops ∧
      fetchedFor k (runOps .new ops).1 = kept.flatten) ∧
    (fetchedFor k (runOps .new ops).1 ++ (runOps .new ops).2.pending k = (addsFor k ops).flatten ↔
      ∀ d ∈ discardedFor k .new ops, d = []) :=
  ⟨runOps_ledger ops k, fetchedFor_append_pending_iff ops k⟩

/-- Adding a task twice before anything is fetched: the packages of the first
are neither fetched nor pending. -/
theorem add_twice_discards :
    ¬ ∀ (ops : List SendOp) (k : TaskKey),
      fetchedFor k (runOps .new ops).1 ++ (runOps .new ops).2.pending k
        = (addsFor k ops).flatten := by
  intro h
  have hlen := congrArg List.length (h [.add 1 .que0 [97], .add 1 .que0 [98]] (.que0, 1))
  exact absurd hlen (by decide)

/-- **Emptying the sender.**  In every reachable state a fetch comes back empty
exactly when nothing is pending in any queue; the loop that fetches until then
ends within one call more than there are packages pending, leaves nothing, and
fetches for each task exactly its pending deque, front to back. -/
theorem drain_reachable (ops : List SendOp) :
    let m := (runOps .new ops).2
    ((fetchSomeDataToSend m).1 = [] ↔ ∀ k, m.pending k = []) ∧
      ∃ out m', fetchUntilEmpty (pendingCount m + 1) m = some (out, m') ∧
        (∀ k, m'.pending k = []) ∧ ∀ k, fetchedFor k out.flatten = m.pending k :=
  ⟨fetch_eq_nil_iff _, fetchUntilEmpty_spec (tagged_runOps ops) (Nat.lt_succ_self _)⟩

end AndrenBoost.Multiplex
