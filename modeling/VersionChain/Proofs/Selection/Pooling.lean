import VersionChain.Proofs.Selection.Sharing

/-!
# Batches with and without a pool

A caller waits until its batch is complete and reads the cells and the number of breakdowns off it.
Both are those of the tasks in order, whoever took part in the batch and whenever. So a scheduler
with a pool gives the records and counts that one without threads gives, and stopping the pool
between batches only stops the pool.

* `Batch.Fair` — what holds of a batch under every order of turns;
* `Request`, `serve` — batches and shutdowns, one after the other;
* `share_eq_perform` — sharing a batch is executing it;
* `serve_related` — two schedulers side by side, one of which is never shut down;
* `Equivalent` — with a pool, without one, and without the shutdowns;
* `pooled_eq_inline` — every batch is fair, and schedulers are equivalent.
-/

namespace VersionChain

namespace Batch

/-- However turns are taken, every number is claimed once, in order. No task is encoded twice, nor
by one who did not claim it, and the cell is empty when a task is about to be finished. The batch is
complete when every task was encoded, and then it holds their outcomes. -/
structure Fair (b : Batch) (turns : List Nat) : Prop where
  claimed : (b.play turns).claimed = List.range (b.play turns).progress.next
  encoded : ∀ encoding ∈ (b.play turns).encodings, encoding ∈ (b.play turns).claims
  once : (b.play turns).encoded.Nodup
  writes : ∀ who i, (b.play turns).hands who = .holds i →
    i < b.tasks.size ∧ (b.play turns).progress.cells[i]? = some none ∧
      ∀ other, (b.play turns).hands other = .holds i → other = who
  complete : b.isComplete (b.play turns).progress = true ↔
    (b.play turns).encoded.Perm (List.range b.tasks.size)
  waits : b.isComplete (b.play turns).progress = true ↔
    b.tasks.size ≤ (b.play turns).progress.next ∧ ∀ who i, (b.play turns).hands who ≠ .holds i
  outcomes : b.isComplete (b.play turns).progress = true →
    (b.play turns).progress.cells = b.outcomes ∧ (b.play turns).progress.crashes = b.breakdowns
  completes : ∃ more, b.isComplete (b.play (turns ++ more)).progress = true

theorem fair (b : Batch) (turns : List Nat) : b.Fair turns where
  claimed := (b.shared_play turns).claimed
  encoded := fun (who, i) hmem => ((b.shared_play turns).encoded who i hmem).1
  once := (b.shared_play turns).once
  writes _ _ := (b.shared_play turns).empty_of_held
  complete := (b.shared_play turns).isComplete_iff_perm
  waits := (b.shared_play turns).isComplete_iff
  outcomes := (b.shared_play turns).outcomes
  completes := by
    obtain ⟨more, hmore⟩ := (b.shared_play turns).completes
    refine ⟨more, ?_⟩
    unfold play
    rw [List.foldl_append]
    exact hmore

/-- Turns of any claimants after which a batch is complete. Those who come late take turns too. -/
structure Shift (b : Batch) where
  turns : List Nat
  complete : b.isComplete (b.play turns).progress = true

/-- What a caller reads off a batch that was shared is what it reads off one that it ran alone. -/
theorem Shift.eq_run {b : Batch} (shift : b.Shift) :
    (b.play shift.turns).progress.cells = (b.run b.start).cells ∧
      (b.play shift.turns).progress.crashes = (b.run b.start).crashes := by
  obtain ⟨hcells, hcrashes⟩ := (b.shared_play shift.turns).outcomes shift.complete
  obtain ⟨halone, halone'⟩ := b.run_outcomes
  exact ⟨hcells.trans halone.symm, hcrashes.trans halone'.symm⟩

end Batch

namespace Scheduler

/-- What a scheduler is asked for: a batch, in which the others take their turns, or to stop the
pool. -/
inductive Request where
  | execute (b : Batch) (fallback : TaggedRecord) (shift : b.Shift)
  | shutdown

/-- Whether a request is for a batch. -/
def Request.isBatch : Request → Bool
  | .execute _ _ _ => true
  | .shutdown => false

/-- The choice among the cells of a batch, and its failures and breakdowns. -/
def collect (s : Scheduler) (b : Batch) (fallback : TaggedRecord) (p : Progress) :
    TaggedRecord × Scheduler :=
  (select b.tasks.toList p.cells 0 fallback,
    { s with failed := s.failed + failures p.cells, crashed := s.crashed + p.crashes })

/-- A request is answered, and batches are shared. -/
def share (s : Scheduler) : Request → Option TaggedRecord × Scheduler
  | .execute b fallback shift =>
    if b.tasks.size = 0 then (some fallback, s)
    else
      let (record, s) :=
        (s.countBatch b.tasks.size).collect b fallback (b.play shift.turns).progress
      (some record, s)
  | .shutdown => (none, s.shutdown)

/-- A request is answered, and the caller runs batches alone. -/
def perform (s : Scheduler) : Request → Option TaggedRecord × Scheduler
  | .execute b fallback _ =>
    let (record, s) := s.execute b.codec b.target b.tasks.toList fallback b.extraPass
    (some record, s)
  | .shutdown => (none, s.shutdown)

/-- The records that were asked for, and the scheduler afterwards. -/
def serve (answer : Scheduler → Request → Option TaggedRecord × Scheduler) (s : Scheduler) :
    List Request → List TaggedRecord × Scheduler
  | [] => ([], s)
  | request :: rest =>
    let (record, s) := answer s request
    let (records, s) := serve answer s rest
    (record.toList ++ records, s)

variable {s s' : Scheduler}

/-! ## One batch -/

theorem perform_empty {b : Batch} (hempty : b.tasks.size = 0) (fallback : TaggedRecord)
    (shift : b.Shift) : s.perform (.execute b fallback shift) = (some fallback, s) := by
  have hexecute : s.execute b.codec b.target b.tasks.toList fallback b.extraPass =
      (fallback, s) := by
    unfold execute
    rw [if_pos]
    rw [List.isEmpty_iff_length_eq_zero, Array.length_toList]
    exact hempty
  exact congrArg (fun result => (some result.1, result.2)) hexecute

theorem perform_tasks {b : Batch} (htasks : b.tasks.size ≠ 0) (fallback : TaggedRecord)
    (shift : b.Shift) :
    let collected := (s.countBatch b.tasks.size).collect b fallback (b.run b.start)
    s.perform (.execute b fallback shift) = (some collected.1, collected.2) := by
  have hexecute : s.execute b.codec b.target b.tasks.toList fallback b.extraPass =
      (s.countBatch b.tasks.size).collect b fallback (b.run b.start) := by
    unfold execute
    rw [if_neg]
    · rfl
    · rw [List.isEmpty_iff_length_eq_zero, Array.length_toList]
      exact htasks
  exact congrArg (fun result => (some result.1, result.2)) hexecute

/-- Sharing a batch is executing it. -/
theorem share_eq_perform (s : Scheduler) (request : Request) :
    s.share request = s.perform request := by
  cases request with
  | shutdown => rfl
  | execute b fallback shift =>
    by_cases hempty : b.tasks.size = 0
    · rw [perform_empty hempty]
      exact if_pos hempty
    · obtain ⟨hcells, hcrashes⟩ := shift.eq_run
      rw [perform_tasks hempty]
      refine (if_neg hempty).trans ?_
      unfold collect
      rw [hcells, hcrashes]

/-! ## Two schedulers side by side -/

/-- One of two schedulers is also shut down at times, the other is not. What batches preserve
between them, and shutdowns of the one, holds after all requests, and the records are the same. -/
theorem serve_related {R : Scheduler → Scheduler → Prop}
    (hbatch : ∀ s s' b fallback shift, R s s' →
      (s.perform (.execute b fallback shift)).1 = (s'.perform (.execute b fallback shift)).1 ∧
        R (s.perform (.execute b fallback shift)).2 (s'.perform (.execute b fallback shift)).2)
    (hshutdown : ∀ s s', R s s' → R s.shutdown s') (h : R s s') (requests : List Request) :
    (serve perform s requests).1 = (serve perform s' (requests.filter (·.isBatch))).1 ∧
      R (serve perform s requests).2 (serve perform s' (requests.filter (·.isBatch))).2 := by
  induction requests generalizing s s' with
  | nil => exact ⟨rfl, h⟩
  | cons request rest ih =>
    cases request with
    | shutdown => exact ih (hshutdown s s' h)
    | execute b fallback shift =>
      obtain ⟨hrecord, hafter⟩ := hbatch s s' b fallback shift h
      obtain ⟨hrecords, hfinal⟩ := ih hafter
      refine ⟨?_, hfinal⟩
      exact congrArg₂ (fun record records => Option.toList record ++ records) hrecord hrecords

/-- As many batches, failures and breakdowns. -/
structure Alike (s s' : Scheduler) : Prop where
  batches : s.parallelBatches + s.inlineBatches = s'.parallelBatches + s'.inlineBatches
  failed : s.failed = s'.failed
  crashed : s.crashed = s'.crashed

/-- A batch is counted once, and no other counter changes. -/
theorem countBatch_counters (s : Scheduler) (tasks : Nat) :
    (s.countBatch tasks).parallelBatches + (s.countBatch tasks).inlineBatches =
        s.parallelBatches + s.inlineBatches + 1 ∧
      (s.countBatch tasks).failed = s.failed ∧ (s.countBatch tasks).crashed = s.crashed ∧
      (s.countBatch tasks).threads = s.threads := by
  unfold countBatch
  split
  · exact ⟨Nat.succ_add _ _, rfl, rfl, rfl⟩
  · exact ⟨rfl, rfl, rfl, rfl⟩

theorem Alike.perform (h : Alike s s') (b : Batch) (fallback : TaggedRecord) (shift : b.Shift) :
    (s.perform (.execute b fallback shift)).1 = (s'.perform (.execute b fallback shift)).1 ∧
      Alike (s.perform (.execute b fallback shift)).2
        (s'.perform (.execute b fallback shift)).2 := by
  by_cases hempty : b.tasks.size = 0
  · rw [perform_empty hempty, perform_empty hempty]
    exact ⟨rfl, h⟩
  · obtain ⟨hbatches, hfailed, hcrashed, -⟩ := s.countBatch_counters b.tasks.size
    obtain ⟨hbatches', hfailed', hcrashed', -⟩ := s'.countBatch_counters b.tasks.size
    rw [perform_tasks hempty, perform_tasks hempty]
    refine ⟨rfl, ?_, ?_, ?_⟩
    · exact (hbatches.trans (congrArg (· + 1) h.batches)).trans hbatches'.symm
    · exact congrArg (· + _) ((hfailed.trans h.failed).trans hfailed'.symm)
    · exact congrArg (· + _) ((hcrashed.trans h.crashed).trans hcrashed'.symm)

/-- The same but for the pool. -/
def SameButPool (s s' : Scheduler) : Prop := s = { s' with poolRunning := s.poolRunning }

theorem SameButPool.shutdown (h : SameButPool s s') : SameButPool s.shutdown s' := by
  unfold SameButPool at h ⊢
  rw [h]
  rfl

theorem SameButPool.perform (h : SameButPool s s') (b : Batch) (fallback : TaggedRecord)
    (shift : b.Shift) :
    (s.perform (.execute b fallback shift)).1 = (s'.perform (.execute b fallback shift)).1 ∧
      SameButPool (s.perform (.execute b fallback shift)).2
        (s'.perform (.execute b fallback shift)).2 := by
  by_cases hempty : b.tasks.size = 0
  · rw [perform_empty hempty, perform_empty hempty]
    exact ⟨rfl, h⟩
  · have hcounted : SameButPool (s.countBatch b.tasks.size) (s'.countBatch b.tasks.size) := by
      unfold SameButPool at h ⊢
      rw [h]
      unfold countBatch
      split
      · rfl
      · rfl
    rw [perform_tasks hempty, perform_tasks hempty]
    refine ⟨rfl, ?_⟩
    unfold SameButPool at hcounted ⊢
    rw [hcounted]
    rfl

/-! ## All requests -/

/-- Whether the pool is running after a request. -/
def poolAfter (threads : Nat) (running : Bool) : Request → Bool
  | .execute b _ _ => running || decide (2 ≤ b.tasks.size ∧ 0 < threads)
  | .shutdown => false

theorem perform_pool (s : Scheduler) (request : Request) :
    (s.perform request).2.poolRunning = poolAfter s.threads s.poolRunning request ∧
      (s.perform request).2.threads = s.threads := by
  cases request with
  | shutdown => exact ⟨rfl, rfl⟩
  | execute b fallback shift =>
    show _ = (s.poolRunning || decide (2 ≤ b.tasks.size ∧ 0 < s.threads)) ∧ _
    by_cases hempty : b.tasks.size = 0
    · rw [perform_empty hempty, hempty, decide_eq_false (by omega), Bool.or_false]
      exact ⟨rfl, rfl⟩
    · rw [perform_tasks hempty]
      refine ⟨?_, (s.countBatch_counters b.tasks.size).2.2.2⟩
      show (s.countBatch b.tasks.size).poolRunning = _
      unfold countBatch
      split
      · rename_i hpool
        rw [decide_eq_true hpool, Bool.or_true]
      · rename_i hinline
        rw [decide_eq_false hinline, Bool.or_false]

theorem serve_pool (s : Scheduler) (requests : List Request) :
    (serve perform s requests).2.poolRunning =
      requests.foldl (poolAfter s.threads) s.poolRunning := by
  induction requests generalizing s with
  | nil => rfl
  | cons request rest ih =>
    obtain ⟨hpool, hthreads⟩ := s.perform_pool request
    show (serve perform (s.perform request).2 rest).2.poolRunning = _
    rw [ih, hpool, hthreads, List.foldl_cons]

/-- What a scheduler does with its batches shared, compared to one that has no threads, and to one
that is not shut down. -/
structure Equivalent (s : Scheduler) (requests : List Request) : Prop where
  inline :
    let (records, shared) := serve share s requests
    let (records', alone) := serve perform { s with threads := 0 } (requests.filter (·.isBatch))
    records = records' ∧ shared.failed = alone.failed ∧ shared.crashed = alone.crashed ∧
      shared.parallelBatches + shared.inlineBatches = alone.parallelBatches + alone.inlineBatches
  shutdowns :
    let (records, stopped) := serve share s requests
    let (records', going) := serve share s (requests.filter (·.isBatch))
    records = records' ∧ stopped = { going with poolRunning := stopped.poolRunning }
  pool : (serve share s requests).2.poolRunning =
    requests.foldl (poolAfter s.threads) s.poolRunning

/-- However the turns in its batches are taken, by however many claimants, and whenever it is shut
down between them, a scheduler gives the records and the counts of the tasks in order. -/
theorem pooled_eq_inline : (∀ (b : Batch) turns, b.Fair turns) ∧
    ∀ (s : Scheduler) requests, s.Equivalent requests := by
  refine ⟨Batch.fair, fun s requests => ?_⟩
  have hshare : serve share = serve perform :=
    congrArg serve (funext fun s => funext fun request => s.share_eq_perform request)
  constructor
  case inline =>
    obtain ⟨hrecords, halike⟩ := serve_related (fun _ _ b fallback shift h =>
      Alike.perform h b fallback shift) (fun _ _ h => ⟨h.batches, h.failed, h.crashed⟩)
      (show Alike s { s with threads := 0 } from ⟨rfl, rfl, rfl⟩) requests
    rw [hshare]
    exact ⟨hrecords, halike.failed, halike.crashed, halike.batches⟩
  case shutdowns =>
    obtain ⟨hrecords, hsame⟩ := serve_related (fun _ _ b fallback shift h =>
      SameButPool.perform h b fallback shift) (fun _ _ h => h.shutdown)
      (show SameButPool s s from rfl) requests
    rw [hshare]
    exact ⟨hrecords, hsame⟩
  case pool =>
    rw [hshare]
    exact s.serve_pool requests

end Scheduler

end VersionChain
