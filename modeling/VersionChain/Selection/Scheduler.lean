import VersionChain.Selection.Batch

/-!
# The choice of a record

Each new value is encoded against every candidate base, and the shortest record is kept;
among records of one length the smaller tag wins. A record that is known to be good stands
by and is kept unless a candidate beats it. Batches of two or more tasks are shared with a
pool of threads if there is one; the outcome does not depend on it.
-/

namespace VersionChain

/-- A record with the tag it was written under. -/
structure TaggedRecord where
  tag : Tag
  bytes : Bytes
  deriving DecidableEq, Repr, Inhabited

namespace TaggedRecord

/-- Length of the record. -/
def size (r : TaggedRecord) : Nat := r.bytes.size

/-- Whether a record is preferred to another: it is shorter, or as long and under a smaller
tag. -/
def beats (a b : TaggedRecord) : Bool :=
  a.size < b.size ∨ (a.size = b.size ∧ a.tag.rank < b.tag.rank)

/-- The record that holds a target as a whole, if the codec writes one. -/
def keyframe? (codec : Codec) (target : Bytes) (extraPass : Bool) : Option TaggedRecord :=
  (codec.encode .keyframe #[] target extraPass).record?.map (⟨.keyframe, ·⟩)

end TaggedRecord

/-- The counters of the scheduler. -/
structure SchedulerStats where
  threads : Nat
  poolRunning : Bool
  parallelBatches : Nat
  inlineBatches : Nat
  failed : Nat
  crashed : Nat
  deriving DecidableEq, Repr, Inhabited

/-- Runs batches, with a pool of `threads` threads that is started when it is first needed. -/
structure Scheduler where
  threads : Nat
  poolRunning : Bool := false
  parallelBatches : Nat := 0
  inlineBatches : Nat := 0
  /-- How many candidates gave no record. -/
  failed : Nat := 0
  /-- How many of them broke down. -/
  crashed : Nat := 0
  deriving DecidableEq, Repr, Inhabited

namespace Scheduler

/-- The best of the records of tasks, from task `i` on, and `best`. -/
def select (tasks : List Candidate) (cells : Array (Option Encoded)) (i : Nat)
    (best : TaggedRecord) : TaggedRecord :=
  match tasks with
  | [] => best
  | task :: rest =>
    match (cells.getD i none).bind Encoded.record? with
    | some bytes =>
      let record : TaggedRecord := ⟨task.tag, bytes⟩
      select rest cells (i + 1) (if record.beats best then record else best)
    | none => select rest cells (i + 1) best

/-- How many cells hold no record. -/
def failures (cells : Array (Option Encoded)) : Nat :=
  cells.countP fun cell => (cell.bind Encoded.record?).isNone

/-- Counts a batch as run by the pool or by the caller alone. -/
def countBatch (s : Scheduler) (tasks : Nat) : Scheduler :=
  if 2 ≤ tasks ∧ 0 < s.threads then
    { s with poolRunning := true, parallelBatches := s.parallelBatches + 1 }
  else { s with inlineBatches := s.inlineBatches + 1 }

/-- Encodes a target against every candidate and gives the best record, or `fallback` if none
is better. -/
def execute (s : Scheduler) (codec : Codec) (target : Bytes) (candidates : List Candidate)
    (fallback : TaggedRecord) (extraPass : Bool) : TaggedRecord × Scheduler :=
  if candidates.isEmpty then (fallback, s)
  else
    let batch : Batch := ⟨codec, target, extraPass, candidates.toArray⟩
    let done := batch.run batch.start
    let s := s.countBatch candidates.length
    (select candidates done.cells 0 fallback,
      { s with failed := s.failed + failures done.cells, crashed := s.crashed + done.crashes })

/-- Stops the pool. The next batch for the pool starts it again. -/
def shutdown (s : Scheduler) : Scheduler := { s with poolRunning := false }

/-- The counters. -/
def stats (s : Scheduler) : SchedulerStats :=
  ⟨s.threads, s.poolRunning, s.parallelBatches, s.inlineBatches, s.failed, s.crashed⟩

/-- The scheduler in words. -/
def describe (s : Scheduler) : String := s!"EncodeScheduler \x7b threads: {s.threads}, .. \x7d"

end Scheduler

end VersionChain
