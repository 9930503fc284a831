import VersionChain.Record.Codec

/-!
# Batches of candidates

A batch is a list of encoding tasks for one target. Whoever takes part in it claims tasks
one after the other from a shared counter, encodes each claimed task, stores the outcome
in the cell of the task and counts it as completed. Claiming and finishing are the two
atomic steps; `Batch.run` is the schedule in which one participant does everything.

* `Batch.run_next` — afterwards every task has been claimed.
-/

namespace VersionChain

/-- A candidate: write the target against `base` under `tag`. -/
structure Candidate where
  tag : Tag
  base : Bytes
  deriving DecidableEq, Repr, Inhabited

/-- The encoding tasks of one target. -/
structure Batch where
  codec : Codec
  target : Bytes
  extraPass : Bool
  tasks : Array Candidate

/-- How far a batch has come. -/
structure Progress where
  /-- The next task to be claimed. -/
  next : Nat
  /-- How many tasks have been completed. -/
  completed : Nat
  /-- The outcome of each task, once there is one. -/
  cells : Array (Option Encoded)
  /-- How many encodings broke down. -/
  crashes : Nat
  deriving DecidableEq, Repr, Inhabited

namespace Batch

/-- A batch before anything has been claimed. -/
def start (b : Batch) : Progress := ⟨0, 0, .replicate b.tasks.size none, 0⟩

/-- The outcome of encoding task `i`. -/
def outcome (b : Batch) (i : Nat) : Encoded :=
  match b.tasks[i]? with
  | some task => b.codec.encode task.tag task.base b.target b.extraPass
  | none => .refused

/-- Claims the next task. The number that was claimed may lie behind the last task; then
there is nothing left to do. -/
def claim (p : Progress) : Nat × Progress := (p.next, { p with next := p.next + 1 })

/-- Encodes task `i`, stores the outcome unless the cell has one, and counts the task. -/
def finish (b : Batch) (p : Progress) (i : Nat) : Progress :=
  let outcome := b.outcome i
  { p with
    cells := p.cells.modify i fun cell => some (cell.getD outcome)
    crashes := if outcome = .crashed then p.crashes + 1 else p.crashes
    completed := p.completed + 1 }

/-- Claims and finishes tasks until none is left. -/
def run (b : Batch) (p : Progress) : Progress :=
  if p.next < b.tasks.size then run b (b.finish (claim p).2 (claim p).1) else (claim p).2
  termination_by b.tasks.size - p.next
  decreasing_by simp only [finish, claim]; omega

/-- Whether every task has been completed. -/
def isComplete (b : Batch) (p : Progress) : Bool := b.tasks.size ≤ p.completed

theorem run_next (b : Batch) (p : Progress) : b.tasks.size < (b.run p).next := by
  fun_induction run b p with
  | case1 _ _ ih => exact ih
  | case2 p h => simp only [claim]; omega

end Batch

end VersionChain
