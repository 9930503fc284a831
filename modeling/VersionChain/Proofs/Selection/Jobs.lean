import VersionChain.Proofs.Selection.Pooling

/-!
# Jobs for a scheduler

Among the record that stands by and those that the candidates give, in the order of the candidates,
the first of the least is chosen. The order matters only between candidates under one tag. What a
scheduler counts for a job is what comes of its candidates.

* `Job`, `Job.attempts` — what a scheduler is called for, and what comes of it;
* `Job.Chosen`, `Job.chosen` — what is chosen;
* `Tally`, `tallyOf` — what is counted;
* `executeAll_counts` — jobs one after the other.
-/

namespace VersionChain.Scheduler

/-! ## Jobs -/

/-- What a scheduler is called for. -/
structure Job where
  codec : Codec
  target : Bytes
  extraPass : Bool
  candidates : List Candidate
  fallback : TaggedRecord

namespace Job

/-- The batch of a job. -/
def batch (job : Job) : Batch := ⟨job.codec, job.target, job.extraPass, job.candidates.toArray⟩

/-- What comes of each candidate. -/
def attempts (job : Job) : List Encoded :=
  job.candidates.map fun c => job.codec.encode c.tag c.base job.target job.extraPass

/-- The records that the candidates give. -/
def records (job : Job) : List TaggedRecord :=
  job.candidates.filterMap (Candidate.record? job.codec job.target job.extraPass)

/-- A scheduler executes a job. -/
def executeOn (job : Job) (s : Scheduler) : TaggedRecord × Scheduler :=
  s.execute job.codec job.target job.candidates job.fallback job.extraPass

theorem executeOn_eq (job : Job) (s : Scheduler) :
    (job.executeOn s).1 = choose job.fallback job.records :=
  s.execute_eq job.codec job.target job.candidates job.fallback job.extraPass

/-- What a scheduler chooses for a job: of the least records the first. It is not larger than the
one that stands by, it is that one if all candidates fail, and candidates under different tags may
be submitted in any order. -/
structure Chosen (job : Job) (s : Scheduler) : Prop where
  firstLeast : (job.executeOn s).1.FirstLeast (job.fallback :: job.records)
  size_le : (job.executeOn s).1.size ≤ job.fallback.size
  failed : (∀ attempt ∈ job.attempts, attempt.record? = none) → (job.executeOn s).1 = job.fallback
  reordered : (job.candidates.map Candidate.tag).Nodup → ∀ candidates,
    candidates.Perm job.candidates →
      (executeOn { job with candidates } s).1 = (job.executeOn s).1

theorem chosen (job : Job) (s : Scheduler) : job.Chosen s := by
  have hfirst := choose_firstLeast job.fallback job.records
  constructor
  case firstLeast =>
    rw [executeOn_eq]
    exact hfirst
  case size_le =>
    rw [executeOn_eq]
    rcases hfirst.least _ List.mem_cons_self with hlt | ⟨heq, -⟩
    · exact Nat.le_of_lt hlt
    · exact Nat.le_of_eq heq
  case failed =>
    intro hfailed
    have hrecords : job.records = [] := by
      refine List.filterMap_eq_nil_iff.mpr fun c hc => ?_
      unfold Candidate.record?
      rw [hfailed _ (List.mem_map_of_mem hc)]
      rfl
    rw [executeOn_eq, hrecords]
    rfl
  case reordered =>
    intro htags candidates hperm
    rw [executeOn_eq, executeOn_eq]
    exact (choose_perm (Candidate.tags_nodup htags) (hperm.symm.filterMap _)).symm

/-! ## What comes of a batch -/

theorem attempts_eq (job : Job) :
    job.attempts = (List.range job.candidates.length).map job.batch.outcome := by
  refine List.ext_getElem? fun i => ?_
  unfold attempts
  rw [List.getElem?_map, List.getElem?_map]
  by_cases hi : i < job.candidates.length
  · rw [List.getElem?_eq_getElem hi, List.getElem?_range hi]
    unfold Batch.outcome batch
    simp only [List.getElem?_toArray, List.getElem?_eq_getElem hi, Option.map_some]
  · have hrange : (List.range job.candidates.length).length ≤ i := by
      rw [List.length_range]
      exact Nat.not_lt.mp hi
    rw [List.getElem?_eq_none (Nat.not_lt.mp hi), List.getElem?_eq_none hrange]
    rfl

theorem failures_outcomes (job : Job) :
    failures job.batch.outcomes = job.attempts.countP fun attempt => attempt.record?.isNone := by
  unfold failures Batch.outcomes
  rw [Array.countP_map, attempts_eq, List.countP_map, ← Array.countP_toList, Array.toList_range]
  rfl

theorem select_outcomes (job : Job) :
    select job.candidates job.batch.outcomes 0 job.fallback = choose job.fallback job.records := by
  refine select_eq fun k task hk => ?_
  have hlt : k < job.batch.tasks.size := (List.getElem?_eq_some_iff.mp hk).1
  unfold Batch.outcomes
  rw [Nat.zero_add, Array.getElem?_map, Array.getElem?_range, if_pos hlt]
  unfold Batch.outcome batch
  simp only [List.getElem?_toArray, hk, Option.map_some]

theorem breakdowns_eq (job : Job) :
    job.batch.breakdowns = job.attempts.countP (· = .crashed) := by
  rw [attempts_eq, List.countP_map]
  rfl

theorem executeOn_empty {job : Job} (hempty : job.candidates = []) (s : Scheduler) :
    job.executeOn s = (job.fallback, s) := by
  unfold executeOn execute
  rw [hempty]
  rfl

theorem executeOn_tasks {job : Job} (htasks : job.candidates ≠ []) (s : Scheduler) :
    let counted := s.countBatch job.candidates.length
    job.executeOn s = (select job.candidates job.batch.outcomes 0 job.fallback,
      { counted with
        failed := counted.failed + failures job.batch.outcomes
        crashed := counted.crashed + job.batch.breakdowns }) := by
  obtain ⟨hcells, hcrashes⟩ := job.batch.run_outcomes
  rw [← hcells, ← hcrashes]
  exact if_neg fun hempty => htasks (List.isEmpty_iff.mp hempty)

end Job

/-! ## Jobs one after the other -/

/-- Numbers of batches, failures and breakdowns. -/
@[ext]
structure Tally where
  batches : Nat := 0
  failed : Nat := 0
  crashed : Nat := 0

instance : Add Tally :=
  ⟨fun a b => ⟨a.batches + b.batches, a.failed + b.failed, a.crashed + b.crashed⟩⟩

namespace Tally

theorem add_assoc (a b c : Tally) : a + b + c = a + (b + c) :=
  Tally.ext (Nat.add_assoc ..) (Nat.add_assoc ..) (Nat.add_assoc ..)

theorem add_comm (a b : Tally) : a + b = b + a :=
  Tally.ext (Nat.add_comm ..) (Nat.add_comm ..) (Nat.add_comm ..)

end Tally

/-- What a scheduler has counted. -/
def counts (s : Scheduler) : Tally := ⟨s.parallelBatches + s.inlineBatches, s.failed, s.crashed⟩

/-- What is to be counted for jobs: those with candidates, the candidates that give no record, and
those of them that break down. -/
def tallyOf (jobs : List Job) : Tally where
  batches := jobs.countP fun job => !job.candidates.isEmpty
  failed := (jobs.flatMap Job.attempts).countP fun attempt => attempt.record?.isNone
  crashed := (jobs.flatMap Job.attempts).countP (· = .crashed)

theorem tallyOf_cons (job : Job) (jobs : List Job) :
    tallyOf (job :: jobs) = tallyOf [job] + tallyOf jobs := by
  unfold tallyOf
  rw [List.flatMap_cons, List.flatMap_singleton, List.countP_append, List.countP_append,
    List.countP_cons, List.countP_singleton]
  exact Tally.ext (Nat.add_comm ..) rfl rfl

theorem tallyOf_empty {job : Job} (hempty : job.candidates = []) : tallyOf [job] = {} := by
  unfold tallyOf Job.attempts
  rw [List.flatMap_singleton, hempty, List.countP_singleton, hempty]
  rfl

/-- What is to be counted for one job with candidates. -/
theorem tallyOf_job {job : Job} (htasks : job.candidates ≠ []) :
    tallyOf [job] = ⟨1, failures job.batch.outcomes, job.batch.breakdowns⟩ := by
  unfold tallyOf
  rw [List.flatMap_singleton, job.failures_outcomes, job.breakdowns_eq, List.countP_singleton,
    List.isEmpty_eq_false_iff.mpr htasks]
  rfl

theorem Job.executeOn_counts (job : Job) (s : Scheduler) :
    (job.executeOn s).2.counts = s.counts + tallyOf [job] := by
  by_cases hempty : job.candidates = []
  · rw [Job.executeOn_empty hempty, tallyOf_empty hempty]
    rfl
  · obtain ⟨hbatches, hfailed, hcrashed, -⟩ := s.countBatch_counters job.candidates.length
    rw [Job.executeOn_tasks hempty, tallyOf_job hempty]
    exact Tally.ext hbatches (congrArg (· + _) hfailed) (congrArg (· + _) hcrashed)

/-- A scheduler executes jobs one after the other. -/
def executeAll (s : Scheduler) (jobs : List Job) : Scheduler :=
  jobs.foldl (fun s job => (job.executeOn s).2) s

theorem executeAll_counts (s : Scheduler) (jobs : List Job) :
    (s.executeAll jobs).counts = s.counts + tallyOf jobs := by
  induction jobs generalizing s with
  | nil => rfl
  | cons job rest ih =>
    calc ((job.executeOn s).2.executeAll rest).counts
        = (job.executeOn s).2.counts + tallyOf rest := ih _
      _ = s.counts + tallyOf [job] + tallyOf rest := by rw [job.executeOn_counts]
      _ = s.counts + tallyOf (job :: rest) := by rw [Tally.add_assoc, ← tallyOf_cons]

end VersionChain.Scheduler
