import VersionChain.Proofs.Selection.Jobs

/-!
# Overlapping calls to a scheduler

Any number of callers may use a scheduler at a time. At most one call has the pool; the others find
it in use, or cannot start it, and encode their batches alone. A call counts its batch, its failures
and its breakdowns in three steps, between which others may do anything. When all calls have
returned, the counters have grown by exactly what came of the candidates.

* `Service`, `Call.proceed`, `Service.step` — calls, and one step of anyone;
* `Call.Sound.proceed` — a caller counts what its call reports;
* `Service.Kept.step`, `Service.Kept.run` — one step, and a whole run;
* `Service.exists_returned` — wherever calls stand, all of them can return;
* `Service.runsAlone` — a call by itself does what `execute` does;
* `selection_accounted` — what is chosen is the first of the least, and the counters are right.
-/

namespace VersionChain.Scheduler

/-! ## Calls -/

/-- Where a call stands. -/
inductive Stage where
  /-- Its batch is being encoded, with the help of the pool or without. -/
  | encoding (pooled : Bool)
  /-- Its batch was encoded and counted. -/
  | counted
  /-- Its failures were counted, too. -/
  | reported
  | returned (record : TaggedRecord)
  deriving DecidableEq, Repr

/-- Counts a batch as run with the pool or without it. -/
def countAs (s : Scheduler) (pooled : Bool) : Scheduler :=
  if pooled then { s with parallelBatches := s.parallelBatches + 1 }
  else { s with inlineBatches := s.inlineBatches + 1 }

/-- Whether the pool is asked to help with a batch. -/
def wantsPool (s : Scheduler) (tasks : Nat) : Bool := decide (2 ≤ tasks ∧ 0 < s.threads)

/-- The pool is running when a call has it. -/
def lendPool (s : Scheduler) (pooled : Bool) : Scheduler :=
  { s with poolRunning := s.poolRunning || pooled }

theorem countAs_lendPool (s : Scheduler) (tasks : Nat) :
    (s.lendPool (s.wantsPool tasks)).countAs (s.wantsPool tasks) = s.countBatch tasks := by
  unfold countBatch lendPool
  split
  · rename_i hpool
    rw [show s.wantsPool tasks = true from decide_eq_true hpool, Bool.or_true]
    rfl
  · rename_i hinline
    rw [show s.wantsPool tasks = false from decide_eq_false hinline, Bool.or_false]
    rfl

theorem countAs_counts (s : Scheduler) (pooled : Bool) :
    (s.countAs pooled).counts = s.counts + { batches := 1 } := by
  cases pooled with
  | true => exact Tally.ext (Nat.succ_add ..) rfl rfl
  | false => rfl

/-- A call to a scheduler, and those who take part in its batch. -/
structure Call where
  job : Job
  crew : Batch.Crew
  stage : Stage

namespace Call

/-- A call as it begins. Without candidates it returns at once. -/
def new (job : Job) (pooled : Bool) : Call where
  job
  crew := job.batch.ready
  stage := if job.candidates.isEmpty then .returned job.fallback else .encoding pooled

/-- Someone takes a turn in the batch of a call: the caller, or a thread of the pool, which may come
late. Nothing depends on who it is. -/
def turn (call : Call) (who : Nat) : Call :=
  { call with crew := call.job.batch.turn call.crew who }

/-- The next step of the caller. It waits until its batch is complete. -/
def proceed (call : Call) (s : Scheduler) : Scheduler × Call :=
  match call.stage with
  | .encoding pooled =>
    if call.job.batch.isComplete call.crew.progress then
      (s.countAs pooled, { call with stage := .counted })
    else (s, call)
  | .counted =>
    ({ s with failed := s.failed + failures call.crew.progress.cells },
      { call with stage := .reported })
  | .reported =>
    let record := select call.job.candidates call.crew.progress.cells 0 call.job.fallback
    ({ s with crashed := s.crashed + call.crew.progress.crashes },
      { call with stage := .returned record })
  | .returned _ => (s, call)

/-- The last steps of the caller, when its batch is complete. -/
def conclude (call : Call) (s : Scheduler) : Scheduler × Call :=
  let once := call.proceed s
  let twice := once.2.proceed once.1
  twice.2.proceed twice.1

/-- Whether a call has returned. -/
def hasReturned (call : Call) : Bool :=
  match call.stage with
  | .returned _ => true
  | _ => false

/-- What a call has counted so far. -/
def reported (call : Call) : Tally :=
  match call.stage with
  | .encoding _ => {}
  | .counted => { batches := 1 }
  | .reported => { batches := 1, failed := failures call.job.batch.outcomes }
  | .returned _ => tallyOf [call.job]

/-- The cells of a batch that was encoded stay as they are, and a call that has returned gives the
record that was to be chosen. -/
structure Sound (call : Call) : Prop where
  shared : Batch.Shared call.job.batch call.crew
  tasks : call.hasReturned = false → call.job.candidates ≠ []
  complete : (∀ pooled, call.stage ≠ .encoding pooled) →
    call.job.batch.isComplete call.crew.progress = true
  record : ∀ record, call.stage = .returned record →
    record = choose call.job.fallback call.job.records

end Call

/-- A scheduler and the calls that were made to it. -/
structure Service where
  scheduler : Scheduler
  calls : List Call

/-- An atomic step of someone who uses a scheduler. -/
inductive Act where
  /-- A call is made. The pool may not be there for it. -/
  | call (job : Job) (ready : Bool)
  /-- Someone takes a turn in the batch of a call. -/
  | turn (k who : Nat)
  /-- A call goes on. -/
  | proceed (k : Nat)
  | shutdown

/-- The job of a call that is made. -/
def Act.job? : Act → Option Job
  | .call job _ => some job
  | _ => none

namespace Service

/-- Whether no call has the pool. -/
def isFree (service : Service) : Bool :=
  service.calls.all fun call => call.stage ≠ .encoding true

/-- Call `k` and the scheduler change, if there is such a call. -/
def update (service : Service) (k : Nat) (change : Call → Scheduler → Scheduler × Call) : Service :=
  match service.calls[k]? with
  | none => service
  | some call =>
    let (scheduler, call) := change call service.scheduler
    ⟨scheduler, service.calls.set k call⟩

/-- One step. A batch of two or more tasks has the pool if it is ready and no other call has it, and
then the pool is running. -/
def step (service : Service) : Act → Service
  | .call job ready =>
    let pooled :=
      ready && service.isFree && service.scheduler.wantsPool job.candidates.length
    ⟨service.scheduler.lendPool pooled, service.calls ++ [.new job pooled]⟩
  | .turn k who => service.update k fun call s => (s, call.turn who)
  | .proceed k => service.update k Call.proceed
  | .shutdown =>
    if service.isFree then { service with scheduler := service.scheduler.shutdown } else service

/-- Steps in any order. -/
def run (service : Service) (acts : List Act) : Service := acts.foldl step service

/-- What calls have counted so far. -/
def reported : List Call → Tally
  | [] => {}
  | call :: rest => call.reported + reported rest

end Service

/-! ## What a step preserves -/

namespace Call

variable {call : Call}

theorem reported_of_returned (h : call.hasReturned = true) :
    call.reported = tallyOf [call.job] := by
  unfold hasReturned at h
  unfold reported
  split at h
  · rename_i hstage
    simp only [hstage]
  · cases h

theorem new_empty {job : Job} (hempty : job.candidates = []) (pooled : Bool) :
    Call.new job pooled = ⟨job, job.batch.ready, .returned job.fallback⟩ := by
  unfold Call.new
  rw [hempty]
  rfl

theorem new_tasks {job : Job} (htasks : job.candidates ≠ []) (pooled : Bool) :
    Call.new job pooled = ⟨job, job.batch.ready, .encoding pooled⟩ := by
  unfold Call.new
  rw [if_neg fun hempty => htasks (List.isEmpty_iff.mp hempty)]

theorem sound_new (job : Job) (pooled : Bool) : (Call.new job pooled).Sound := by
  have hshared : Batch.Shared job.batch job.batch.ready := Batch.shared_ready job.batch
  by_cases hempty : job.candidates = []
  · rw [new_empty hempty]
    have hcomplete : job.batch.isComplete job.batch.start = true := by
      refine decide_eq_true ?_
      show job.candidates.toArray.size ≤ 0
      rw [hempty]
      exact Nat.le_refl _
    refine ⟨hshared, nofun, fun _ => hcomplete, ?_⟩
    rintro record ⟨⟩
    show job.fallback = choose job.fallback job.records
    unfold Job.records
    rw [hempty]
    rfl
  · rw [new_tasks hempty]
    exact ⟨hshared, fun _ => hempty, fun hnot => absurd rfl (hnot pooled), nofun⟩

theorem reported_new (job : Job) (pooled : Bool) : (Call.new job pooled).reported = {} := by
  by_cases hempty : job.candidates = []
  · rw [new_empty hempty]
    exact tallyOf_empty hempty
  · rw [new_tasks hempty]
    rfl

/-- A turn in the batch of a call counts nothing. -/
theorem Sound.turn (h : call.Sound) (who : Nat) : (call.turn who).Sound where
  shared := h.shared.turn who
  tasks := h.tasks
  complete hstage := Batch.isComplete_turn (h.complete hstage) who
  record := h.record

theorem proceed_encoding {pooled : Bool} (hstage : call.stage = .encoding pooled)
    (hcomplete : call.job.batch.isComplete call.crew.progress = true) (s : Scheduler) :
    call.proceed s = (s.countAs pooled, { call with stage := .counted }) := by
  unfold proceed
  simp only [hstage]
  exact if_pos hcomplete

/-- A step of the caller counts what the call reports with it. -/
theorem Sound.proceed (h : call.Sound) (s : Scheduler) :
    (call.proceed s).2.Sound ∧ ∃ more : Tally,
      (call.proceed s).2.reported = call.reported + more ∧
        (call.proceed s).1.counts = s.counts + more := by
  obtain ⟨job, crew, stage⟩ := call
  cases stage with
  | encoding pooled =>
    by_cases hcomplete : job.batch.isComplete crew.progress = true
    · rw [proceed_encoding rfl hcomplete]
      refine ⟨⟨h.shared, fun _ => h.tasks rfl, fun _ => hcomplete, nofun⟩,
        { batches := 1 }, rfl, s.countAs_counts pooled⟩
    · have hproceed : (Call.mk job crew (.encoding pooled)).proceed s = (s, _) := if_neg hcomplete
      rw [hproceed]
      exact ⟨h, {}, rfl, rfl⟩
  | counted =>
    have hcomplete := h.complete nofun
    have hcells : crew.progress.cells = job.batch.outcomes := (h.shared.outcomes hcomplete).1
    refine ⟨⟨h.shared, fun _ => h.tasks rfl, fun _ => hcomplete, nofun⟩,
      { failed := failures job.batch.outcomes }, Tally.ext rfl (Nat.zero_add _).symm rfl, ?_⟩
    rw [← hcells]
    rfl
  | reported =>
    have hcomplete := h.complete nofun
    obtain ⟨hcells, hcrashes⟩ : crew.progress.cells = job.batch.outcomes ∧
        crew.progress.crashes = job.batch.breakdowns := h.shared.outcomes hcomplete
    refine ⟨⟨h.shared, nofun, fun _ => hcomplete, ?_⟩, { crashed := job.batch.breakdowns }, ?_, ?_⟩
    · rintro record ⟨⟩
      show select job.candidates crew.progress.cells 0 job.fallback = _
      rw [hcells]
      exact job.select_outcomes
    · show tallyOf [job] = _
      rw [tallyOf_job (h.tasks rfl)]
      exact Tally.ext rfl rfl (Nat.zero_add _).symm
    · rw [← hcrashes]
      rfl
  | returned record => exact ⟨h, {}, rfl, rfl⟩

/-- A call whose batch is complete returns. -/
theorem hasReturned_conclude (hcomplete : call.job.batch.isComplete call.crew.progress = true)
    (s : Scheduler) : (call.conclude s).2.hasReturned = true := by
  unfold conclude
  obtain ⟨job, crew, stage⟩ := call
  cases stage with
  | encoding pooled =>
    rw [proceed_encoding rfl hcomplete]
    rfl
  | counted => rfl
  | reported => rfl
  | returned record => rfl

theorem job_proceed (call : Call) (s : Scheduler) : (call.proceed s).2.job = call.job := by
  unfold proceed
  split
  · split
    · rfl
    · rfl
  · rfl
  · rfl
  · rfl

/-- What a call reports and returns is what comes of its candidates, whoever encoded them. -/
theorem conclude_encoding (call : Call) {pooled : Bool} (hstage : call.stage = .encoding pooled)
    (hshared : Batch.Shared call.job.batch call.crew)
    (hcomplete : call.job.batch.isComplete call.crew.progress = true) (s : Scheduler) :
    let record := select call.job.candidates call.job.batch.outcomes 0 call.job.fallback
    call.conclude s =
      ({ s.countAs pooled with
          failed := (s.countAs pooled).failed + failures call.job.batch.outcomes
          crashed := (s.countAs pooled).crashed + call.job.batch.breakdowns },
        { call with stage := .returned record }) := by
  obtain ⟨hcells, hcrashes⟩ := hshared.outcomes hcomplete
  unfold conclude
  rw [proceed_encoding hstage hcomplete, ← hcells, ← hcrashes]
  rfl

theorem foldl_turn (call : Call) (turns : List Nat) : turns.foldl turn call =
    { call with crew := turns.foldl call.job.batch.turn call.crew } := by
  induction turns generalizing call with
  | nil => rfl
  | cons who rest ih => exact ih (call.turn who)

end Call

namespace Service

variable {start : Scheduler} {service : Service} {jobs : List Job}

theorem reported_append (calls more : List Call) :
    reported (calls ++ more) = reported calls + reported more := by
  induction calls with
  | nil => exact (Tally.add_comm {} (reported more)).symm
  | cons call rest ih =>
    show call.reported + reported (rest ++ more) = call.reported + reported rest + reported more
    rw [ih, Tally.add_assoc]

theorem reported_of_returned {calls : List Call} (h : ∀ call ∈ calls, call.hasReturned = true) :
    reported calls = tallyOf (calls.map Call.job) := by
  induction calls with
  | nil => rfl
  | cons call rest ih =>
    obtain ⟨hcall, hrest⟩ := List.forall_mem_cons.mp h
    show call.reported + reported rest = tallyOf (call.job :: rest.map Call.job)
    rw [Call.reported_of_returned hcall, ih hrest, ← tallyOf_cons]

theorem update_middle (s : Scheduler) (before : List Call) (call : Call) (after : List Call)
    (change : Call → Scheduler → Scheduler × Call) :
    (Service.mk s (before ++ call :: after)).update before.length change =
      ⟨(change call s).1, before ++ (change call s).2 :: after⟩ := by
  have hget : (before ++ call :: after)[before.length]? = some call := by
    rw [List.getElem?_append_right (Nat.le_refl _), Nat.sub_self]
    rfl
  unfold update
  simp only [hget]
  rw [List.set_append_right _ _ (Nat.le_refl _), Nat.sub_self]
  rfl

/-- At every moment, the scheduler has counted what the calls report. -/
structure Kept (start : Scheduler) (jobs : List Job) (service : Service) : Prop where
  jobs : service.calls.map Call.job = jobs
  sound : ∀ call ∈ service.calls, call.Sound
  counts : service.scheduler.counts = start.counts + reported service.calls

theorem Kept.update (h : Kept start jobs service) (k : Nat)
    (change : Call → Scheduler → Scheduler × Call)
    (hjob : ∀ call s, (change call s).2.job = call.job)
    (hchange : ∀ call s, call.Sound → (change call s).2.Sound ∧ ∃ more : Tally,
      (change call s).2.reported = call.reported + more ∧
        (change call s).1.counts = s.counts + more) :
    Kept start jobs (service.update k change) := by
  cases hk : service.calls[k]? with
  | none =>
    unfold Service.update
    rw [hk]
    exact h
  | some call =>
    obtain ⟨s, calls⟩ := service
    obtain ⟨hlt, hget⟩ := List.getElem?_eq_some_iff.mp hk
    obtain ⟨before, after, hcalls, rfl, -⟩ := @List.exists_of_set _ k call calls hlt
    rw [hget] at hcalls
    subst hcalls
    rw [update_middle]
    have hsound := h.sound
    rw [List.forall_mem_append, List.forall_mem_cons] at hsound
    obtain ⟨hbefore, hcall, hafter⟩ := hsound
    obtain ⟨hcall', more, hreported, hcounts⟩ := hchange call s hcall
    constructor
    case jobs =>
      rw [← h.jobs]
      show (before ++ _ :: after).map Call.job = (before ++ call :: after).map Call.job
      rw [List.map_append, List.map_append, List.map_cons, List.map_cons, hjob]
    case sound =>
      show ∀ call ∈ before ++ _ :: after, call.Sound
      rw [List.forall_mem_append, List.forall_mem_cons]
      exact ⟨hbefore, hcall', hafter⟩
    case counts =>
      have hold : s.counts = start.counts + (reported before + (call.reported + reported after)) :=
        h.counts.trans (congrArg _ (reported_append before (call :: after)))
      show (change call s).1.counts = start.counts + reported (before ++ _ :: after)
      rw [hcounts, hold, reported_append]
      show _ = start.counts + (reported before + ((change call s).2.reported + reported after))
      rw [hreported, Tally.add_assoc start.counts, Tally.add_assoc (reported before),
        Tally.add_assoc call.reported, Tally.add_assoc call.reported,
        Tally.add_comm (reported after)]

/-- One step keeps the counters right. -/
theorem Kept.step (h : Kept start jobs service) (act : Act) :
    Kept start (jobs ++ act.job?.toList) (service.step act) := by
  cases act with
  | call job ready =>
    refine ⟨?_, ?_, ?_⟩
    · show (service.calls ++ [Call.new job _]).map Call.job = jobs ++ [job]
      rw [List.map_append, h.jobs]
      rfl
    · refine List.forall_mem_append.mpr ⟨h.sound, fun call hcall => ?_⟩
      rw [List.mem_singleton.mp hcall]
      exact Call.sound_new job _
    · show service.scheduler.counts = start.counts + reported (service.calls ++ [Call.new job _])
      rw [h.counts, reported_append]
      show _ = start.counts + (reported service.calls + ((Call.new job _).reported + {}))
      rw [Call.reported_new]
      rfl
  | turn k who =>
    rw [show jobs ++ (Act.turn k who).job?.toList = jobs from List.append_nil jobs]
    exact h.update k (fun call s => (s, call.turn who)) (fun _ _ => rfl)
      fun call s hcall => ⟨hcall.turn who, {}, rfl, rfl⟩
  | proceed k =>
    rw [show jobs ++ (Act.proceed k).job?.toList = jobs from List.append_nil jobs]
    exact h.update k Call.proceed Call.job_proceed fun call s hcall => hcall.proceed s
  | shutdown =>
    rw [show jobs ++ Act.shutdown.job?.toList = jobs from List.append_nil jobs]
    show Kept start jobs (if service.isFree then _ else service)
    split
    · exact ⟨h.jobs, h.sound, h.counts⟩
    · exact h

theorem Kept.run (h : Kept start jobs service) (acts : List Act) :
    Kept start (jobs ++ acts.filterMap Act.job?) (service.run acts) := by
  induction acts generalizing service jobs with
  | nil =>
    rw [List.filterMap_nil, List.append_nil]
    exact h
  | cons act rest ih =>
    have hjobs : (act :: rest).filterMap Act.job? =
        act.job?.toList ++ rest.filterMap Act.job? := by
      rw [List.filterMap_cons]
      cases act.job? with
      | none => rfl
      | some job => rfl
    rw [hjobs, ← List.append_assoc]
    exact ih (h.step act)

/-! ## All calls return -/

theorem run_append (service : Service) (acts more : List Act) :
    service.run (acts ++ more) = (service.run acts).run more := List.foldl_append

theorem run_turns (s : Scheduler) (before : List Call) (call : Call) (after : List Call)
    (turns : List Nat) :
    (Service.mk s (before ++ call :: after)).run (turns.map (.turn before.length)) =
      ⟨s, before ++ turns.foldl Call.turn call :: after⟩ := by
  induction turns generalizing call with
  | nil => rfl
  | cons who rest ih =>
    have hstep : (Service.mk s (before ++ call :: after)).step (.turn before.length who) =
        ⟨s, before ++ call.turn who :: after⟩ :=
      update_middle s before call after fun call s => (s, call.turn who)
    show ((Service.mk s (before ++ call :: after)).step _).run _ = _
    rw [hstep]
    exact ih (call.turn who)

/-- Turns in the batch of a call, and then the last steps of the caller. -/
def conclusion (k : Nat) (turns : List Nat) : List Act :=
  turns.map (.turn k) ++ .replicate 3 (.proceed k)

theorem job?_conclusion {k : Nat} {turns : List Nat} :
    ∀ act ∈ conclusion k turns, act.job? = none := by
  intro act hact
  rcases List.mem_append.mp hact with hact | hact
  · obtain ⟨who, -, rfl⟩ := List.mem_map.mp hact
    rfl
  · rw [List.eq_of_mem_replicate hact]
    rfl

theorem run_conclusion (s : Scheduler) (before : List Call) (call : Call) (after : List Call)
    (turns : List Nat) :
    let ready : Call := { call with crew := turns.foldl call.job.batch.turn call.crew }
    (Service.mk s (before ++ call :: after)).run (conclusion before.length turns) =
      ⟨(ready.conclude s).1, before ++ (ready.conclude s).2 :: after⟩ := by
  intro ready
  have hproceed : ∀ s call, (Service.mk s (before ++ call :: after)).step
      (.proceed before.length) = ⟨(call.proceed s).1, before ++ (call.proceed s).2 :: after⟩ :=
    fun s call => update_middle s before call after Call.proceed
  unfold conclusion
  rw [run_append, run_turns, call.foldl_turn turns]
  show (((Service.mk s (before ++ ready :: after)).step (.proceed before.length)).step
    (.proceed before.length)).step (.proceed before.length) = _
  rw [hproceed, hproceed, hproceed]
  rfl

/-- From wherever calls stand, all of them can return. -/
theorem exists_returned (s : Scheduler) {before after : List Call}
    (hbefore : ∀ call ∈ before, call.hasReturned = true) (hafter : ∀ call ∈ after, call.Sound) :
    ∃ acts, (∀ act ∈ acts, act.job? = none) ∧
      ∀ call ∈ ((Service.mk s (before ++ after)).run acts).calls, call.hasReturned = true := by
  induction after generalizing before s with
  | nil =>
    refine ⟨[], nofun, ?_⟩
    show ∀ call ∈ before ++ [], _
    rw [List.append_nil]
    exact hbefore
  | cons call rest ih =>
    obtain ⟨hcall, hrest⟩ := List.forall_mem_cons.mp hafter
    obtain ⟨turns, hcomplete⟩ := hcall.shared.completes
    let ready : Call := { call with crew := turns.foldl call.job.batch.turn call.crew }
    have hbefore' : ∀ call ∈ before ++ [(ready.conclude s).2], call.hasReturned = true := by
      refine List.forall_mem_append.mpr ⟨hbefore, fun call hmem => ?_⟩
      rw [List.mem_singleton.mp hmem]
      exact Call.hasReturned_conclude hcomplete s
    obtain ⟨more, hmore, hall⟩ := ih (ready.conclude s).1 hbefore' hrest
    refine ⟨conclusion before.length turns ++ more,
      List.forall_mem_append.mpr ⟨job?_conclusion, hmore⟩, ?_⟩
    rw [run_append, run_conclusion]
    rw [List.append_assoc] at hall
    exact hall

/-- A call can do what `execute` does. -/
def RunsAlone (s : Scheduler) (job : Job) : Prop :=
  ∃ acts call, (Service.mk s []).run (.call job true :: acts) = ⟨(job.executeOn s).2, [call]⟩ ∧
    call.stage = .returned (job.executeOn s).1

/-- If nobody else uses the scheduler and the pool is ready, a call does what `execute` does. -/
theorem runsAlone (s : Scheduler) (job : Job) : RunsAlone s job := by
  unfold RunsAlone
  obtain ⟨pooled, hpooled⟩ : ∃ pooled, s.wantsPool job.candidates.length = pooled := ⟨_, rfl⟩
  have hstep : (Service.mk s []).step (.call job true) = ⟨s.lendPool pooled, [.new job pooled]⟩ := by
    rw [← hpooled]
    rfl
  by_cases hempty : job.candidates = []
  · have hinline : pooled = false := by
      rw [← hpooled, hempty]
      exact decide_eq_false fun h => absurd h.1 (by decide)
    rw [Job.executeOn_empty hempty]
    refine ⟨[], .new job false, hstep.trans ?_, if_pos (List.isEmpty_iff.mpr hempty)⟩
    rw [hinline]
    unfold lendPool
    rw [Bool.or_false]
  · obtain ⟨turns, hcomplete⟩ := (Batch.shared_ready job.batch).completes
    have hshared := (Batch.shared_ready job.batch).turns turns
    let ready : Call := ⟨job, turns.foldl job.batch.turn job.batch.ready, .encoding pooled⟩
    have hconclude : ready.conclude (s.lendPool pooled) =
        ((job.executeOn s).2, { ready with stage := .returned (job.executeOn s).1 }) := by
      rw [ready.conclude_encoding rfl hshared hcomplete, ← hpooled, countAs_lendPool,
        Job.executeOn_tasks hempty]
    refine ⟨conclusion 0 turns, { ready with stage := .returned (job.executeOn s).1 }, ?_, rfl⟩
    show ((Service.mk s []).step (.call job true)).run _ = _
    rw [hstep, Call.new_tasks hempty]
    refine (run_conclusion _ [] _ [] turns).trans ?_
    show Service.mk (ready.conclude (s.lendPool pooled)).1 [(ready.conclude (s.lendPool pooled)).2] = _
    rw [hconclude]

end Service

/-! ## Any acts -/

/-- What holds after acts of any number of callers: the calls are those that were made, what they
return is what `execute` gives for their jobs, all can return without further calls, and when they
have, the counters are those of the jobs. -/
structure Accounted (s : Scheduler) (acts : List Act) : Prop where
  jobs : ((Service.mk s []).run acts).calls.map Call.job = acts.filterMap Act.job?
  records : ∀ call ∈ ((Service.mk s []).run acts).calls, ∀ record,
    call.stage = .returned record → ∀ any, record = (call.job.executeOn any).1
  returns : ∃ more, (∀ act ∈ more, act.job? = none) ∧
    ∀ call ∈ ((Service.mk s []).run (acts ++ more)).calls, call.hasReturned = true
  counts : (∀ call ∈ ((Service.mk s []).run acts).calls, call.hasReturned = true) →
    ((Service.mk s []).run acts).scheduler.counts = s.counts + tallyOf (acts.filterMap Act.job?)

theorem accounted (s : Scheduler) (acts : List Act) : s.Accounted acts := by
  have hstart : Service.Kept s [] ⟨s, []⟩ := ⟨rfl, nofun, rfl⟩
  have hkept := hstart.run acts
  rw [List.nil_append] at hkept
  constructor
  case jobs => exact hkept.jobs
  case records =>
    intro call hcall record hrecord any
    rw [call.job.executeOn_eq]
    exact (hkept.sound call hcall).record record hrecord
  case returns =>
    obtain ⟨more, hmore, hall⟩ := Service.exists_returned
      ((Service.mk s []).run acts).scheduler (List.forall_mem_nil _) hkept.sound
    refine ⟨more, hmore, ?_⟩
    rw [Service.run_append]
    exact hall
  case counts =>
    intro hall
    rw [hkept.counts, Service.reported_of_returned hall, hkept.jobs]

/-- Whatever is chosen for a job is the first of the least records, and whether jobs come one after
the other or calls overlap, the counters are those of the jobs. -/
theorem selection_accounted : (∀ (job : Job) (s : Scheduler), job.Chosen s) ∧
    (∀ (s : Scheduler) jobs, (s.executeAll jobs).counts = s.counts + tallyOf jobs) ∧
    (∀ (s : Scheduler) job, Service.RunsAlone s job) ∧
    ∀ (s : Scheduler) acts, s.Accounted acts :=
  ⟨Job.chosen, executeAll_counts, Service.runsAlone, accounted⟩

end VersionChain.Scheduler
