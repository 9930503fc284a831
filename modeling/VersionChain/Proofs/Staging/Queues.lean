import Mathlib
import VersionChain.Proofs.Staging.Calls
import VersionChain.Proofs.Staging.Fifo

/-!
# What the tokens stand for

A run of calls to a staging buffer gives every token that is handed out a queue of its own. The
queue is begun when the slot is claimed, and only calls with this very token change it. As long as
the token is current, the buffer offers what the queue does.

* `queuesAfter` — the queues of the tokens;
* `Queued` — a current token leads to a ring that stands for a queue;
* `Mirrors.perform` — one call;
* `offers_queue` — every run.
-/

namespace VersionChain.StagingBuffer

/-- The queues of the tokens after a call. A new claim begins one; the calls that write change that
of their token, if it has one. -/
def queuesAfter (b : StagingBuffer) (queues : Token → Option Fifo) :
    StagingCommand → Token → Option Fifo
  | .acquire owner depth columns =>
    let (t, isNew, _) := b.acquire owner depth columns
    if isNew then
      Function.update queues t
        (some { depth := clampDepth depth, columns := min columns maxShape })
    else queues
  | .push t seq column content =>
    Function.update queues t ((queues t).map (·.push seq column content))
  | .commit t seq => Function.update queues t ((queues t).map (·.commit seq))
  | .populate t rows => Function.update queues t ((queues t).map (·.populate rows))
  | .recentBases _ _ _ _ => queues
  | .invalidate _ => queues

/-- A buffer and the queues of its tokens after calls. -/
def track (start : StagingBuffer × (Token → Option Fifo)) (commands : List StagingCommand) :
    StagingBuffer × (Token → Option Fifo) :=
  commands.foldl (fun s command => (s.1.perform command, s.1.queuesAfter s.2 command)) start

/-- The single calls that stage the columns of a row from `column` on. -/
def pushCalls (t : Token) (seq column : Nat) : List (Option Bytes) → List StagingCommand
  | [] => []
  | none :: rest => pushCalls t seq (column + 1) rest
  | some content :: rest => .push t seq column content :: pushCalls t seq (column + 1) rest

/-- The single calls that push and commit rows one after the other. -/
def stageCalls (t : Token) : List StagedRow → List StagingCommand
  | [] => []
  | row :: rest => pushCalls t row.seq 0 row.columns ++ .commit t row.seq :: stageCalls t rest

variable {b c d : StagingBuffer} {t : Token} {f : Fifo} {owner : GroupId}
  {queues : Token → Option Fifo}

/-! ## A token that is current -/

/-- A current token leads to a ring that stands for a queue. -/
def Queued (b : StagingBuffer) (t : Token) (f : Fifo) : Prop :=
  ∃ ring, Staged b t ring ∧ ring.Holds f

/-- A column that there is not is refused by both. -/
theorem Queued.push (h : Queued b t f) (seq column : Nat) (content : Bytes) :
    Queued (b.push t seq column content).2 t (f.push seq column content) := by
  obtain ⟨ring, hstaged, hholds⟩ := h
  by_cases hcolumn : column < f.columns
  · have hpushed := (hstaged.push seq content (hholds.columns ▸ hcolumn)).2.1
    exact ⟨_, hpushed, hholds.push hcolumn seq content⟩
  · rw [hstaged.push_beyond seq content (hholds.columns ▸ hcolumn),
      show f.push seq column content = f from if_neg hcolumn]
    exact ⟨ring, hstaged, hholds⟩

theorem Queued.commit (h : Queued b t f) (seq : Nat) :
    (b.commit t seq).1 = true ∧ Queued (b.commit t seq).2 t (f.commit seq) := by
  obtain ⟨ring, hstaged, hholds⟩ := h
  obtain ⟨hanswer, hsealed, -⟩ := hstaged.commit seq
  exact ⟨hanswer, _, hsealed, hholds.commit seq⟩

theorem Queued.pushColumns (h : Queued b t f) (seq column : Nat) (contents : List (Option Bytes)) :
    b.pushColumns t seq column contents =
      (true, (pushCalls t seq column contents).foldl perform b) ∧
    Queued (b.pushColumns t seq column contents).2 t (f.pushColumns seq column contents) := by
  induction contents generalizing b f column with
  | nil => exact ⟨rfl, h⟩
  | cons head rest ih =>
    cases head with
    | none => exact ih h (column + 1)
    | some content =>
      have hpushed := h.push seq column content
      have hcurrent : (b.push t seq column content).2.isCurrent t = true := by
        obtain ⟨ring, hstaged, -⟩ := hpushed
        exact hstaged.current
      rw [pushColumns_some, if_pos (.inr hcurrent)]
      exact ih hpushed (column + 1)

theorem Queued.stageRows (h : Queued b t f) (rows : List StagedRow) :
    (b.stageRows t rows).2 = (stageCalls t rows).foldl perform b ∧
    Queued (b.stageRows t rows).2 t (f.stageRows rows) := by
  induction rows generalizing b f with
  | nil => exact ⟨rfl, h⟩
  | cons row rest ih =>
    obtain ⟨hcalls, hpushed⟩ := h.pushColumns row.seq 0 row.columns
    obtain ⟨hanswer, hsealed⟩ := hpushed.commit row.seq
    obtain ⟨hcalls', hrest⟩ := ih hsealed
    rw [stageRows_cons (by rw [hcalls]) hanswer]
    refine ⟨?_, hrest⟩
    rw [hcalls', hcalls, stageCalls, List.foldl_append, List.foldl_cons]
    rfl

theorem Queued.recentBases (h : Queued b t f) (target column limit : Nat) :
    (b.recentBases t target column limit).1 =
      if column < f.columns then f.bases target column limit else [] := by
  obtain ⟨ring, hstaged, hholds⟩ := h
  rw [hstaged.recentBases, hholds.columns, hholds.bases]

/-! ## Every call -/

/-- Every token that is current leads to a ring that stands for its queue. -/
structure Mirrors (b : StagingBuffer) (queues : Token → Option Fifo) : Prop where
  valid : Valid b
  queued : ∀ t, b.isCurrent t = true → ∃ f, queues t = some f ∧ Queued b t f

/-- What becomes of a token that stays current with the ring of its group. -/
theorem Queued.keep (h : Queued b t f) (hvalid : Valid c) (hcurrent : c.isCurrent t = true)
    (hring : c.ringFor t.owner = b.ringFor t.owner) : Queued c t f := by
  obtain ⟨ring, hstaged, hholds⟩ := h
  exact ⟨ring, ⟨hvalid, hcurrent, hring.trans hstaged.ring⟩, hholds⟩

/-- A call with a token does to its queue what it does to the ring. Once the token is out of date,
the queue no longer matters. -/
theorem Mirrors.call (h : Mirrors b queues) {change : Fifo → Fifo}
    (hkept : Undisturbed b c t) (hcurrent : ∀ f, Queued b t f → Queued c t (change f)) :
    Mirrors c (Function.update queues t ((queues t).map change)) := by
  refine ⟨hkept.valid, fun u hu => ?_⟩
  have hu' : b.isCurrent u = true := isCurrent_congr (fun i => (hkept.claims i).symm) hu
  obtain ⟨f, hf, hqueued⟩ := h.queued u hu'
  by_cases hut : u = t
  · subst hut
    refine ⟨change f, ?_, hcurrent f hqueued⟩
    rw [Function.update_self, hf]
    rfl
  · rw [Function.update_of_ne hut]
    refine ⟨f, hf, hqueued.keep hkept.valid hu ?_⟩
    by_cases hother : u.owner = t.owner
    · -- then the token of the call is out of date, and nothing happens
      have hstale : b.isCurrent t = false := by
        refine Bool.eq_false_iff.mpr fun ht => hut ?_
        exact h.valid.token_unique ht hu' hother
      exact hkept.stale hstale u.owner
    · exact hkept.others u.owner hother

theorem Mirrors.acquire (h : Mirrors b queues) (owner : GroupId) (depth columns : Nat) :
    Mirrors (b.acquire owner depth columns).2.2
      (b.queuesAfter queues (.acquire owner depth columns)) := by
  have hacquired := h.valid.acquire owner depth columns
  obtain ⟨ring, hring, -, -, hnew, hold⟩ := hacquired.ring
  refine ⟨hacquired.valid, fun u hu => ?_⟩
  show ∃ f, (if (b.acquire owner depth columns).2.1 = true then _ else queues) u = some f ∧ _
  by_cases howner : u.owner = owner
  · -- this is the token that the call gives
    have hut := hacquired.valid.token_unique hacquired.current hu
      (howner.trans hacquired.holder.symm)
    by_cases hisNew : (b.acquire owner depth columns).2.1 = true
    · rw [if_pos hisNew, hut]
      refine ⟨_, Function.update_self .., ring,
        ⟨hacquired.valid, hut ▸ hu, by rw [hacquired.holder]; exact hring⟩, ?_⟩
      rw [hnew hisNew]
      exact Ring.holds_new (by unfold clampDepth maxShape; omega) _
    · have hfalse := Bool.eq_false_iff.mpr hisNew
      obtain ⟨g, hg, hqueued⟩ := h.queued u (isCurrent_of_acquire h.valid hu (.inr hfalse))
      rw [if_neg hisNew]
      refine ⟨g, hg, hqueued.keep hacquired.valid hu ?_⟩
      rw [howner, hring, hold hfalse]
  · obtain ⟨g, hg, hqueued⟩ := h.queued u (isCurrent_of_acquire h.valid hu (.inl howner))
    have hring := (hacquired.others u.owner howner).resolve_left
      (hacquired.valid.ringFor_ne_none hu)
    refine ⟨g, ?_, hqueued.keep hacquired.valid hu hring⟩
    split
    · rw [Function.update_of_ne, hg]
      rintro rfl
      exact howner hacquired.holder
    · exact hg

theorem Mirrors.invalidate (h : Mirrors b queues) (table : TableId) :
    Mirrors (b.invalidate table).2 queues := by
  obtain ⟨hvalid, hrings⟩ := h.valid.invalidate table
  refine ⟨hvalid, fun u hu => ?_⟩
  obtain ⟨g, hg, hqueued⟩ := h.queued u (isCurrent_of_freeSlots hu)
  refine ⟨g, hg, hqueued.keep hvalid hu ?_⟩
  have hring := hvalid.ringFor_ne_none hu
  rw [hrings] at hring ⊢
  split at hring
  · exact absurd rfl hring
  · rename_i htable
    rw [if_neg htable]

theorem Mirrors.perform (h : Mirrors b queues) (command : StagingCommand) :
    Mirrors (b.perform command) (b.queuesAfter queues command) := by
  cases command with
  | acquire owner depth columns => exact h.acquire owner depth columns
  | push t seq column content =>
    exact h.call (h.valid.push t seq column content) fun f hqueued => hqueued.push seq column content
  | commit t seq => exact h.call (h.valid.commit t seq) fun f hqueued => (hqueued.commit seq).2
  | populate t rows =>
    exact h.call (h.valid.stageRows t _) fun f hqueued => (hqueued.stageRows _).2
  | recentBases t target column limit =>
    have hread : Mirrors (b.recentBases t target column limit).2
        (Function.update queues t ((queues t).map id)) := by
      refine h.call (h.valid.recentBases t target column limit) fun f hqueued => ?_
      obtain ⟨ring, hstaged, hholds⟩ := hqueued
      rw [hstaged.recentBases]
      exact ⟨ring, hstaged, hholds⟩
    rw [Option.map_id, id, Function.update_eq_self] at hread
    exact hread
  | invalidate table => exact h.invalidate table

/-! ## Every run -/

theorem mirrors_new (slots : Nat) : Mirrors (new slots) fun _ => none := by
  refine ⟨valid_new slots, fun t ht => ?_⟩
  obtain ⟨slot, hslot, howner, -⟩ := isCurrent_iff.mp ht
  have hnone : (new slots).owners[t.owner]? = none := Std.HashMap.getElem?_empty
  rw [((valid_new slots).owners t.owner t.slot).mpr ⟨slot, hslot, howner⟩] at hnone
  cases hnone

theorem Mirrors.track {s : StagingBuffer × (Token → Option Fifo)} (h : Mirrors s.1 s.2)
    (commands : List StagingCommand) : Mirrors (track s commands).1 (track s commands).2 := by
  induction commands generalizing s with
  | nil => exact h
  | cons command rest ih => exact ih (h.perform command)

/-- Whatever calls are made to a buffer, a token that is current has a queue, and what is offered
with it is what the queue offers; a token that is out of date is offered nothing. Populating is
the same as pushing and committing the rows in ascending order of their numbers, one call after
the other, and of these only so many are kept as the ring is deep. -/
theorem offers_queue (slots : Nat) (commands : List StagingCommand) (t : Token) :
    let (b, queues) := track (new slots, fun _ => none) commands
    (b.isCurrent t = true → ∃ f, queues t = some f ∧
      (∀ target column limit, (b.recentBases t target column limit).1 =
        if column < f.columns then f.bases target column limit else []) ∧
      ∀ rows, b.perform (.populate t rows) =
          (stageCalls t (rows.mergeSort fun x y => x.seq ≤ y.seq)).foldl perform b ∧
        (rows ≠ [] → (f.populate rows).retained.map (·.seq) =
          (((rows.mergeSort fun x y => x.seq ≤ y.seq).map (·.seq)).reverse ++
            f.commits.map (·.seq)).take f.depth)) ∧
    (b.isCurrent t = false → ∀ target column limit,
      (b.recentBases t target column limit).1 = []) := by
  have h := @Mirrors.track (new slots, fun _ => none) (mirrors_new slots) commands
  refine ⟨fun hcurrent => ?_, fun hstale target column limit => ?_⟩
  · obtain ⟨f, hf, hqueued⟩ := h.queued t hcurrent
    refine ⟨f, hf, hqueued.recentBases, fun rows => ⟨(hqueued.stageRows _).1, fun hrows => ?_⟩⟩
    exact f.seqs_retained_populate hrows
  · rw [recentBases_stale hstale]

/-- A slot is written, filled and written again, while another group claims one and claims it anew
in another shape. -/
def interleavedCalls : List StagingCommand :=
  let t : Token := ⟨0, ⟨1, ⟨0, 7⟩⟩, 1⟩
  [.acquire t.owner 3 1, .push t 1 0 #[10], .commit t 1, .acquire ⟨1, ⟨0, 8⟩⟩ 1 1,
    .populate t [⟨3, [some #[30]]⟩, ⟨2, [some #[20]]⟩], .acquire ⟨1, ⟨0, 8⟩⟩ 2 1, .push t 4 0 #[40]]

/-- What is offered are the two commits that the pending row has left of three. The token of the
claim that was made anew is offered nothing. -/
theorem offers_queue_pending_row :
    let s := track (new 2, fun _ => none) interleavedCalls
    let t : Token := ⟨0, ⟨1, ⟨0, 7⟩⟩, 1⟩
    let u : Token := ⟨1, ⟨1, ⟨0, 8⟩⟩, 2⟩
    s.1.isCurrent t = true ∧
    (∃ f, s.2 t = some f ∧ f.commits.map (·.seq) = [3, 2, 1] ∧ f.pending.map (·.seq) = some 4 ∧
      (s.1.recentBases t 4 0 5).1 = f.bases 4 0 5 ∧
      f.bases 4 0 5 = [⟨3, 1, #[30]⟩, ⟨2, 2, #[20]⟩]) ∧
    s.1.isCurrent u = false ∧ (s.1.recentBases u 4 0 5).1 = [] := by
  intro s t u
  have hcurrent : s.1.isCurrent t = true := by
    dsimp only [s, t]
    cbv
  have hstale : s.1.isCurrent u = false := by
    dsimp only [s, u]
    cbv
  have hqueue : s.2 t = some
      { depth := 3, columns := 1
        commits := [⟨3, #[some #[30]]⟩, ⟨2, #[some #[20]]⟩, ⟨1, #[some #[10]]⟩]
        pending := some ⟨4, #[some #[40]]⟩ } := by
    dsimp only [s, t]
    cbv
  obtain ⟨f, hf, hbases, -⟩ := (offers_queue 2 interleavedCalls t).1 hcurrent
  cases hqueue.symm.trans hf
  have hoffered := (hbases 4 0 5).trans (if_pos Nat.zero_lt_one)
  have hnothing := (offers_queue 2 interleavedCalls u).2 hstale 4 0 5
  refine ⟨hcurrent, ⟨_, hqueue, rfl, rfl, hoffered, ?_⟩, hstale, hnothing⟩
  decide

end VersionChain.StagingBuffer
