import Mathlib.Data.List.Nodup
import Mathlib.Data.List.Perm.Subperm
import VersionChain.Proofs.Selection.Choice

/-!
# Sharing a batch

Any number of claimants may take part in a batch: the caller, the threads that the batch was
announced to, and threads that come late and find it finished already. They take turns in any
order. In one turn a claimant either claims the next task or, if it holds one, finishes it; one that
claims a number behind the last task leaves the batch for good.

* `Crew`, `turn`, `play` — claimants taking turns;
* `Shared`, `Shared.turn` — what every turn preserves: no task is claimed or encoded twice;
* `Shared.isComplete_iff` — a batch is complete when all tasks are claimed and none is held;
* `Shared.outcomes` — a complete batch has the outcomes of its tasks, whoever encoded them;
* `Shared.completes` — a batch can be completed from wherever it is;
* `run_eq_play`, `run_outcomes` — running a batch alone is taking all the turns.
-/

namespace VersionChain.Batch

/-- What a claimant has. -/
inductive Hand where
  | idle
  | holds (i : Nat)
  | gone
  deriving DecidableEq, Repr

/-- A batch and those who take part in it. -/
structure Crew where
  progress : Progress
  hands : Nat → Hand
  /-- Who claimed which number, in this order. -/
  claims : List (Nat × Nat)
  /-- Who finished which task, in this order. -/
  encodings : List (Nat × Nat)

namespace Crew

/-- The numbers that were claimed. -/
def claimed (c : Crew) : List Nat := c.claims.map Prod.snd

/-- The tasks that were finished. -/
def encoded (c : Crew) : List Nat := c.encodings.map Prod.snd

/-- A claimant has something else now. -/
def give (c : Crew) (who : Nat) (hand : Hand) : Nat → Hand :=
  fun k => if k = who then hand else c.hands k

end Crew

/-- A crew before anything has been claimed. -/
def ready (b : Batch) : Crew := ⟨b.start, fun _ => .idle, [], []⟩

/-- One turn of a claimant: an atomic claim, or encoding the task that it holds, storing the outcome
and counting it. -/
def turn (b : Batch) (c : Crew) (who : Nat) : Crew :=
  match c.hands who with
  | .idle =>
    let (i, progress) := claim c.progress
    { c with
      progress
      hands := c.give who (if i < b.tasks.size then .holds i else .gone)
      claims := c.claims ++ [(who, i)] }
  | .holds i =>
    { c with
      progress := b.finish c.progress i
      hands := c.give who .idle
      encodings := c.encodings ++ [(who, i)] }
  | .gone => c

/-- The claimants take turns in this order. -/
def play (b : Batch) (turns : List Nat) : Crew := turns.foldl b.turn b.ready

/-- The cells when every task has its outcome. -/
def outcomes (b : Batch) : Array (Option Encoded) :=
  (Array.range b.tasks.size).map fun i => some (b.outcome i)

/-- How many of the tasks break down. -/
def breakdowns (b : Batch) : Nat :=
  (List.range b.tasks.size).countP fun i => b.outcome i = .crashed

variable {b : Batch} {c : Crew} {who i : Nat}

theorem turn_idle (hhand : c.hands who = .idle) : b.turn c who = { c with
    progress := (claim c.progress).2
    hands := c.give who (if c.progress.next < b.tasks.size then .holds c.progress.next else .gone)
    claims := c.claims ++ [(who, c.progress.next)] } := by
  unfold turn
  simp only [hhand]
  rfl

theorem turn_holds (hhand : c.hands who = .holds i) : b.turn c who = { c with
    progress := b.finish c.progress i
    hands := c.give who .idle
    encodings := c.encodings ++ [(who, i)] } := by
  unfold turn
  simp only [hhand]

theorem turn_gone (hhand : c.hands who = .gone) : b.turn c who = c := by
  unfold turn
  simp only [hhand]

/-- Who has something either was given it or had it. -/
theorem Crew.give_cases {hand given : Hand} {k : Nat} (h : c.give who given k = hand) :
    k = who ∧ given = hand ∨ k ≠ who ∧ c.hands k = hand := by
  unfold give at h
  split at h
  · rename_i hwho
    exact .inl ⟨hwho, h⟩
  · rename_i hne
    exact .inr ⟨hne, h⟩

/-- A turn leaves the others what they have. -/
theorem hands_turn_of_ne {k : Nat} (hne : k ≠ who) : (b.turn c who).hands k = c.hands k := by
  cases hhand : c.hands who with
  | idle =>
    rw [turn_idle hhand]
    exact if_neg hne
  | holds i =>
    rw [turn_holds hhand]
    exact if_neg hne
  | gone => rw [turn_gone hhand]

/-! ## What every turn preserves -/

/-- The numbers are claimed in their order. A task that was claimed is either held by the one who
claimed it or was finished by that one, and then its cell has its outcome. -/
structure Shared (b : Batch) (c : Crew) : Prop where
  claimed : c.claimed = List.range c.progress.next
  once : c.encoded.Nodup
  encoded : ∀ who i, (who, i) ∈ c.encodings → (who, i) ∈ c.claims ∧ i < b.tasks.size
  held : ∀ who i, c.hands who = .holds i →
    (who, i) ∈ c.claims ∧ i < b.tasks.size ∧ i ∉ c.encoded
  settled : ∀ who i, (who, i) ∈ c.claims → i < b.tasks.size →
    (who, i) ∈ c.encodings ∨ c.hands who = .holds i
  gone : ∀ who, c.hands who = .gone → ∃ i, (who, i) ∈ c.claims ∧ b.tasks.size ≤ i
  size : c.progress.cells.size = b.tasks.size
  cells : ∀ i < b.tasks.size,
    c.progress.cells[i]? = some (if i ∈ c.encoded then some (b.outcome i) else none)
  completed : c.progress.completed = c.encoded.length
  crashes : c.progress.crashes = c.encoded.countP fun i => b.outcome i = .crashed

theorem shared_ready (b : Batch) : Shared b b.ready where
  claimed := rfl
  once := List.nodup_nil
  encoded _ _ hmem := absurd hmem List.not_mem_nil
  held _ _ hhand := nomatch hhand
  settled _ _ hmem := absurd hmem List.not_mem_nil
  gone _ hhand := nomatch hhand
  size := Array.size_replicate
  cells i hi := (ordered_start b).open_ i (Nat.zero_le i) hi
  completed := rfl
  crashes := rfl

namespace Shared

theorem mem_claimed (h : Shared b c) : i ∈ c.claimed ↔ i < c.progress.next := by
  rw [h.claimed, List.mem_range]

theorem lt_of_mem_claims (h : Shared b c) (hmem : (who, i) ∈ c.claims) : i < c.progress.next :=
  h.mem_claimed.mp (List.mem_map_of_mem hmem)

theorem mem_encoded (h : Shared b c) (hmem : i ∈ c.encoded) :
    i < c.progress.next ∧ i < b.tasks.size := by
  obtain ⟨⟨who, j⟩, hencoding, rfl⟩ := List.mem_map.mp hmem
  obtain ⟨hclaim, hsize⟩ := h.encoded who j hencoding
  exact ⟨h.lt_of_mem_claims hclaim, hsize⟩

/-- A number is claimed by one claimant only. -/
theorem claimant_unique (h : Shared b c) {other : Nat} (hmem : (who, i) ∈ c.claims)
    (hother : (other, i) ∈ c.claims) : other = who := by
  have hnodup : (c.claims.map Prod.snd).Nodup := by
    rw [show c.claims.map Prod.snd = _ from h.claimed]
    exact List.nodup_range
  exact congrArg Prod.fst (List.inj_on_of_nodup_map hnodup hother hmem rfl)

/-- The cell of a task that is held is empty, and nobody else holds the task. -/
theorem empty_of_held (h : Shared b c) (hhand : c.hands who = .holds i) :
    i < b.tasks.size ∧ c.progress.cells[i]? = some none ∧
      ∀ other, c.hands other = .holds i → other = who := by
  obtain ⟨hclaim, hsize, hopen⟩ := h.held who i hhand
  refine ⟨hsize, ?_, fun other hother => h.claimant_unique hclaim (h.held other i hother).1⟩
  rw [h.cells i hsize, if_neg hopen]

/-- A claimant without a task claims the next one. -/
theorem claim (h : Shared b c) (hhand : c.hands who = .idle) : Shared b (b.turn c who) := by
  have hfresh : c.progress.next ∉ c.encoded := fun hmem =>
    absurd (h.mem_encoded hmem).1 (Nat.lt_irrefl _)
  rw [turn_idle hhand]
  constructor
  case claimed =>
    show (c.claims ++ [(who, c.progress.next)]).map Prod.snd = List.range (c.progress.next + 1)
    rw [List.map_append, show c.claims.map Prod.snd = _ from h.claimed, List.range_succ]
    rfl
  case once => exact h.once
  case encoded =>
    intro k i hmem
    obtain ⟨hclaim, hsize⟩ := h.encoded k i hmem
    exact ⟨List.mem_append_left _ hclaim, hsize⟩
  case held =>
    intro k i hk
    rcases Crew.give_cases hk with ⟨rfl, hgiven⟩ | ⟨-, hk⟩
    · split at hgiven
      · rename_i hnext
        cases hgiven
        exact ⟨List.mem_append_right _ (List.mem_singleton.mpr rfl), hnext, hfresh⟩
      · cases hgiven
    · obtain ⟨hclaim, hsize, hopen⟩ := h.held k i hk
      exact ⟨List.mem_append_left _ hclaim, hsize, hopen⟩
  case settled =>
    intro k i hmem hsize
    rcases List.mem_append.mp hmem with hmem | hmem
    · refine (h.settled k i hmem hsize).imp_right fun hheld => ?_
      have hne : k ≠ who := by
        rintro rfl
        cases hhand.symm.trans hheld
      exact (if_neg hne).trans hheld
    · cases List.mem_singleton.mp hmem
      exact .inr ((if_pos rfl).trans (if_pos hsize))
  case gone =>
    intro k hk
    rcases Crew.give_cases hk with ⟨rfl, hgiven⟩ | ⟨-, hk⟩
    · split at hgiven
      · cases hgiven
      · rename_i hnext
        exact ⟨c.progress.next, List.mem_append_right _ (List.mem_singleton.mpr rfl),
          Nat.not_lt.mp hnext⟩
    · obtain ⟨i, hclaim, hsize⟩ := h.gone k hk
      exact ⟨i, List.mem_append_left _ hclaim, hsize⟩
  case size => exact h.size
  case cells => exact h.cells
  case completed => exact h.completed
  case crashes => exact h.crashes

/-- The cells after one more task, which was open, was finished. -/
theorem cells_finish (h : Shared b c) (hopen : i ∉ c.encoded) {j : Nat} (hj : j < b.tasks.size) :
    (b.finish c.progress i).cells[j]? =
      some (if j ∈ c.encoded ++ [i] then some (b.outcome j) else none) := by
  show (c.progress.cells.modify i fun cell => some (cell.getD (b.outcome i)))[j]? = _
  rw [Array.getElem?_modify, h.cells j hj]
  by_cases hij : i = j
  · subst hij
    rw [if_pos rfl, if_neg hopen, if_pos (List.mem_append_right _ (List.mem_singleton.mpr rfl))]
    rfl
  · rw [if_neg hij]
    have hsame : j ∈ c.encoded ++ [i] ↔ j ∈ c.encoded := by
      rw [List.mem_append, List.mem_singleton, or_iff_left (Ne.symm hij)]
    simp only [hsame]

theorem crashes_finish (h : Shared b c) (i : Nat) :
    (b.finish c.progress i).crashes =
      (c.encoded ++ [i]).countP fun i => b.outcome i = .crashed := by
  show (if b.outcome i = .crashed then c.progress.crashes + 1 else c.progress.crashes) = _
  rw [List.countP_append, List.countP_singleton, h.crashes]
  split
  · rename_i hcrashed
    rw [decide_eq_true hcrashed, if_pos rfl]
  · rename_i hfine
    rw [decide_eq_false hfine, if_neg Bool.false_ne_true]
    rfl

/-- A claimant finishes the task that it holds. -/
theorem finish (h : Shared b c) (hhand : c.hands who = .holds i) : Shared b (b.turn c who) := by
  obtain ⟨hclaim, hsize, hopen⟩ := h.held who i hhand
  rw [turn_holds hhand]
  have hencoded : (c.encodings ++ [(who, i)]).map Prod.snd = c.encoded ++ [i] := List.map_append
  constructor
  case claimed => exact h.claimed
  case once =>
    show ((c.encodings ++ [(who, i)]).map Prod.snd).Nodup
    rw [hencoded, List.nodup_append]
    refine ⟨h.once, List.nodup_singleton i, fun j hj k hk => ?_⟩
    rintro rfl
    rw [List.mem_singleton.mp hk] at hj
    exact hopen hj
  case encoded =>
    intro k j hencoding
    rcases List.mem_append.mp hencoding with hencoding | hencoding
    · exact h.encoded k j hencoding
    · cases List.mem_singleton.mp hencoding
      exact ⟨hclaim, hsize⟩
  case held =>
    intro k j hk
    rcases Crew.give_cases hk with ⟨-, hgiven⟩ | ⟨hne, hk⟩
    · cases hgiven
    · obtain ⟨hclaim', hsize', hopen'⟩ := h.held k j hk
      refine ⟨hclaim', hsize', ?_⟩
      show j ∉ (c.encodings ++ [(who, i)]).map Prod.snd
      rw [hencoded, List.mem_append, List.mem_singleton]
      rintro (hdone | rfl)
      · exact hopen' hdone
      · exact hne (h.claimant_unique hclaim hclaim')
  case settled =>
    intro k j hclaim' hsize'
    rcases h.settled k j hclaim' hsize' with hdone | hheld
    · exact .inl (List.mem_append_left _ hdone)
    · by_cases hwho : k = who
      · subst hwho
        cases hhand.symm.trans hheld
        exact .inl (List.mem_append_right _ (List.mem_singleton.mpr rfl))
      · exact .inr ((if_neg hwho).trans hheld)
  case gone =>
    intro k hk
    rcases Crew.give_cases hk with ⟨-, hgiven⟩ | ⟨-, hk⟩
    · cases hgiven
    · exact h.gone k hk
  case size => exact Array.size_modify.trans h.size
  case cells =>
    intro j hj
    show _ = some (if j ∈ (c.encodings ++ [(who, i)]).map Prod.snd then
      some (b.outcome j) else none)
    rw [hencoded]
    exact h.cells_finish hopen hj
  case completed =>
    show c.progress.completed + 1 = ((c.encodings ++ [(who, i)]).map Prod.snd).length
    rw [hencoded, List.length_append, h.completed]
    rfl
  case crashes =>
    show _ = ((c.encodings ++ [(who, i)]).map Prod.snd).countP fun i => b.outcome i = .crashed
    rw [hencoded]
    exact h.crashes_finish i

theorem turn (h : Shared b c) (who : Nat) : Shared b (b.turn c who) := by
  cases hhand : c.hands who with
  | idle => exact h.claim hhand
  | holds i => exact h.finish hhand
  | gone =>
    rw [turn_gone hhand]
    exact h

theorem turns (h : Shared b c) (turns : List Nat) : Shared b (turns.foldl b.turn c) := by
  induction turns generalizing c with
  | nil => exact h
  | cons who rest ih => exact ih (h.turn who)

end Shared

theorem shared_play (b : Batch) (turns : List Nat) : Shared b (b.play turns) :=
  (shared_ready b).turns turns

/-! ## Complete batches -/

theorem completed_le_turn (b : Batch) (c : Crew) (who : Nat) :
    c.progress.completed ≤ (b.turn c who).progress.completed := by
  cases hhand : c.hands who with
  | idle =>
    rw [turn_idle hhand]
    exact Nat.le_refl _
  | holds i =>
    rw [turn_holds hhand]
    exact Nat.le_succ _
  | gone => exact Nat.le_of_eq (by rw [turn_gone hhand])

/-- A batch that is complete stays so. -/
theorem isComplete_turn (hcomplete : b.isComplete c.progress = true) (who : Nat) :
    b.isComplete (b.turn c who).progress = true := by
  unfold isComplete at *
  rw [decide_eq_true_iff] at *
  exact Nat.le_trans hcomplete (b.completed_le_turn c who)

namespace Shared

/-- A batch is complete when each of its tasks was encoded once. -/
theorem isComplete_iff_perm (h : Shared b c) :
    b.isComplete c.progress = true ↔ c.encoded.Perm (List.range b.tasks.size) := by
  have hsubset : c.encoded ⊆ List.range b.tasks.size := fun i hi =>
    List.mem_range.mpr (h.mem_encoded hi).2
  unfold isComplete
  rw [decide_eq_true_iff, h.completed]
  constructor
  · intro hle
    refine (List.subperm_of_subset h.once hsubset).perm_of_length_le ?_
    rw [List.length_range]
    exact hle
  · intro hperm
    exact Nat.le_of_eq (hperm.length_eq.trans List.length_range).symm

/-- A batch is complete when all tasks are claimed and none is held. -/
theorem isComplete_iff (h : Shared b c) : b.isComplete c.progress = true ↔
    b.tasks.size ≤ c.progress.next ∧ ∀ who i, c.hands who ≠ .holds i := by
  rw [h.isComplete_iff_perm]
  constructor
  · intro hperm
    have hencoded : ∀ {i}, i < b.tasks.size → i ∈ c.encoded := fun hi =>
      hperm.mem_iff.mpr (List.mem_range.mpr hi)
    refine ⟨?_, fun who i hhand => ?_⟩
    · by_contra hlt
      exact absurd (h.mem_encoded (hencoded (Nat.not_le.mp hlt))).1 (Nat.lt_irrefl _)
    · obtain ⟨-, hsize, hopen⟩ := h.held who i hhand
      exact hopen (hencoded hsize)
  · rintro ⟨hnext, hfree⟩
    refine (List.perm_ext_iff_of_nodup h.once List.nodup_range).mpr fun i => ?_
    rw [List.mem_range]
    refine ⟨fun hmem => (h.mem_encoded hmem).2, fun hsize => ?_⟩
    obtain ⟨⟨who, j⟩, hclaim, rfl⟩ :=
      List.mem_map.mp (h.mem_claimed.mpr (Nat.lt_of_lt_of_le hsize hnext))
    rcases h.settled who j hclaim hsize with hdone | hheld
    · exact List.mem_map_of_mem hdone
    · exact absurd hheld (hfree who j)

/-- A complete batch has the outcomes of its tasks, in whatever order they were encoded. -/
theorem outcomes (h : Shared b c) (hcomplete : b.isComplete c.progress = true) :
    c.progress.cells = b.outcomes ∧ c.progress.crashes = b.breakdowns := by
  have hperm := h.isComplete_iff_perm.mp hcomplete
  refine ⟨Array.ext_getElem? fun i => ?_, h.crashes.trans (hperm.countP_eq _)⟩
  unfold Batch.outcomes
  rw [Array.getElem?_map, Array.getElem?_range]
  by_cases hi : i < b.tasks.size
  · rw [h.cells i hi, if_pos (hperm.mem_iff.mpr (List.mem_range.mpr hi)), if_pos hi]
    rfl
  · rw [if_neg hi, Array.getElem?_eq_none (h.size ▸ Nat.not_lt.mp hi)]
    rfl

/-- There are claimants who have not come yet. -/
theorem exists_idle (h : Shared b c) : ∃ who, c.hands who = .idle := by
  obtain ⟨who, hfresh⟩ : ∃ who, who ∉ c.claims.map Prod.fst := by
    by_contra hall
    have hsubset : List.range (c.claims.length + 1) ⊆ c.claims.map Prod.fst := fun who _ =>
      of_not_not (not_exists.mp hall who)
    have hle := (List.subperm_of_subset List.nodup_range hsubset).length_le
    rw [List.length_range, List.length_map] at hle
    exact absurd hle (Nat.not_succ_le_self _)
  refine ⟨who, ?_⟩
  cases hhand : c.hands who with
  | idle => rfl
  | holds i => exact absurd (List.mem_map_of_mem (h.held who i hhand).1) hfresh
  | gone =>
    obtain ⟨i, hclaim, -⟩ := h.gone who hhand
    exact absurd (List.mem_map_of_mem hclaim) hfresh

/-- While a batch is not complete, somebody can finish a task: one who holds it, or one who claims
it first. -/
theorem exists_advance (h : Shared b c) (hopen : ¬ b.isComplete c.progress = true) :
    ∃ turns : List Nat, (turns.foldl b.turn c).progress.completed = c.progress.completed + 1 := by
  rw [h.isComplete_iff, not_and_or] at hopen
  by_cases hheld : ∃ who i, c.hands who = .holds i
  · obtain ⟨who, i, hhand⟩ := hheld
    refine ⟨[who], ?_⟩
    show (b.turn c who).progress.completed = _
    rw [turn_holds hhand]
    rfl
  · have hnext : c.progress.next < b.tasks.size := by
      rcases hopen with hnext | hfree
      · exact Nat.not_le.mp hnext
      · exact absurd (fun who i hhand => hheld ⟨who, i, hhand⟩) hfree
    obtain ⟨who, hhand⟩ := h.exists_idle
    refine ⟨[who, who], ?_⟩
    have hgiven : (b.turn c who).hands who = .holds c.progress.next := by
      rw [turn_idle hhand, if_pos hnext]
      exact if_pos rfl
    show (b.turn (b.turn c who) who).progress.completed = _
    rw [turn_holds hgiven, turn_idle hhand]
    rfl

/-- From wherever a batch is, some turns complete it. -/
theorem completes {c : Crew} (h : Shared b c) :
    ∃ turns : List Nat, b.isComplete (turns.foldl b.turn c).progress = true := by
  by_cases hcomplete : b.isComplete c.progress = true
  · exact ⟨[], hcomplete⟩
  · obtain ⟨turns, hturns⟩ := h.exists_advance hcomplete
    have hopen : c.progress.completed < b.tasks.size := by
      unfold isComplete at hcomplete
      rw [decide_eq_true_iff] at hcomplete
      exact Nat.not_le.mp hcomplete
    obtain ⟨more, hmore⟩ := (h.turns turns).completes
    refine ⟨turns ++ more, ?_⟩
    rw [List.foldl_append]
    exact hmore
termination_by b.tasks.size - c.progress.completed
decreasing_by omega

end Shared

/-! ## Alone -/

/-- Running a batch is taking the turns of one claimant, when nobody else holds a task. -/
theorem run_eq_turns {p : Progress} (hp : c.progress = p) (hhand : c.hands who = .idle)
    (hfree : ∀ k, k ≠ who → ∀ i, c.hands k ≠ .holds i) : ∃ turns : List Nat,
      (turns.foldl b.turn c).progress = b.run p ∧
        ∀ k i, (turns.foldl b.turn c).hands k ≠ .holds i := by
  fun_induction run b p generalizing c with
  | case1 p hnext ih =>
    subst hp
    -- one turn to claim the next task, one to finish it
    have hgiven : (b.turn c who).hands who = .holds c.progress.next := by
      rw [turn_idle hhand, if_pos hnext]
      exact if_pos rfl
    have hafter := turn_holds (b := b) hgiven
    have hprogress : (b.turn (b.turn c who) who).progress =
        b.finish (claim c.progress).2 c.progress.next := by
      rw [hafter, turn_idle hhand]
    have hidle : (b.turn (b.turn c who) who).hands who = .idle := by
      rw [hafter]
      exact if_pos rfl
    obtain ⟨turns, hrun, hnone⟩ := ih hprogress hidle fun k hne i => by
      rw [hands_turn_of_ne hne, hands_turn_of_ne hne]
      exact hfree k hne i
    exact ⟨who :: who :: turns, hrun, hnone⟩
  | case2 p hnext =>
    subst hp
    refine ⟨[who], ?_, fun k i => ?_⟩
    · show (b.turn c who).progress = _
      rw [turn_idle hhand]
    · show (b.turn c who).hands k ≠ _
      by_cases hne : k = who
      · have hgone : (b.turn c who).hands who = .gone := by
          rw [turn_idle hhand, if_neg hnext]
          exact if_pos rfl
        rw [hne, hgone]
        intro hholds
        cases hholds
      · rw [hands_turn_of_ne hne]
        exact hfree k hne i

/-- The batch that is run alone is complete. -/
theorem run_eq_play (b : Batch) : ∃ turns,
    (b.play turns).progress = b.run b.start ∧
      b.isComplete (b.play turns).progress = true := by
  obtain ⟨turns, hrun, hnone⟩ := run_eq_turns (b := b) (c := b.ready) rfl
    (show b.ready.hands 0 = .idle from rfl) fun _ _ _ => nofun
  refine ⟨turns, hrun, (b.shared_play turns).isComplete_iff.mpr ⟨?_, hnone⟩⟩
  show b.tasks.size ≤ (turns.foldl b.turn b.ready).progress.next
  rw [hrun]
  exact Nat.le_of_lt (b.run_next b.start)

/-- A batch that is run alone ends with the outcomes of its tasks. -/
theorem run_outcomes (b : Batch) :
    (b.run b.start).cells = b.outcomes ∧ (b.run b.start).crashes = b.breakdowns := by
  obtain ⟨turns, hrun, hcomplete⟩ := b.run_eq_play
  rw [← hrun]
  exact (b.shared_play turns).outcomes hcomplete

end VersionChain.Batch
