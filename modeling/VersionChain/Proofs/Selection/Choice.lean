import Mathlib.Data.List.Induction
import Mathlib.Data.List.Nodup
import VersionChain.Selection.Scheduler

/-!
# The chosen record

Whoever runs a batch, every candidate is encoded once and its record ends up in its own cell.
The choice among the cells is therefore a choice among the records of the candidates: the least
by length and tag, and the one that stands by if no candidate is less.

* `Batch.cells_run` — what the cells hold when all tasks are done;
* `Scheduler.execute_eq` — the choice as a fold over the candidates;
* `Scheduler.choose_least`, `Scheduler.choose_firstLeast` — what is chosen is the least, and of
  equal records the earlier one;
* `Scheduler.choose_perm` — the order of records under different tags does not matter.
-/

namespace VersionChain

namespace Batch

variable {b : Batch} {p : Progress}

/-- The tasks before the next one have their outcomes, the others have none. -/
structure Ordered (b : Batch) (p : Progress) : Prop where
  done : ∀ i, i < p.next → i < b.tasks.size → p.cells[i]? = some (some (b.outcome i))
  open_ : ∀ i, p.next ≤ i → i < b.tasks.size → p.cells[i]? = some none

theorem ordered_start (b : Batch) : Ordered b b.start where
  done i hi := absurd hi (Nat.not_lt_zero i)
  open_ i _ hi := by
    show (Array.replicate b.tasks.size (none : Option Encoded))[i]? = _
    rw [Array.getElem?_replicate, if_pos hi]

theorem Ordered.finish (h : Ordered b p) (hnext : p.next < b.tasks.size) :
    Ordered b (b.finish (claim p).2 (claim p).1) := by
  have hcells : ∀ i : Nat, (b.finish (claim p).2 (claim p).1).cells[i]? =
      if p.next = i then (p.cells[i]?).map fun cell => some (cell.getD (b.outcome p.next))
      else p.cells[i]? := by
    intro i
    show (p.cells.modify p.next fun cell => some (cell.getD (b.outcome p.next)))[i]? = _
    rw [Array.getElem?_modify]
  constructor
  · intro i hi hsize
    have hi' : i < p.next + 1 := hi
    rw [hcells]
    split
    · rename_i heq
      rw [← heq, h.open_ p.next (Nat.le_refl _) hnext]
      rfl
    · exact h.done i (by omega) hsize
  · intro i hi hsize
    have hi' : p.next + 1 ≤ i := hi
    rw [hcells, if_neg (by omega)]
    exact h.open_ i (by omega) hsize

theorem cells_run_of_ordered (h : Ordered b p) {i : Nat} (hi : i < b.tasks.size) :
    (b.run p).cells[i]? = some (some (b.outcome i)) := by
  fun_induction run b p with
  | case1 p hnext ih => exact ih (h.finish hnext)
  | case2 p hdone => exact h.done i (by omega) hi

/-- When all tasks are done, every cell holds the outcome of its task. -/
theorem cells_run (b : Batch) {i : Nat} (hi : i < b.tasks.size) :
    (b.run b.start).cells[i]? = some (some (b.outcome i)) :=
  cells_run_of_ordered (ordered_start b) hi

end Batch

namespace TaggedRecord

/-- By length, then by the rank of the tag. -/
def AtMost (a b : TaggedRecord) : Prop :=
  a.size < b.size ∨ a.size = b.size ∧ a.tag.rank ≤ b.tag.rank

theorem AtMost.refl (a : TaggedRecord) : AtMost a a := .inr ⟨rfl, Nat.le_refl _⟩

theorem AtMost.trans {a b c : TaggedRecord} (h : AtMost a b) (h' : AtMost b c) : AtMost a c := by
  unfold AtMost at *
  omega

theorem AtMost.size_le {a b : TaggedRecord} (h : AtMost a b) : a.size ≤ b.size := by
  unfold AtMost at h
  omega

theorem atMost_of_beats {a b : TaggedRecord} (h : a.beats b = true) : AtMost a b := by
  unfold beats at h
  unfold AtMost
  simp only [decide_eq_true_eq] at h
  omega

theorem atMost_of_not_beats {a b : TaggedRecord} (h : ¬ a.beats b = true) : AtMost b a := by
  unfold beats at h
  unfold AtMost
  simp only [decide_eq_true_eq] at h
  omega

theorem not_atMost_of_beats {a b : TaggedRecord} (h : a.beats b = true) : ¬ AtMost b a := by
  unfold beats at h
  unfold AtMost
  simp only [decide_eq_true_eq] at h
  omega

/-- Of two records under different tags one is preferred to the other. -/
theorem beats_or_beats {a b : TaggedRecord} (htags : a.tag ≠ b.tag) :
    a.beats b = true ∧ ¬ b.beats a = true ∨ b.beats a = true ∧ ¬ a.beats b = true := by
  have hranks : a.tag.rank ≠ b.tag.rank := fun heq => htags (Tag.rank_injective heq)
  unfold beats
  simp only [decide_eq_true_eq]
  omega

/-- Of records none of which is larger, the earliest. -/
structure FirstLeast (r : TaggedRecord) (records : List TaggedRecord) : Prop where
  least : ∀ record ∈ records, r.AtMost record
  first : ∃ before after, records = before ++ r :: after ∧ ∀ record ∈ before, ¬ record.AtMost r

end TaggedRecord

/-- The record of a candidate, if the codec writes one. -/
def Candidate.record? (codec : Codec) (target : Bytes) (extraPass : Bool) (c : Candidate) :
    Option TaggedRecord :=
  (codec.encode c.tag c.base target extraPass).record?.map (⟨c.tag, ·⟩)

/-- The records that are left of candidates under different tags are under different tags. -/
theorem Candidate.tags_nodup {codec : Codec} {target : Bytes} {extraPass : Bool}
    {candidates : List Candidate} (htags : (candidates.map Candidate.tag).Nodup) :
    ((candidates.filterMap (Candidate.record? codec target extraPass)).map
      TaggedRecord.tag).Nodup := by
  have htag : ∀ {c : Candidate} {record}, c.record? codec target extraPass = some record →
      record.tag = c.tag := by
    intro c record hrecord
    obtain ⟨bytes, -, rfl⟩ := Option.map_eq_some_iff.mp hrecord
    rfl
  unfold List.Nodup at htags ⊢
  rw [List.pairwise_map] at htags ⊢
  refine List.pairwise_filterMap.mpr (htags.imp fun hne record hrecord other hother => ?_)
  rw [htag hrecord, htag hother]
  exact hne

namespace Scheduler

/-- The better one of two records; the second if none is better. -/
def prefer (best record : TaggedRecord) : TaggedRecord := if record.beats best then record else best

/-- The best of the records and the one that stands by. -/
def choose (fallback : TaggedRecord) (records : List TaggedRecord) : TaggedRecord :=
  records.foldl prefer fallback

theorem choose_least (fallback : TaggedRecord) (records : List TaggedRecord) :
    choose fallback records ∈ fallback :: records ∧
    ∀ record ∈ fallback :: records, (choose fallback records).AtMost record := by
  induction records generalizing fallback with
  | nil =>
    refine ⟨List.mem_singleton.mpr rfl, fun record hrecord => ?_⟩
    rw [List.mem_singleton.mp hrecord]
    exact .refl _
  | cons first rest ih =>
    obtain ⟨hmem, hleast⟩ := ih (prefer fallback first)
    have hprefer : (prefer fallback first = first ∨ prefer fallback first = fallback) ∧
        (prefer fallback first).AtMost first ∧ (prefer fallback first).AtMost fallback := by
      unfold prefer
      split
      · rename_i hbeats
        exact ⟨.inl rfl, .refl _, TaggedRecord.atMost_of_beats hbeats⟩
      · rename_i hbeats
        exact ⟨.inr rfl, TaggedRecord.atMost_of_not_beats hbeats, .refl _⟩
    obtain ⟨hwhich, hfirst, hfallback⟩ := hprefer
    -- the better one of the first two stands by for the rest
    have hchoose : choose fallback (first :: rest) = choose (prefer fallback first) rest := rfl
    have hbest := hleast _ List.mem_cons_self
    rw [hchoose]
    constructor
    · rcases List.mem_cons.mp hmem with heq | hrest
      · rw [heq]
        rcases hwhich with h | h <;> rw [h] <;> simp
      · exact List.mem_cons_of_mem _ (List.mem_cons_of_mem _ hrest)
    · intro record hrecord
      rcases List.mem_cons.mp hrecord with rfl | hrecord
      · exact hbest.trans hfallback
      · rcases List.mem_cons.mp hrecord with rfl | hrest
        · exact hbest.trans hfirst
        · exact hleast record (List.mem_cons_of_mem _ hrest)

/-- Of equal records the earlier one is chosen. -/
theorem choose_firstLeast (fallback : TaggedRecord) (records : List TaggedRecord) :
    (choose fallback records).FirstLeast (fallback :: records) := by
  refine ⟨(choose_least fallback records).2, ?_⟩
  induction records using List.reverseRecOn with
  | nil => exact ⟨[], [], rfl, nofun⟩
  | append_singleton rest last ih =>
    obtain ⟨before, after, hsplit, hbefore⟩ := ih
    have hchoose : choose fallback (rest ++ [last]) = prefer (choose fallback rest) last :=
      List.foldl_append
    rw [hchoose]
    unfold prefer
    split
    · rename_i hbeats
      refine ⟨fallback :: rest, [], rfl, fun record hrecord hle => ?_⟩
      have hleast := (choose_least fallback rest).2 record hrecord
      exact TaggedRecord.not_atMost_of_beats hbeats (hleast.trans hle)
    · refine ⟨before, after ++ [last], ?_, hbefore⟩
      rw [← List.cons_append, hsplit, List.append_assoc, List.cons_append]

example : choose ⟨.keyframe, #[1, 2]⟩ [⟨.back 2, #[3]⟩, ⟨.back 1, #[4]⟩, ⟨.back 1, #[5]⟩] =
    ⟨.back 1, #[4]⟩ := by decide

theorem prefer_of_beats {best record : TaggedRecord} (h : record.beats best = true) :
    prefer best record = record := if_pos h

theorem prefer_of_not_beats {best record : TaggedRecord} (h : ¬ record.beats best = true) :
    prefer best record = best := if_neg h

/-- A record that is not preferred to the best one is not preferred to a better one. -/
theorem prefer_skip {a b best : TaggedRecord} (ha : a.beats best = true)
    (hb : ¬ b.beats best = true) : prefer (prefer best a) b = prefer (prefer best b) a := by
  have hba : ¬ b.beats a = true := fun hbeats => by
    have hle : best.AtMost a :=
      (TaggedRecord.atMost_of_not_beats hb).trans (TaggedRecord.atMost_of_beats hbeats)
    exact TaggedRecord.not_atMost_of_beats ha hle
  rw [prefer_of_beats ha, prefer_of_not_beats hba, prefer_of_not_beats hb, prefer_of_beats ha]

/-- Two records under different tags may be compared in any order. -/
theorem prefer_right_comm {a b : TaggedRecord} (htags : a.tag ≠ b.tag) (best : TaggedRecord) :
    prefer (prefer best a) b = prefer (prefer best b) a := by
  by_cases ha : a.beats best = true
  · by_cases hb : b.beats best = true
    · rw [prefer_of_beats ha, prefer_of_beats hb]
      rcases TaggedRecord.beats_or_beats htags with ⟨hab, hba⟩ | ⟨hba, hab⟩
      · rw [prefer_of_not_beats hba, prefer_of_beats hab]
      · rw [prefer_of_beats hba, prefer_of_not_beats hab]
    · exact prefer_skip ha hb
  · by_cases hb : b.beats best = true
    · exact (prefer_skip hb ha).symm
    · rw [prefer_of_not_beats ha, prefer_of_not_beats hb, prefer_of_not_beats ha]

/-- The order of records under different tags does not matter. -/
theorem choose_perm {fallback : TaggedRecord} {records other : List TaggedRecord}
    (htags : (records.map TaggedRecord.tag).Nodup) (hperm : records.Perm other) :
    choose fallback records = choose fallback other := by
  refine hperm.foldl_eq' (fun a ha b hb best => ?_) fallback
  by_cases heq : a.tag = b.tag
  · rw [List.inj_on_of_nodup_map htags ha hb heq]
  · exact prefer_right_comm heq best

/-- Choosing among cells that hold the outcomes of the tasks is choosing among the records. -/
theorem select_eq {codec : Codec} {target : Bytes} {extraPass : Bool} {tasks : List Candidate}
    {cells : Array (Option Encoded)} {i : Nat} {best : TaggedRecord}
    (hcells : ∀ k task, tasks[k]? = some task →
      cells[i + k]? = some (some (codec.encode task.tag task.base target extraPass))) :
    select tasks cells i best =
      choose best (tasks.filterMap (Candidate.record? codec target extraPass)) := by
  induction tasks generalizing i best with
  | nil => rfl
  | cons task rest ih =>
    have hfirst : (cells.getD i none).bind Encoded.record? =
        (codec.encode task.tag task.base target extraPass).record? := by
      rw [Array.getD_eq_getD_getElem?, show cells[i]? = _ from hcells 0 task rfl]
      rfl
    have hrest : ∀ k task, rest[k]? = some task →
        cells[i + 1 + k]? = some (some (codec.encode task.tag task.base target extraPass)) := by
      intro k task hk
      rw [Nat.add_assoc, Nat.add_comm 1 k]
      exact hcells (k + 1) task hk
    unfold select
    rw [hfirst, List.filterMap_cons]
    unfold Candidate.record?
    cases hencode : (codec.encode task.tag task.base target extraPass).record? with
    | some bytes => exact ih hrest
    | none => exact ih hrest

/-- The choice as one over the records of the candidates. -/
theorem execute_eq (s : Scheduler) (codec : Codec) (target : Bytes) (candidates : List Candidate)
    (fallback : TaggedRecord) (extraPass : Bool) :
    (s.execute codec target candidates fallback extraPass).1 =
      choose fallback (candidates.filterMap (Candidate.record? codec target extraPass)) := by
  unfold execute
  split
  · rename_i hempty
    rw [List.isEmpty_iff.mp hempty]
    rfl
  · refine select_eq fun k task hk => ?_
    have hlt := (List.getElem?_eq_some_iff.mp hk).1
    rw [Nat.zero_add]
    refine (Batch.cells_run ⟨codec, target, extraPass, candidates.toArray⟩
      (by simpa using hlt)).trans ?_
    unfold Batch.outcome
    simp only [List.getElem?_toArray, hk]

end Scheduler

end VersionChain
