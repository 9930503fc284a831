import Mathlib.Data.List.Basic
import VersionChain.Store.Transaction

/-!
# The statistics of a group

What becomes of the totals of one group when others are added, published and forgotten.

* `GroupStats.join` — totals with further ones, where there may be none, in any order;
* `Statistics.get?_record`, `Statistics.get?_flush`, `Statistics.get?_forgetTable` — the totals of a
  group after each change.
-/

namespace VersionChain

/-- The totals of a group with those of a portion; either may have none. -/
def GroupStats.join (totals : Option GroupStats) : (portion : Option GroupStats) → Option GroupStats
  | none => totals
  | some portion => some ((totals.getD {}).merge portion)

namespace GroupStats

@[simp] theorem join_none (totals : Option GroupStats) : join totals none = totals := rfl

@[simp] theorem none_join (portion : Option GroupStats) : join none portion = portion := by
  cases portion with
  | none => rfl
  | some portion => exact congrArg some portion.empty_merge

theorem join_comm (a b : Option GroupStats) : join a b = join b a := by
  cases a with
  | none => rw [none_join, join_none]
  | some a =>
    cases b with
    | none => rw [none_join, join_none]
    | some b => exact congrArg some (a.merge_comm b)

theorem join_assoc (a b c : Option GroupStats) : join (join a b) c = join a (join b c) := by
  cases b with
  | none => rw [none_join, join_none]
  | some b =>
    cases c with
    | none => rw [join_none, join_none]
    | some c => exact congrArg some ((a.getD {}).merge_assoc b c)

end GroupStats

namespace Statistics

variable (s : Statistics)

theorem get?_add (g : GroupId) (totals : GroupStats) (other : GroupId) :
    (s.add g totals).get? other =
      if other = g then GroupStats.join (s.get? other) (some totals) else s.get? other := by
  unfold get? add
  rw [Std.HashMap.getElem?_insert]
  by_cases hother : other = g
  · rw [hother, if_pos rfl, beq_self_eq_true, if_pos rfl, Std.HashMap.getD_eq_getD_getElem?]
    rfl
  · rw [if_neg hother, if_neg fun hsame => hother (eq_of_beq hsame).symm]

theorem get?_record (table : TableId) (outcome : Outcome) (g : GroupId) :
    (s.record table outcome).get? g =
      if g = ⟨table, outcome.group⟩ then GroupStats.join (s.get? g) (some (.ofOutcome outcome))
      else s.get? g := by
  rw [record_eq_add]
  exact get?_add s _ _ g

/-- Each group of a portion is added once. -/
theorem get?_foldl_add {portion : List (GroupId × GroupStats)}
    (hdistinct : portion.Pairwise fun a b => a.1 ≠ b.1) (g : GroupId) :
    (∀ totals, (g, totals) ∈ portion →
      (portion.foldl (fun s (g, totals) => s.add g totals) s).get? g =
        GroupStats.join (s.get? g) (some totals)) ∧
    ((∀ totals, (g, totals) ∉ portion) →
      (portion.foldl (fun s (g, totals) => s.add g totals) s).get? g = s.get? g) := by
  induction portion generalizing s with
  | nil => exact ⟨nofun, fun _ => rfl⟩
  | cons entry rest ih =>
    obtain ⟨first, totals⟩ := entry
    obtain ⟨hhead, htail⟩ := List.pairwise_cons.mp hdistinct
    obtain ⟨hmem, hnot⟩ := ih (s.add first totals) htail
    by_cases hg : g = first
    · -- the group comes first and not again
      subst hg
      have hrest : ∀ totals, (g, totals) ∉ rest := fun other hother => hhead (g, other) hother rfl
      have hadded := (hnot hrest).trans ((get?_add s g totals g).trans (if_pos rfl))
      constructor
      · intro other hother
        rcases List.mem_cons.mp hother with heq | hlater
        · cases heq
          exact hadded
        · exact absurd hlater (hrest other)
      · intro hmissing
        exact absurd List.mem_cons_self (hmissing totals)
    · have hfirst : (s.add first totals).get? g = s.get? g :=
        (get?_add s first totals g).trans (if_neg hg)
      rw [hfirst] at hmem hnot
      refine ⟨fun other hother => hmem other ?_, fun hmissing => hnot fun other hother => ?_⟩
      · rcases List.mem_cons.mp hother with heq | hlater
        · exact absurd (congrArg Prod.fst heq) hg
        · exact hlater
      · exact hmissing other (List.mem_cons_of_mem _ hother)

/-- The totals of a group are joined with those that are published for it. -/
theorem get?_flush (portion : Statistics) (g : GroupId) :
    (s.flush portion).get? g = GroupStats.join (s.get? g) (portion.get? g) := by
  have hdistinct : portion.groups.toList.Pairwise fun a b => a.1 ≠ b.1 :=
    Std.HashMap.distinct_keys_toList.imp fun hne heq => by simp [heq] at hne
  obtain ⟨hmem, hnot⟩ := get?_foldl_add s hdistinct g
  cases hportion : portion.get? g with
  | some totals => exact hmem totals (Std.HashMap.mem_toList_iff_getElem?_eq_some.mpr hportion)
  | none =>
    refine hnot fun totals htotals => ?_
    have hsome : portion.get? g = some totals :=
      Std.HashMap.mem_toList_iff_getElem?_eq_some.mp htotals
    cases hsome.symm.trans hportion

theorem get?_forgetTable (table : TableId) (g : GroupId) :
    (s.forgetTable table).get? g = if g.table = table then none else s.get? g := by
  unfold get? forgetTable
  rw [Std.HashMap.getElem?_filter']
  cases s.groups[g]? with
  | none => simp
  | some totals => by_cases htable : g.table = table <;> simp [htable]

theorem get?_empty (g : GroupId) : get? {} g = none := Std.HashMap.getElem?_empty

/-- As many groups have statistics as there are in a list of them without repetitions. -/
theorem size_eq {s : Statistics} {gs : List GroupId} (hdistinct : gs.Nodup)
    (h : ∀ g, (s.get? g).isSome = true ↔ g ∈ gs) : s.size = gs.length := by
  have hmem (g : GroupId) : g ∈ s.groups.keys ↔ g ∈ gs := by
    rw [Std.HashMap.mem_keys, Std.HashMap.mem_iff_isSome_getElem?]
    exact h g
  have hperm : s.groups.keys.Perm gs :=
    (List.perm_ext_iff_of_nodup Std.HashMap.nodup_keys hdistinct).mpr hmem
  exact Std.HashMap.length_keys.symm.trans hperm.length_eq

end Statistics

end VersionChain
