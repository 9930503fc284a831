import VersionChain.Proofs.Cache.Commands

/-!
# Tombstones are counted and kept few

The cache keeps count of the buckets in which removed entries left a tombstone, and fills all
buckets anew as soon as there are too many. So the count is right after every command, and at
most a quarter of the buckets are tombstones.

* `Tallied` — what it means for a cache;
* `Tallied.seat`, `Tallied.removeSlot` — a tombstone that is taken, and one that is left;
* `Tallied.perform` — one command.
-/

namespace VersionChain.BoundedCache

variable {κ ν : Type}

/-- The tombstones are counted, and are at most a quarter of the buckets. -/
structure Tallied (c : BoundedCache κ ν) : Prop where
  count : c.buckets.count .tombstone = c.tombstones
  quarter : 4 * c.tombstones ≤ c.buckets.size

theorem Tallied.congr {c d : BoundedCache κ ν} (h : Tallied c) (hbuckets : d.buckets = c.buckets)
    (htombstones : d.tombstones = c.tombstones) : Tallied d where
  count := by rw [hbuckets, htombstones, h.count]
  quarter := by rw [hbuckets, htombstones]; exact h.quarter

/-- Buckets without tombstones are tallied. -/
theorem tallied_of_count_zero {c : BoundedCache κ ν} (hcount : c.buckets.count .tombstone = 0)
    (htombstones : c.tombstones = 0) : Tallied c where
  count := by rw [hcount, htombstones]
  quarter := by rw [htombstones]; exact Nat.zero_le _

/-- Writing one bucket takes away what was in it and adds what is written. -/
theorem count_setIfInBounds {buckets : Array Bucket} {pos : Nat} {old : Bucket}
    (h : buckets[pos]? = some old) (written b : Bucket) :
    (buckets.setIfInBounds pos written).count b + (if old = b then 1 else 0) =
      buckets.count b + (if written = b then 1 else 0) := by
  obtain ⟨hlt, hold⟩ := Array.getElem?_eq_some_iff.mp h
  have hle := Array.boole_getElem_le_count (a := b) hlt
  rw [Array.setIfInBounds_def, dif_pos hlt, Array.count_set hlt, hold]
  rw [hold] at hle
  simp only [beq_iff_eq] at hle ⊢
  omega

theorem count_setIfInBounds_le {buckets : Array Bucket} {written b : Bucket} (hne : written ≠ b)
    (pos : Nat) : (buckets.setIfInBounds pos written).count b ≤ buckets.count b := by
  cases h : buckets[pos]? with
  | none =>
    rw [Array.setIfInBounds_eq_of_size_le (Array.getElem?_eq_none_iff.mp h)]
  | some old =>
    have hcount := count_setIfInBounds h written b
    rw [if_neg hne] at hcount
    omega

/-! ## Links and values -/

theorem Tallied.relink {c d : BoundedCache κ ν} (h : Tallied c) (hre : Relinked c d) : Tallied d :=
  h.congr (congrArg BoundedCache.buckets hre.rest :) (congrArg BoundedCache.tombstones hre.rest :)

theorem Tallied.use {c : BoundedCache κ ν} (h : Tallied c) (i : Nat) (f : Entry κ ν → Entry κ ν) :
    Tallied ((c.moveToBack i).modifyEntry i f) :=
  (h.relink (relinked_moveToBack c i)).congr rfl rfl

/-! ## Filling all buckets anew -/

/-- Seating a slot leaves no tombstone where there was none. -/
theorem no_tombstones_reseat {c : BoundedCache κ ν} (hcount : c.buckets.count .tombstone = 0)
    (htombstones : c.tombstones = 0) (i : Nat) (key : κ) :
    (c.reseat i key).buckets.count .tombstone = 0 ∧ (c.reseat i key).tombstones = 0 := by
  unfold reseat
  split
  · rename_i pos _
    have hle : (c.buckets.setIfInBounds pos (.occupied i)).count .tombstone ≤
        c.buckets.count .tombstone := count_setIfInBounds_le (by simp) pos
    rw [hcount] at hle
    exact ⟨Nat.le_zero.mp hle, htombstones⟩
  · exact ⟨hcount, htombstones⟩

theorem no_tombstones_reseatFrom {c : BoundedCache κ ν} (hcount : c.buckets.count .tombstone = 0)
    (htombstones : c.tombstones = 0) (n i : Nat) :
    (c.reseatFrom n i).buckets.count .tombstone = 0 ∧ (c.reseatFrom n i).tombstones = 0 := by
  induction n generalizing c i with
  | zero => exact ⟨hcount, htombstones⟩
  | succ n ih =>
    unfold reseatFrom
    split
    · rename_i entry _
      obtain ⟨hcount, htombstones⟩ := no_tombstones_reseat hcount htombstones i entry.key
      exact ih hcount htombstones _
    · exact ih hcount htombstones _

theorem tallied_rebuild (c : BoundedCache κ ν) : Tallied c.rebuild := by
  let cleared : BoundedCache κ ν :=
    { c with buckets := .replicate c.buckets.size .empty, tombstones := 0 }
  have hcleared : cleared.buckets.count .tombstone = 0 := by
    show (Array.replicate c.buckets.size Bucket.empty).count .tombstone = 0
    rw [Array.count_replicate]
    rfl
  obtain ⟨hcount, htombstones⟩ := no_tombstones_reseatFrom hcleared rfl c.slots.size 0
  exact tallied_of_count_zero hcount htombstones

/-- Sweeping needs the count to be right, and then the tombstones are few. -/
theorem tallied_sweep {c : BoundedCache κ ν} (h : c.buckets.count .tombstone = c.tombstones) :
    Tallied c.sweep := by
  unfold sweep
  split
  · exact tallied_rebuild c
  · rename_i hfew
    exact ⟨h, by omega⟩

/-! ## Entries that go and entries that come -/

/-- A slot that is freed leaves a tombstone where it was seated. -/
theorem Tallied.removeSlot {c : BoundedCache κ ν} {order vacant : List Nat} {i : Nat}
    {e : Entry κ ν} (h : Tallied c) (hvalid : Valid c order vacant) (he : c.entry? i = some e) :
    Tallied (c.removeSlot i).2 := by
  rw [removeSlot_eq he]
  refine tallied_sweep ?_
  have hunlinked := h.relink (relinked_unlink c i)
  have hbuckets : (c.unlink i).buckets = c.buckets :=
    (congrArg BoundedCache.buckets (relinked_unlink c i).rest :)
  have hseat : (c.unlink i).buckets[e.bucket]? = some (.occupied i) := by
    rw [hbuckets]
    exact hvalid.seated.on.seat i e trivial he
  have hcount := count_setIfInBounds hseat .tombstone .tombstone
  rw [if_neg (by simp), if_pos rfl, hunlinked.count] at hcount
  exact hcount

theorem Tallied.popOldest {c : BoundedCache κ ν} {order vacant : List Nat} (h : Tallied c)
    (hvalid : Valid c order vacant) : Tallied c.popOldest.2 := by
  unfold BoundedCache.popOldest
  split
  · rename_i i hi
    have hmem : i ∈ order := List.mem_of_mem_head? (hvalid.linked.head ▸ hi)
    obtain ⟨e, he⟩ := hvalid.linked.live hmem
    have hcounted : Tallied { c with evictions := c.evictions + 1 } := h.congr rfl rfl
    exact hcounted.removeSlot (hvalid.count c.hits c.misses (c.evictions + 1)) he
  · exact h

theorem Tallied.removeSlots {c : BoundedCache κ ν} {order vacant doomed : List Nat} (h : Tallied c)
    (hvalid : Valid c order vacant) (hdoomed : doomed.Nodup) (hlive : ∀ i ∈ doomed, i ∈ order) :
    Tallied (c.removeSlots doomed) := by
  induction doomed generalizing c order vacant with
  | nil => exact h
  | cons i rest ih =>
    obtain ⟨hi, hrest⟩ := List.nodup_cons.mp hdoomed
    obtain ⟨e, he⟩ := hvalid.linked.live (hlive i List.mem_cons_self)
    refine ih (h.removeSlot hvalid he) (hvalid.removeSlot he) hrest fun j hj => ?_
    have hne : j ≠ i := fun heq => hi (heq ▸ hj)
    exact List.mem_filter.mpr ⟨hlive j (List.mem_cons_of_mem i hj), by simpa using hne⟩

/-- Taking a slot leaves the buckets alone. -/
theorem buckets_allocate (c : BoundedCache κ ν) (entry : Entry κ ν) :
    (c.allocate entry).2.buckets = c.buckets ∧ (c.allocate entry).2.tombstones = c.tombstones := by
  unfold allocate
  split
  · exact ⟨rfl, rfl⟩
  · split <;> exact ⟨rfl, rfl⟩

/-- Where a tombstone is taken, there is one less. -/
theorem Tallied.occupy {c : BoundedCache κ ν} {pos : Nat} {b : Bucket} (h : Tallied c)
    (hb : c.buckets[pos]? = some b) (i : Nat) :
    Tallied (c.occupy pos i
      (if c.buckets[pos]? = some .tombstone then c.tombstones - 1 else c.tombstones)) := by
  have hcount : (c.buckets.setIfInBounds pos (.occupied i)).count .tombstone +
      (if b = .tombstone then 1 else 0) = c.tombstones := by
    rw [count_setIfInBounds hb, if_neg (by simp), h.count, Nat.add_zero]
  have hquarter := h.quarter
  rw [hb]
  by_cases htombstone : b = .tombstone
  · rw [if_pos htombstone] at hcount
    rw [if_pos (congrArg some htombstone)]
    refine ⟨Nat.eq_sub_of_add_eq hcount, ?_⟩
    show 4 * (c.tombstones - 1) ≤ (c.buckets.setIfInBounds pos (.occupied i)).size
    rw [Array.size_setIfInBounds]
    omega
  · rw [if_neg htombstone] at hcount
    rw [if_neg (fun heq => htombstone (Option.some.inj heq))]
    refine ⟨hcount, ?_⟩
    show 4 * c.tombstones ≤ (c.buckets.setIfInBounds pos (.occupied i)).size
    rw [Array.size_setIfInBounds]
    exact hquarter

/-- An entry that is seated on a tombstone takes it away. -/
theorem Tallied.seat {c : BoundedCache κ ν} {key : κ} {pos : Nat} (h : Tallied c)
    (hpos : c.vacantBucket? key = some pos) (value : ν) : Tallied (c.seat pos key value).2 := by
  obtain ⟨-, b, hb, -⟩ := vacantBucket?_eq_some hpos
  obtain ⟨hbuckets, htombstones⟩ := buckets_allocate c { key, value, bucket := pos }
  have hallocated := h.congr hbuckets htombstones
  rw [← hbuckets] at hb
  unfold BoundedCache.seat
  split
  · rename_i a halloc
    rw [halloc] at hallocated
    exact hallocated
  · rename_i i a halloc
    rw [halloc] at hallocated hb
    exact ((hallocated.occupy hb i).relink (relinked_pushBack _ i)).congr rfl rfl

/-! ## Commands -/

variable [DecidableEq κ]

theorem Tallied.update {c : BoundedCache κ ν} (h : Tallied c) (key : κ) (f : ν → ν) :
    Tallied (c.update key f).2 := by
  unfold BoundedCache.update
  split
  · rename_i i _
    have hcounted : Tallied { c with hits := c.hits + 1 } := h.congr rfl rfl
    exact hcounted.use i _
  · exact h.congr rfl rfl

theorem Tallied.remove {c : BoundedCache κ ν} (h : Tallied c) (hwell : WellFormed c) (key : κ) :
    Tallied (c.remove key).2 := by
  obtain ⟨order, vacant, hvalid⟩ := hwell
  unfold BoundedCache.remove
  split
  · rename_i i hfind
    obtain ⟨e, he, -⟩ := probe_sound hfind
    exact h.removeSlot hvalid he
  · exact h

omit [DecidableEq κ] in
/-- The slots that are freed together are live and distinct. -/
theorem Linked.doomed {c : BoundedCache κ ν} {order : List Nat} (h : Linked c order)
    (goes : Entry κ ν → Bool) :
    ((c.inOrder.filter fun x => goes x.2).map (·.1)).Nodup ∧
    ∀ i ∈ (c.inOrder.filter fun x => goes x.2).map (·.1), i ∈ order := by
  rw [h.inOrder_eq, slots_filter (fun i hi => h.live hi) goes]
  exact ⟨h.nodup.filter _, fun i hi => (List.mem_filter.mp hi).1⟩

omit [DecidableEq κ] in
theorem Tallied.retain {c : BoundedCache κ ν} (h : Tallied c) (hwell : WellFormed c)
    (keep : κ → ν → Bool) : Tallied (c.retain keep).2 := by
  obtain ⟨order, vacant, hvalid⟩ := hwell
  obtain ⟨hnodup, hlive⟩ := hvalid.linked.doomed fun e => !keep e.key e.value
  exact h.removeSlots hvalid hnodup hlive

theorem Tallied.insert {c : BoundedCache κ ν} (h : Tallied c) (hwell : WellFormed c) (key : κ)
    (value : ν) : Tallied (c.insert key value).2 := by
  obtain ⟨order, vacant, hvalid⟩ := hwell
  have hpopped : Tallied (if c.capacity ≤ c.len then c.popOldest else (none, c)).2 := by
    split
    · exact h.popOldest hvalid
    · exact h
  unfold BoundedCache.insert
  split
  · exact h
  · split
    · rename_i i _
      have hmoved := h.relink (relinked_moveToBack c i)
      simp only
      split
      · exact h.use i _
      · exact hmoved
    · simp only
      split
      · exact hpopped
      · rename_i pos hpos
        have hseated := hpopped.seat hpos value
        split
        · rename_i hseat
          rw [hseat] at hseated
          exact hseated
        · rename_i hseat
          rw [hseat] at hseated
          split <;> exact hseated

omit [DecidableEq κ] in
theorem tallied_of_empty {c : BoundedCache κ ν} {n : Nat} (hbuckets : c.buckets = .replicate n .empty)
    (htombstones : c.tombstones = 0) : Tallied c := by
  refine tallied_of_count_zero ?_ htombstones
  rw [hbuckets, Array.count_replicate]
  rfl

/-- Every command leaves the tombstones counted and few. -/
theorem Tallied.perform {c : BoundedCache κ ν} (h : Tallied c) (hwell : WellFormed c)
    (command : CacheCommand κ ν) : Tallied (c.perform command).2 := by
  cases command with
  | get key => exact h.update key id
  | update key f => exact h.update key f
  | peek key => exact h
  | contains key => exact h
  | insert key value => exact h.insert hwell key value
  | remove key => exact h.remove hwell key
  | popOldest =>
    obtain ⟨order, vacant, hvalid⟩ := hwell
    exact h.popOldest hvalid
  | retain keep => exact h.retain hwell keep
  | clear => exact tallied_of_empty rfl rfl

end VersionChain.BoundedCache
