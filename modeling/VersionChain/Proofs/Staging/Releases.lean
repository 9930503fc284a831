import VersionChain.Proofs.Staging.Claims

/-!
# Giving up the slots of a table

When a table is forgotten, the slots of its groups are freed one after the other. From then on every
token of these groups is out of date, whenever it was given out. The other groups keep their tokens
and what is behind them.

* `slots_freeSlots`, `mem_slotsOf` — the slots that are freed;
* `Valid.isCurrent_invalidate`, `Valid.ring?_invalidate` — tokens of all groups;
* `Booked.invalidate` — the counters.
-/

namespace VersionChain.StagingBuffer

variable {b : StagingBuffer} {t : Token} {table : TableId}

theorem slots_freeSlots (b : StagingBuffer) (l : List Nat) (j : Nat) :
    (b.freeSlots l).slots[j]? = if j ∈ l then (b.slots[j]?).map freed else b.slots[j]? := by
  induction l generalizing b with
  | nil => rfl
  | cons i rest ih =>
    show ((b.freeSlot i).freeSlots rest).slots[j]? = _
    rw [ih, slots_freeSlot]
    by_cases hi : j = i
    · rw [if_pos hi, if_pos (List.mem_cons.mpr (.inl hi))]
      split
      · rw [Option.map_map]
        rfl
      · rfl
    · rw [if_neg hi]
      simp only [List.mem_cons, hi, false_or]

theorem mem_slotsOf {i : Nat} : i ∈ b.slotsOf table ↔
    ∃ slot g, b.slots[i]? = some slot ∧ slot.owner = some g ∧ g.table = table := by
  unfold slotsOf
  rw [List.mem_filter, List.mem_range, Option.any_eq_true]
  constructor
  · rintro ⟨-, g, howner, htable⟩
    obtain ⟨slot, hslot, hg⟩ := Option.bind_eq_some_iff.mp howner
    exact ⟨slot, g, hslot, hg, of_decide_eq_true htable⟩
  · rintro ⟨slot, g, hslot, hg, htable⟩
    refine ⟨(Array.getElem?_eq_some_iff.mp hslot).1, g, ?_, decide_eq_true htable⟩
    rw [hslot]
    exact hg

/-! ## Tokens -/

/-- A token is as current as before, unless it is one of the table. -/
theorem isCurrent_invalidate (b : StagingBuffer) (table : TableId) (t : Token) :
    (b.invalidate table).2.isCurrent t = (decide (t.owner.table ≠ table) && b.isCurrent t) := by
  have hslots := b.slots_freeSlots (b.slotsOf table) t.slot
  rw [Bool.eq_iff_iff, Bool.and_eq_true, decide_eq_true_eq, isCurrent_iff, isCurrent_iff]
  show (∃ slot, (b.freeSlots (b.slotsOf table)).slots[t.slot]? = some slot ∧ _) ↔ _
  rw [hslots]
  constructor
  · rintro ⟨slot, hslot, howner, hepoch⟩
    split at hslot
    · -- a slot that was freed has no owner
      obtain ⟨_, -, rfl⟩ := Option.map_eq_some_iff.mp hslot
      cases howner
    · rename_i hkept
      refine ⟨fun htable => hkept ?_, slot, hslot, howner, hepoch⟩
      exact mem_slotsOf.mpr ⟨slot, t.owner, hslot, howner, htable⟩
  · rintro ⟨htable, slot, hslot, howner, hepoch⟩
    have hkept : t.slot ∉ b.slotsOf table := by
      rw [mem_slotsOf]
      rintro ⟨s, g, hs, hg, hgTable⟩
      cases hslot.symm.trans hs
      cases howner.symm.trans hg
      exact htable hgTable
    rw [if_neg hkept]
    exact ⟨slot, hslot, howner, hepoch⟩

/-- A token leads to the ring of its group, if it is current. -/
theorem Valid.ring?_eq (h : b.Valid) (t : Token) :
    b.ring? t = if b.isCurrent t then b.ringFor t.owner else none := by
  by_cases hcurrent : b.isCurrent t = true
  · obtain ⟨ring, hstaged⟩ := h.staged hcurrent
    rw [if_pos hcurrent, hstaged.ring?_eq, hstaged.ring]
  · rw [if_neg hcurrent]
    exact if_neg hcurrent

/-- Tokens of other tables lead to the rings that they led to. -/
theorem Valid.ring?_invalidate (h : b.Valid) (htable : t.owner.table ≠ table) :
    (b.invalidate table).2.ring? t = b.ring? t := by
  obtain ⟨hvalid, hrings⟩ := h.invalidate table
  rw [hvalid.ring?_eq, h.ring?_eq, isCurrent_invalidate, hrings, if_neg htable,
    decide_eq_true htable, Bool.true_and]

/-! ## Counters -/

/-- Freeing slots that have owners, each of them once. -/
theorem Valid.size_owners_freeSlots (h : b.Valid) {l : List Nat} (hnodup : l.Nodup)
    (howned : ∀ i ∈ l, ∃ slot g, b.slots[i]? = some slot ∧ slot.owner = some g) :
    l.length + (b.freeSlots l).owners.size = b.owners.size := by
  induction l generalizing b with
  | nil => exact Nat.zero_add _
  | cons i rest ih =>
    obtain ⟨hfirst, hrest⟩ := List.nodup_cons.mp hnodup
    obtain ⟨slot, g, hslot, howner⟩ := howned i List.mem_cons_self
    have hsize := h.size_owners_freeSlot hslot howner
    have hlater := ih (h.freeSlot i) hrest fun j hj => by
      obtain ⟨s, g, hs, hg⟩ := howned j (List.mem_cons_of_mem i hj)
      have hne : j ≠ i := fun heq => hfirst (heq ▸ hj)
      exact ⟨s, g, (slots_freeSlot i j).trans ((if_neg hne).trans hs), hg⟩
    show rest.length + 1 + ((b.freeSlot i).freeSlots rest).owners.size = _
    omega

/-- Freeing slots changes nothing but slots, owners and rings. -/
theorem freeSlots_frame (b : StagingBuffer) (l : List Nat) :
    ∃ slots owners arena, b.freeSlots l = { b with slots, owners, arena } := by
  induction l generalizing b with
  | nil => exact ⟨b.slots, b.owners, b.arena, rfl⟩
  | cons i rest ih =>
    have hfirst : ∃ slots owners arena, b.freeSlot i = { b with slots, owners, arena } := by
      unfold freeSlot
      split
      · exact ⟨b.slots, b.owners, b.arena, rfl⟩
      · exact ⟨_, _, _, rfl⟩
    obtain ⟨slots, owners, arena, hfirst⟩ := hfirst
    obtain ⟨slots', owners', arena', hrest⟩ := ih (b.freeSlot i)
    refine ⟨slots', owners', arena', hrest.trans ?_⟩
    rw [hfirst]

theorem size_freeSlots (b : StagingBuffer) (l : List Nat) :
    (b.freeSlots l).slots.size = b.slots.size := by
  induction l generalizing b with
  | nil => rfl
  | cons i rest ih => exact (ih (b.freeSlot i)).trans (size_freeSlot i)

/-- As many claims and regions go as are counted. The other counters stay. -/
theorem Booked.invalidate (h : b.Booked) (table : TableId) : (b.invalidate table).2.Booked ∧
    b.stats = { (b.invalidate table).2.stats with
      claimed := (b.invalidate table).1 + (b.invalidate table).2.stats.claimed
      regions := (b.invalidate table).1 + (b.invalidate table).2.stats.regions } := by
  have hbooked : (b.invalidate table).2.Booked := h.freeSlots (b.slotsOf table)
  have hclaimed : (b.invalidate table).1 + (b.invalidate table).2.owners.size = b.owners.size :=
    h.valid.size_owners_freeSlots (List.nodup_range.filter _) fun i hi => by
      obtain ⟨slot, g, hslot, hg, -⟩ := mem_slotsOf.mp hi
      exact ⟨slot, g, hslot, hg⟩
  have hregions : (b.invalidate table).1 + (b.invalidate table).2.arena.live = b.arena.live := by
    rw [hbooked.regions, h.regions]
    exact hclaimed
  have hsize : (b.invalidate table).2.slots.size = b.slots.size := b.size_freeSlots _
  obtain ⟨slots, owners, arena, hframe⟩ := b.freeSlots_frame (b.slotsOf table)
  have hevicted : (b.invalidate table).2.evictedWhileOwned = b.evictedWhileOwned :=
    (congrArg evictedWhileOwned hframe :)
  have hmismatches : (b.invalidate table).2.mismatches = b.mismatches :=
    (congrArg mismatches hframe :)
  refine ⟨hbooked, ?_⟩
  unfold stats
  rw [hclaimed, hregions, hsize, hevicted, hmismatches]

end VersionChain.StagingBuffer
