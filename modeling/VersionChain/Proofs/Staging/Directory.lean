import VersionChain.Proofs.Staging.Arena
import VersionChain.Staging.Buffer

/-!
# Slots and their owners

Seen from outside, a staging buffer is a table from groups to rings. The owner map, the slots,
the epochs and the arena keep this table: every claimed slot has a ring of its own, and nothing
that is done to one group shows in the ring of another.

* `Valid` — owners and slots are in step, and every claimed slot has a region of its own;
* `ringFor` — the ring of a group;
* `Valid.ringFor_freeSlot`, `Valid.acquire` — what freeing and claiming do to it.
-/

namespace VersionChain.StagingBuffer

variable {b : StagingBuffer}

/-- Owners and slots are in step, and every claimed slot has a region of its own. -/
structure Valid (b : StagingBuffer) : Prop where
  arena : b.arena.Valid
  positive : 0 < b.slots.size
  owners : ∀ g (i : Nat), b.owners[g]? = some i ↔
    ∃ slot, b.slots[i]? = some slot ∧ slot.owner = some g
  unclaimed : ∀ (i : Nat) slot, b.slots[i]? = some slot → slot.owner = none → slot.region = none
  housed : ∀ (i : Nat) slot, b.slots[i]? = some slot → slot.owner ≠ none →
    ∃ handle region, slot.region = some handle ∧ b.arena.get? handle = some region ∧
      region.depth = slot.depth ∧ region.columns = slot.columns
  apart : ∀ (i j : Nat) slot slot' handle handle', b.slots[i]? = some slot → b.slots[j]? = some slot' →
    slot.region = some handle → slot'.region = some handle' → handle.index = handle'.index → i = j

/-- The ring of a group. -/
def ringFor (b : StagingBuffer) (g : GroupId) : Option Ring :=
  b.owners[g]?.bind fun i => b.slots[i]?.bind b.ringOf

theorem ringOf_congr {c : StagingBuffer} {slot : StagingSlot}
    (h : ∀ handle, slot.region = some handle → c.arena.get? handle = b.arena.get? handle) :
    c.ringOf slot = b.ringOf slot := by
  unfold ringOf
  cases hregion : slot.region with
  | none => rfl
  | some handle => rw [Option.bind_some, Option.bind_some, h handle hregion]

/-- The ring of a group is that of the slot it owns. -/
theorem Valid.ringFor_eq (h : b.Valid) {i : Nat} {slot : StagingSlot} {g : GroupId}
    (hslot : b.slots[i]? = some slot) (howner : slot.owner = some g) :
    b.ringFor g = b.ringOf slot := by
  unfold ringFor
  rw [(h.owners g i).mpr ⟨slot, hslot, howner⟩, Option.bind_some, hslot, Option.bind_some]

theorem ringFor_eq_none (h : b.owners[g]? = none) : b.ringFor g = none := by
  unfold ringFor
  rw [h]
  rfl

theorem Valid.ringFor_isSome (h : b.Valid) {i : Nat} {slot : StagingSlot} {g : GroupId}
    (hslot : b.slots[i]? = some slot) (howner : slot.owner = some g) :
    ∃ region, b.ringFor g = some ⟨region, slot.cursor, slot.valid⟩ ∧
      region.depth = slot.depth ∧ region.columns = slot.columns := by
  obtain ⟨handle, region, hhandle, hget, hdepth, hcolumns⟩ :=
    h.housed i slot hslot (by rw [howner]; simp)
  refine ⟨region, ?_, hdepth, hcolumns⟩
  rw [h.ringFor_eq hslot howner]
  unfold ringOf
  rw [hhandle, Option.bind_some, hget]
  rfl

/-- A group keeps its ring if its slot and the region in it stay. -/
theorem Valid.ringFor_congr {c : StagingBuffer} (h : b.Valid) (hc : c.Valid) {g : GroupId}
    (howners : b.owners[g]? = none → c.owners[g]? = none)
    (hslots : ∀ (i : Nat) slot, b.slots[i]? = some slot → slot.owner = some g →
      c.slots[i]? = some slot ∧
        ∀ handle, slot.region = some handle → c.arena.get? handle = b.arena.get? handle) :
    c.ringFor g = b.ringFor g := by
  cases hg : b.owners[g]? with
  | none => rw [ringFor_eq_none hg, ringFor_eq_none (howners hg)]
  | some i =>
    obtain ⟨slot, hslot, howner⟩ := (h.owners g i).mp hg
    obtain ⟨hslot', hregion⟩ := hslots i slot hslot howner
    rw [hc.ringFor_eq hslot' howner, h.ringFor_eq hslot howner]
    exact ringOf_congr hregion

/-- The slot of a group is none of those with another owner. -/
theorem ne_of_owner {i j : Nat} {slot s : StagingSlot} {g : GroupId}
    (hslot : b.slots[i]? = some slot) (hother : slot.owner ≠ some g) (hs : b.slots[j]? = some s)
    (hsg : s.owner = some g) : j ≠ i := by
  rintro rfl
  rw [hslot] at hs
  cases hs
  exact hother hsg

/-- After one slot was written, a slot is that one, or as it was before. -/
theorem slot_cases {c : StagingBuffer} {i j : Nat} {written s : StagingSlot}
    (hslots : ∀ k : Nat, c.slots[k]? = if k = i then some written else b.slots[k]?)
    (hs : c.slots[j]? = some s) : j = i ∧ s = written ∨ j ≠ i ∧ b.slots[j]? = some s := by
  rw [hslots] at hs
  split at hs
  · rename_i hj
    exact .inl ⟨hj, (Option.some.inj hs).symm⟩
  · rename_i hj
    exact .inr ⟨hj, hs⟩

theorem valid_new (slots : Nat) : Valid (new slots) := by
  have hslot : ∀ (i : Nat) slot, (new slots).slots[i]? = some slot → slot = {} := by
    intro i slot hi
    have hi' : (Array.replicate (max slots 1) ({} : StagingSlot))[i]? = some slot := hi
    rw [Array.getElem?_replicate] at hi'
    split at hi'
    · exact (Option.some.inj hi').symm
    · cases hi'
  refine ⟨Arena.valid_empty, ?_, ?_, ?_, ?_, ?_⟩
  · show 0 < (Array.replicate (max slots 1) ({} : StagingSlot)).size
    rw [Array.size_replicate]
    omega
  · intro g i
    have hnone : (new slots).owners[g]? = none := Std.HashMap.getElem?_empty
    rw [hnone]
    constructor
    · intro hsome
      cases hsome
    · rintro ⟨slot, hi, howner⟩
      rw [hslot i slot hi] at howner
      cases howner
  · intro i slot hi _
    rw [hslot i slot hi]
  · intro i slot hi howner
    rw [hslot i slot hi] at howner
    exact absurd rfl howner
  · intro i j slot slot' handle handle' hi _ hhandle
    rw [hslot i slot hi] at hhandle
    cases hhandle

theorem ringFor_new (slots : Nat) (g : GroupId) : (new slots).ringFor g = none :=
  ringFor_eq_none Std.HashMap.getElem?_empty

/-! ## Changes that leave the claims alone -/

/-- What makes a claim: the group, its number, and the region with its shape. -/
def claimOf (slot : StagingSlot) : Option GroupId × Nat × Option (Handle Nat) × Nat × Nat :=
  (slot.owner, slot.epoch, slot.region, slot.depth, slot.columns)

theorem slot_of_claim {c : StagingBuffer} {i : Nat} {slot : StagingSlot}
    (h : (c.slots[i]?).map claimOf = (b.slots[i]?).map claimOf) (hslot : c.slots[i]? = some slot) :
    ∃ s, b.slots[i]? = some s ∧ s.owner = slot.owner ∧ s.epoch = slot.epoch ∧
      s.region = slot.region ∧ s.depth = slot.depth ∧ s.columns = slot.columns := by
  rw [hslot] at h
  obtain ⟨s, hs, heq⟩ := Option.map_eq_some_iff.mp h.symm
  simp only [claimOf, Prod.mk.injEq] at heq
  exact ⟨s, hs, heq⟩

theorem Valid.congr (h : b.Valid) {c : StagingBuffer} (harena : c.arena.Valid)
    (howners : c.owners = b.owners)
    (hslots : ∀ i : Nat, (c.slots[i]?).map claimOf = (b.slots[i]?).map claimOf)
    (hregions : ∀ handle region, b.arena.get? handle = some region →
      ∃ region', c.arena.get? handle = some region' ∧ region'.depth = region.depth ∧
        region'.columns = region.columns) : Valid c where
  arena := harena
  positive := by
    have hfirst := hslots 0
    rw [Array.getElem?_eq_getElem h.positive] at hfirst
    obtain ⟨slot, hslot, -⟩ := Option.map_eq_some_iff.mp hfirst
    exact (Array.getElem?_eq_some_iff.mp hslot).1
  owners g i := by
    rw [howners, h.owners g i]
    constructor
    · rintro ⟨slot, hslot, hg⟩
      obtain ⟨s, hs, howner, -⟩ := slot_of_claim (hslots i).symm hslot
      exact ⟨s, hs, howner.trans hg⟩
    · rintro ⟨slot, hslot, hg⟩
      obtain ⟨s, hs, howner, -⟩ := slot_of_claim (hslots i) hslot
      exact ⟨s, hs, howner.trans hg⟩
  unclaimed i slot hslot hnone := by
    obtain ⟨s, hs, howner, -, hregion, -⟩ := slot_of_claim (hslots i) hslot
    rw [← hregion]
    exact h.unclaimed i s hs (howner.trans hnone)
  housed i slot hslot hclaimed := by
    obtain ⟨s, hs, howner, -, hregion, hdepth, hcolumns⟩ := slot_of_claim (hslots i) hslot
    obtain ⟨handle, region, hhandle, hget, hd, hc⟩ :=
      h.housed i s hs (by rw [howner]; exact hclaimed)
    obtain ⟨region', hget', hd', hc'⟩ := hregions handle region hget
    exact ⟨handle, region', hregion ▸ hhandle, hget', by omega, by omega⟩
  apart i j slot slot' handle handle' hslot hslot' hhandle hhandle' hindex := by
    obtain ⟨s, hs, -, -, hregion, -⟩ := slot_of_claim (hslots i) hslot
    obtain ⟨s', hs', -, -, hregion', -⟩ := slot_of_claim (hslots j) hslot'
    exact h.apart i j s s' handle handle' hs hs' (hregion.trans hhandle) (hregion'.trans hhandle')
      hindex

theorem isCurrent_iff {t : Token} :
    b.isCurrent t = true ↔
      ∃ slot, b.slots[t.slot]? = some slot ∧ slot.owner = some t.owner ∧ slot.epoch = t.epoch := by
  unfold isCurrent
  rw [Option.any_eq_true]
  simp

theorem isCurrent_congr {c : StagingBuffer} {t : Token}
    (hslots : ∀ i : Nat, (c.slots[i]?).map claimOf = (b.slots[i]?).map claimOf)
    (hcurrent : b.isCurrent t = true) : c.isCurrent t = true := by
  obtain ⟨slot, hslot, howner, hepoch⟩ := isCurrent_iff.mp hcurrent
  obtain ⟨s, hs, hsOwner, hsEpoch, -⟩ := slot_of_claim (hslots t.slot).symm hslot
  exact isCurrent_iff.mpr ⟨s, hs, hsOwner.trans howner, hsEpoch.trans hepoch⟩

theorem map_claimOf_modify (i j : Nat) (f : StagingSlot → StagingSlot)
    (hf : ∀ slot, claimOf (f slot) = claimOf slot) :
    ((b.slots.modify i f)[j]?).map claimOf = (b.slots[j]?).map claimOf := by
  rw [Array.getElem?_modify]
  split
  · rw [Option.map_map]
    exact congrArg (fun g => (b.slots[j]?).map g) (funext hf)
  · rfl

/-- Noting when a slot was last used. -/
theorem Valid.touch (h : b.Valid) (tick i active : Nat) :
    Valid { b with tick, slots := b.slots.modify i ({ · with lastActive := active }) } ∧
    ∀ g, ringFor { b with tick, slots := b.slots.modify i ({ · with lastActive := active }) } g =
      b.ringFor g := by
  have hslots : ∀ j : Nat, ((b.slots.modify i ({ · with lastActive := active }))[j]?).map claimOf =
      (b.slots[j]?).map claimOf := fun j => map_claimOf_modify i j _ fun _ => rfl
  refine ⟨h.congr h.arena rfl hslots fun handle region hget => ⟨region, hget, rfl, rfl⟩, ?_⟩
  intro g
  unfold ringFor
  cases hg : b.owners[g]? with
  | none => rfl
  | some j =>
    rw [Option.bind_some, Option.bind_some, Array.getElem?_modify]
    split
    · rw [Option.bind_map]
      rfl
    · rfl

/-! ## Freeing a slot -/

/-- What remains of a slot that is freed. -/
def freed (slot : StagingSlot) : StagingSlot := { epoch := slot.epoch, lastActive := slot.lastActive }

theorem freeSlot_eq_self {i : Nat} (h : b.slots[i]? = none) : b.freeSlot i = b := by
  unfold freeSlot
  rw [h]

theorem slots_freeSlot (i j : Nat) :
    (b.freeSlot i).slots[j]? = if j = i then (b.slots[j]?).map freed else b.slots[j]? := by
  cases hslot : b.slots[i]? with
  | none =>
    rw [freeSlot_eq_self hslot]
    split
    · rename_i heq
      rw [heq, hslot]
      rfl
    · rfl
  | some slot =>
    have hlt := (Array.getElem?_eq_some_iff.mp hslot).1
    unfold freeSlot
    rw [hslot]
    show (b.slots.setIfInBounds i (freed slot))[j]? = _
    by_cases hj : j = i
    · subst hj
      rw [if_pos rfl, Array.getElem?_setIfInBounds_self_of_lt hlt, hslot]
      rfl
    · rw [if_neg hj, Array.getElem?_setIfInBounds_ne (Ne.symm hj)]

theorem size_freeSlot (i : Nat) : (b.freeSlot i).slots.size = b.slots.size := by
  unfold freeSlot
  split
  · rfl
  · exact Array.size_setIfInBounds

theorem owners_freeSlot {i : Nat} {slot : StagingSlot} (hslot : b.slots[i]? = some slot)
    (g : GroupId) :
    (b.freeSlot i).owners[g]? = if slot.owner = some g then none else b.owners[g]? := by
  unfold freeSlot
  rw [hslot]
  cases howner : slot.owner with
  | none =>
    simp only [howner]
    rw [if_neg (by simp)]
  | some owner =>
    simp only [howner]
    rw [Std.HashMap.getElem?_erase]
    by_cases heq : owner = g
    · simp [heq]
    · simp [heq]

theorem arena_freeSlot {i : Nat} {slot : StagingSlot} (hslot : b.slots[i]? = some slot) :
    (b.freeSlot i).arena = match slot.region with
      | some handle => b.arena.release handle
      | none => b.arena := by
  cases hregion : slot.region with
  | some handle => simp only [freeSlot, hslot, hregion]
  | none => simp only [freeSlot, hslot, hregion]

/-- Regions of other slots stay. -/
theorem Valid.get?_freeSlot (h : b.Valid) {i j : Nat} {slot : StagingSlot} {handle : Handle Nat}
    (hj : b.slots[j]? = some slot) (hhandle : slot.region = some handle) (hne : j ≠ i) :
    (b.freeSlot i).arena.get? handle = b.arena.get? handle := by
  cases hslot : b.slots[i]? with
  | none => rw [freeSlot_eq_self hslot]
  | some freedSlot =>
    rw [arena_freeSlot hslot]
    cases hregion : freedSlot.region with
    | none => rfl
    | some other =>
      refine Arena.get?_release_ne fun hindex => hne ?_
      exact h.apart j i slot freedSlot handle other hj hslot hhandle hregion hindex

theorem Valid.freeSlot (h : b.Valid) (i : Nat) : Valid (b.freeSlot i) := by
  cases hslot : b.slots[i]? with
  | none =>
    rw [freeSlot_eq_self hslot]
    exact h
  | some slot =>
    have hslots : ∀ j : Nat, (b.freeSlot i).slots[j]? =
        if j = i then some (freed slot) else b.slots[j]? := by
      intro j
      rw [slots_freeSlot]
      split
      · rename_i hj
        rw [hj, hslot]
        rfl
      · rfl
    have hcases : ∀ {j : Nat} {s}, (b.freeSlot i).slots[j]? = some s →
        j = i ∧ s = freed slot ∨ j ≠ i ∧ b.slots[j]? = some s := slot_cases hslots
    refine ⟨?_, ?_, ?_, ?_, ?_, ?_⟩
    · rw [arena_freeSlot hslot]
      split
      · exact h.arena.release _
      · exact h.arena
    · rw [size_freeSlot]
      exact h.positive
    · intro g j
      rw [owners_freeSlot hslot]
      constructor
      · intro hj
        split at hj
        · cases hj
        · rename_i hg
          obtain ⟨s, hs, howner⟩ := (h.owners g j).mp hj
          exact ⟨s, by rw [hslots, if_neg (ne_of_owner hslot hg hs howner)]; exact hs, howner⟩
      · rintro ⟨s, hs, howner⟩
        rcases hcases hs with ⟨-, rfl⟩ | ⟨hne, hs⟩
        · cases howner
        · have hj := (h.owners g j).mpr ⟨s, hs, howner⟩
          rw [if_neg, hj]
          -- no group owns two slots
          intro hg
          have hi := (h.owners g i).mpr ⟨slot, hslot, hg⟩
          rw [hj] at hi
          exact hne (Option.some.inj hi)
    · intro j s hs howner
      rcases hcases hs with ⟨-, rfl⟩ | ⟨hne, hs⟩
      · rfl
      · exact h.unclaimed j s hs howner
    · intro j s hs howner
      rcases hcases hs with ⟨-, rfl⟩ | ⟨hne, hs⟩
      · exact absurd rfl howner
      · obtain ⟨handle, region, hhandle, hget, hshape⟩ := h.housed j s hs howner
        exact ⟨handle, region, hhandle, by rw [h.get?_freeSlot hs hhandle hne]; exact hget, hshape⟩
    · intro j k s s' handle handle' hs hs' hhandle hhandle' hindex
      rcases hcases hs with ⟨-, rfl⟩ | ⟨-, hs⟩
      · cases hhandle
      · rcases hcases hs' with ⟨-, rfl⟩ | ⟨-, hs'⟩
        · cases hhandle'
        · exact h.apart j k s s' handle handle' hs hs' hhandle hhandle' hindex

/-- Only the group of the slot loses its ring. -/
theorem Valid.ringFor_freeSlot (h : b.Valid) (i : Nat) (g : GroupId) :
    (b.freeSlot i).ringFor g =
      if b.slots[i]?.bind (·.owner) = some g then none else b.ringFor g := by
  cases hslot : b.slots[i]? with
  | none =>
    rw [freeSlot_eq_self hslot]
    rfl
  | some slot =>
    rw [Option.bind_some]
    by_cases hg : slot.owner = some g
    · rw [if_pos hg]
      exact ringFor_eq_none (by rw [owners_freeSlot hslot, if_pos hg])
    · rw [if_neg hg]
      refine h.ringFor_congr (h.freeSlot i) ?_ ?_
      · intro hnone
        rw [owners_freeSlot hslot, if_neg hg]
        exact hnone
      · intro j s hs hsg
        have hne := ne_of_owner hslot hg hs hsg
        refine ⟨?_, fun handle hhandle => h.get?_freeSlot hs hhandle hne⟩
        rw [slots_freeSlot, if_neg hne]
        exact hs

/-! ## Claiming a slot -/

/-- A slot of this shape is claimed by a group, and its ring is empty. -/
structure Claimed (b c : StagingBuffer) (t : Token) (owner : GroupId) (depth columns : Nat) :
    Prop where
  valid : Valid c
  holder : t.owner = owner
  current : c.isCurrent t = true
  ring : c.ringFor owner = some ⟨.new depth columns, 0, 0⟩
  others : ∀ g, g ≠ owner → c.ringFor g = none ∨ c.ringFor g = b.ringFor g

/-- A slot as it is claimed. -/
def taken (b : StagingBuffer) (owner : GroupId) (depth columns : Nat) : StagingSlot :=
  { owner := some owner, epoch := b.nextEpoch, depth, columns, lastActive := b.tick
    region := some (b.arena.allocate (.new depth columns)).1 }

theorem slots_claim {i : Nat} (hi : i < b.slots.size) (owner : GroupId) (depth columns j : Nat) :
    (b.claim i owner depth columns).2.slots[j]? =
      if j = i then some (b.taken owner depth columns) else b.slots[j]? := by
  show (b.slots.setIfInBounds i (b.taken owner depth columns))[j]? = _
  by_cases hj : j = i
  · rw [hj, if_pos rfl, Array.getElem?_setIfInBounds_self_of_lt hi]
  · rw [if_neg hj, Array.getElem?_setIfInBounds_ne (Ne.symm hj)]

theorem owners_claim (i : Nat) (owner : GroupId) (depth columns : Nat) (g : GroupId) :
    (b.claim i owner depth columns).2.owners[g]? =
      if g = owner then some i else b.owners[g]? := by
  show (b.owners.insert owner i)[g]? = _
  rw [Std.HashMap.getElem?_insert]
  by_cases hg : g = owner
  · simp [hg]
  · simp [hg, Ne.symm hg]

/-- There is a number for every cell that is added. -/
theorem Valid.issues (h : b.Valid) (region : Region) :
    b.arena.Issues (b.arena.allocate region).2 (b.arena.allocate region).1 region :=
  h.arena.issues b.arena.roomy_endless region

/-- A region that is handed out lies in another cell than those of the slots. -/
theorem Valid.index_ne_allocate (h : b.Valid) {j : Nat} {s : StagingSlot} {handle : Handle Nat}
    (hs : b.slots[j]? = some s) (hhandle : s.region = some handle) (region : Region) :
    handle.index ≠ (b.arena.allocate region).1.index := by
  -- only claimed slots have regions
  have hclaimed : s.owner ≠ none := by
    intro hnone
    rw [h.unclaimed j s hs hnone] at hhandle
    cases hhandle
  obtain ⟨handle', old, hhandle', hget, -⟩ := h.housed j s hs hclaimed
  rw [hhandle] at hhandle'
  cases hhandle'
  exact (h.issues region).position_ne hget

theorem Valid.valid_claim (h : b.Valid) {i : Nat} {slot : StagingSlot}
    (hslot : b.slots[i]? = some slot) (hfree : slot.owner = none) {owner : GroupId}
    (howner : b.owners[owner]? = none) (depth columns : Nat) :
    Valid (b.claim i owner depth columns).2 := by
  have hlt := (Array.getElem?_eq_some_iff.mp hslot).1
  have hissues := h.issues (.new depth columns)
  have hslots := slots_claim hlt owner depth columns
  have howners := owners_claim (b := b) i owner depth columns
  have hcases : ∀ {j : Nat} {s}, (b.claim i owner depth columns).2.slots[j]? = some s →
      j = i ∧ s = b.taken owner depth columns ∨ j ≠ i ∧ b.slots[j]? = some s := slot_cases hslots
  refine ⟨h.arena.allocate _, ?_, ?_, ?_, ?_, ?_⟩
  · show 0 < (b.slots.setIfInBounds i (b.taken owner depth columns)).size
    rw [Array.size_setIfInBounds]
    exact h.positive
  · intro g j
    rw [howners]
    constructor
    · intro hj
      split at hj
      · rename_i hg
        cases hj
        exact ⟨b.taken owner depth columns, by rw [hslots, if_pos rfl], by rw [hg]; rfl⟩
      · obtain ⟨s, hs, hsg⟩ := (h.owners g j).mp hj
        exact ⟨s, by rw [hslots, if_neg (ne_of_owner hslot (by simp [hfree]) hs hsg)]; exact hs, hsg⟩
    · rintro ⟨s, hs, hsg⟩
      rcases hcases hs with ⟨rfl, rfl⟩ | ⟨-, hs⟩
      · cases hsg
        rw [if_pos rfl]
      · have hj := (h.owners g j).mpr ⟨s, hs, hsg⟩
        rw [if_neg, hj]
        -- the group had no slot before
        rintro rfl
        rw [howner] at hj
        cases hj
  · intro j s hs hnone
    rcases hcases hs with ⟨-, rfl⟩ | ⟨-, hs⟩
    · cases hnone
    · exact h.unclaimed j s hs hnone
  · intro j s hs hclaimed
    rcases hcases hs with ⟨-, rfl⟩ | ⟨-, hs⟩
    · exact ⟨_, _, rfl, hissues.get?_self, Array.size_replicate, rfl⟩
    · obtain ⟨handle, region, hhandle, hget, hdims⟩ := h.housed j s hs hclaimed
      have hkept := hissues.get?_of_ne (h.index_ne_allocate hs hhandle _)
      exact ⟨handle, region, hhandle, hkept.trans hget, hdims⟩
  · -- two slots with one cell: both are old, or both are the one that is claimed
    intro j k s s' handle handle' hs hs' hhandle hhandle' hindex
    rcases hcases hs with ⟨hj, rfl⟩ | ⟨hj, hs⟩ <;> rcases hcases hs' with ⟨hk, rfl⟩ | ⟨hk, hs'⟩
    · rw [hj, hk]
    · cases hhandle
      exact absurd hindex.symm (h.index_ne_allocate hs' hhandle' _)
    · cases hhandle'
      exact absurd hindex (h.index_ne_allocate hs hhandle _)
    · exact h.apart j k s s' handle handle' hs hs' hhandle hhandle' hindex

theorem Valid.claim (h : b.Valid) {i : Nat} {slot : StagingSlot} (hslot : b.slots[i]? = some slot)
    (hfree : slot.owner = none) {owner : GroupId} (howner : b.owners[owner]? = none)
    (depth columns : Nat) :
    Claimed b (b.claim i owner depth columns).2 (b.claim i owner depth columns).1 owner depth
      columns := by
  have hlt := (Array.getElem?_eq_some_iff.mp hslot).1
  have hslots := slots_claim hlt owner depth columns
  have hissues := h.issues (.new depth columns)
  have hvalid := h.valid_claim hslot hfree howner depth columns
  have hi : (b.claim i owner depth columns).2.slots[i]? = some (b.taken owner depth columns) := by
    rw [hslots, if_pos rfl]
  refine ⟨hvalid, rfl, isCurrent_iff.mpr ⟨_, hi, rfl, rfl⟩, ?_, ?_⟩
  · rw [hvalid.ringFor_eq hi rfl]
    show ((some _).bind (b.claim i owner depth columns).2.arena.get?).map _ = _
    rw [Option.bind_some, show (b.claim i owner depth columns).2.arena.get? _ = _ from
      hissues.get?_self]
    rfl
  · intro g hg
    right
    refine h.ringFor_congr hvalid ?_ ?_
    · intro hnone
      rw [owners_claim, if_neg hg]
      exact hnone
    · intro j s hs hsg
      refine ⟨?_, fun handle hhandle =>
        hissues.get?_of_ne (h.index_ne_allocate hs hhandle _)⟩
      rw [hslots, if_neg (ne_of_owner hslot (by simp [hfree]) hs hsg)]
      exact hs

theorem idlest_lt {best : Nat × Nat} {i size : Nat} {l : List StagingSlot} (hbest : best.1 < size)
    (hlength : i + l.length = size) : idlest best i l < size := by
  induction l generalizing best i with
  | nil => exact hbest
  | cons slot rest ih =>
    unfold idlest
    rw [List.length_cons] at hlength
    refine ih ?_ (by omega)
    split
    · show i < size
      omega
    · exact hbest

theorem Valid.victim_lt (h : b.Valid) : b.victim < b.slots.size := by
  unfold victim
  split
  · rename_i i hi
    exact (Array.findIdx?_eq_some_iff_findIdx_eq.mp hi).1
  · exact idlest_lt h.positive (by simp)

theorem Valid.count (h : b.Valid) (tick evicted : Nat) :
    Valid { b with tick, evictedWhileOwned := evicted } :=
  ⟨h.arena, h.positive, h.owners, h.unclaimed, h.housed, h.apart⟩

theorem Valid.claimNew (h : b.Valid) {owner : GroupId} (howner : b.owners[owner]? = none)
    (depth columns : Nat) :
    Claimed b (b.claimNew owner depth columns).2 (b.claimNew owner depth columns).1 owner depth
      columns := by
  -- the slot is freed first, whoever owns it
  have hfree : ∀ {c : StagingBuffer}, Valid c → c.slots = b.slots → c.owners = b.owners →
      (∀ g, c.ringFor g = b.ringFor g) →
      Claimed b ((c.freeSlot b.victim).claim b.victim owner depth columns).2
        ((c.freeSlot b.victim).claim b.victim owner depth columns).1 owner depth columns := by
    intro c hc hslots howners hrings
    have hlt : b.victim < c.slots.size := by
      rw [hslots]
      exact h.victim_lt
    obtain ⟨slot, hslot⟩ : ∃ slot, c.slots[b.victim]? = some slot :=
      ⟨_, Array.getElem?_eq_getElem hlt⟩
    have hfreed : (c.freeSlot b.victim).slots[b.victim]? = some (freed slot) := by
      rw [slots_freeSlot, if_pos rfl, hslot]
      rfl
    have hnone : (c.freeSlot b.victim).owners[owner]? = none := by
      rw [owners_freeSlot hslot]
      split
      · rfl
      · rw [howners]
        exact howner
    have hclaim := (hc.freeSlot b.victim).claim hfreed rfl hnone depth columns
    refine ⟨hclaim.valid, hclaim.holder, hclaim.current, hclaim.ring, fun g hg => ?_⟩
    rcases hclaim.others g hg with hgone | hsame
    · exact .inl hgone
    · rw [hc.ringFor_freeSlot, hrings] at hsame
      split at hsame
      · exact .inl hsame
      · exact .inr hsame
  unfold StagingBuffer.claimNew
  simp only
  split
  · exact hfree (h.count b.tick (b.evictedWhileOwned + 1)) rfl rfl fun _ => rfl
  · exact hfree h rfl rfl fun _ => rfl

/-! ## Acquiring a slot -/

/-- The depth that a slot is claimed with. -/
def clampDepth (depth : Nat) : Nat := min (max depth 1) maxShape

/-- A group holds a slot of the shape, with the ring that it had or with an empty one. -/
structure Acquired (b c : StagingBuffer) (t : Token) (isNew : Bool) (owner : GroupId)
    (depth columns : Nat) : Prop where
  valid : Valid c
  holder : t.owner = owner
  current : c.isCurrent t = true
  ring : ∃ ring, c.ringFor owner = some ring ∧ ring.region.depth = depth ∧
    ring.region.columns = columns ∧
    (isNew = true → ring = ⟨.new depth columns, 0, 0⟩) ∧
    (isNew = false → b.ringFor owner = some ring)
  others : ∀ g, g ≠ owner → c.ringFor g = none ∨ c.ringFor g = b.ringFor g

theorem Claimed.acquired {c : StagingBuffer} {t : Token} {owner : GroupId} {depth columns : Nat}
    (h : Claimed b c t owner depth columns) : Acquired b c t true owner depth columns where
  valid := h.valid
  holder := h.holder
  current := h.current
  ring := ⟨_, h.ring, Array.size_replicate, rfl, fun _ => rfl, fun hfalse => by cases hfalse⟩
  others := h.others

theorem Valid.acquire (h : b.Valid) (owner : GroupId) (depth columns : Nat) :
    Acquired b (b.acquire owner depth columns).2.2 (b.acquire owner depth columns).1
      (b.acquire owner depth columns).2.1 owner (clampDepth depth) (min columns maxShape) := by
  have hticked := h.count (b.tick + 1) b.evictedWhileOwned
  unfold StagingBuffer.acquire
  simp only
  split
  · rename_i i howner
    obtain ⟨slot, hslot, hslotOwner⟩ := (h.owners owner i).mp howner
    have hgetD : b.slots.getD i {} = slot := by
      rw [Array.getD_eq_getD_getElem?, hslot]
      rfl
    rw [hgetD]
    split
    · -- the slot has the shape already
      rename_i hshape
      obtain ⟨htouched, hrings⟩ := h.touch (b.tick + 1) i (b.tick + 1)
      have hslots : ∀ j : Nat, ((b.slots.modify i ({ · with lastActive := b.tick + 1 }))[j]?).map
          claimOf = (b.slots[j]?).map claimOf := fun j => map_claimOf_modify i j _ fun _ => rfl
      obtain ⟨region, hring, hdepth, hcolumns⟩ := h.ringFor_isSome hslot hslotOwner
      refine ⟨htouched, rfl, ?_, ?_, ?_⟩
      · exact isCurrent_congr (b := b) hslots (isCurrent_iff.mpr ⟨slot, hslot, hslotOwner, rfl⟩)
      · exact ⟨⟨region, slot.cursor, slot.valid⟩, (hrings owner).trans hring,
          hdepth.trans hshape.1, hcolumns.trans hshape.2, (by simp), fun _ => hring⟩
      · exact fun g _ => .inr (hrings g)
    · -- a slot of another shape is given up before a new one is claimed
      have hfree := hticked.freeSlot i
      have hnone : (StagingBuffer.freeSlot { b with tick := b.tick + 1 } i).owners[owner]? = none := by
        have hticket : StagingBuffer.slots { b with tick := b.tick + 1 } = b.slots := rfl
        rw [owners_freeSlot (by rw [hticket]; exact hslot), if_pos hslotOwner]
      have hclaim := hfree.claimNew hnone (clampDepth depth) (min columns maxShape)
      refine Claimed.acquired ⟨hclaim.valid, hclaim.holder, hclaim.current, hclaim.ring, ?_⟩
      intro g hg
      rcases hclaim.others g hg with hgone | hsame
      · exact .inl hgone
      · rw [hticked.ringFor_freeSlot] at hsame
        split at hsame
        · exact .inl hsame
        · exact .inr hsame
  · rename_i howner
    have hclaim := hticked.claimNew howner (clampDepth depth) (min columns maxShape)
    exact Claimed.acquired ⟨hclaim.valid, hclaim.holder, hclaim.current, hclaim.ring, hclaim.others⟩

end VersionChain.StagingBuffer
