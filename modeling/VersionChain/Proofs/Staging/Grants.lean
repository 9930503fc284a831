import VersionChain.Proofs.Staging.Idleness

/-!
# What a claim grants

After any calls, with whatever tokens, the directory of a staging buffer is in order. A group that
has a slot of the shape it asks for keeps it. Any other gets an empty ring in an unclaimed slot, or
in the slot of the group that has been idle for longest.

* `Sound` — slots, owners, regions and rings;
* `Granted` — a group gets a slot, and another one may lose its own;
* `Grants` — what a claim grants;
* `claims_oldest` — after any calls.
-/

namespace VersionChain.StagingBuffer

variable {b c : StagingBuffer} {t : Token} {owner g : GroupId} {order : List GroupId}

/-! ## The directory -/

/-- The directory is in order: owners and slots correspond, every claimed slot has a live region of
its own shape, no other slot has one, and the sealed rows of every ring are those behind its
cursor. -/
structure Sound (b : StagingBuffer) : Prop where
  owners : ∀ g (i : Nat), b.owners[g]? = some i ↔
    ∃ slot, b.slots[i]? = some slot ∧ slot.owner = some g
  housed : ∀ (i : Nat) slot, b.slots[i]? = some slot → slot.owner ≠ none →
    ∃ handle region, slot.region = some handle ∧ b.arena.get? handle = some region ∧
      region.depth = slot.depth ∧ region.columns = slot.columns ∧
      let ring : Ring := ⟨region, slot.cursor, slot.valid⟩
      ring.cursor < slot.depth ∧ ring.valid ≤ slot.depth ∧
      (∀ pos < slot.depth,
        region.isSealed pos = true ↔ ∃ back < ring.valid, pos = ring.behind (back + 1)) ∧
      (region.isSealed ring.cursor = true → 0 < ring.valid)
  unclaimed : ∀ (i : Nat) slot, b.slots[i]? = some slot → slot.owner = none → slot.region = none
  counted : b.stats.claimed = b.stats.regions ∧ b.stats.regions ≤ b.stats.slots
  regions : ∀ (i j : Nat) slot slot' handle handle', b.slots[i]? = some slot →
    b.slots[j]? = some slot' → slot.region = some handle → slot'.region = some handle' →
    handle.index = handle'.index → i = j
  epochs : ∀ (i j : Nat) slot slot', b.slots[i]? = some slot → b.slots[j]? = some slot' →
    slot.owner ≠ none → slot'.owner ≠ none → slot.epoch = slot'.epoch → i = j

theorem Booked.sound (h : b.Booked) (haligned : b.Aligned) : b.Sound where
  owners := h.valid.owners
  housed i slot hslot howner := by
    obtain ⟨handle, region, hhandle, hget, hdepth, hcolumns⟩ := h.valid.housed i slot hslot howner
    obtain ⟨g, hg⟩ := Option.ne_none_iff_exists'.mp howner
    have hring : b.ringFor g = some ⟨region, slot.cursor, slot.valid⟩ := by
      rw [h.valid.ringFor_eq hslot hg]
      unfold ringOf
      rw [hhandle, Option.bind_some, hget]
      rfl
    have hrows := haligned.rings g _ hring
    refine ⟨handle, region, hhandle, hget, hdepth, hcolumns, ?_, ?_, fun pos hpos => ?_,
      hrows.validBehind_eq.2⟩
    · rw [← hdepth]
      exact hrows.cursor
    · rw [← hdepth]
      exact hrows.valid
    · rw [← hdepth] at hpos
      exact hrows.isSealed_iff hpos
  unclaimed := h.valid.unclaimed
  counted := by
    refine ⟨h.regions.symm, ?_⟩
    show b.arena.live ≤ b.slots.size
    rw [h.regions]
    exact h.valid.size_owners_le
  regions := h.valid.apart
  epochs := h.distinct

/-! ## Claims -/

/-- An empty ring offers nothing. -/
theorem bases_new {depth : Nat} (hdepth : 0 < depth) (columns target column limit : Nat) :
    Ring.bases ⟨.new depth columns, 0, 0⟩ target column limit = [] := by
  rw [(Ring.holds_new hdepth columns).bases]
  simp [Fifo.bases, Fifo.retained]

/-- A group is granted a slot with an empty ring, under a number that is new. All other groups keep
their slots and rings, but for one that may lose its own. -/
structure Granted (b c : StagingBuffer) (t : Token) (isNew : Bool) (owner : GroupId)
    (loser : Option GroupId) : Prop where
  isNew : isNew = true
  holder : t.owner = owner
  epoch : t.epoch = b.nextEpoch
  current : c.isCurrent t = true
  empty : ∀ target column limit, (c.recentBases t target column limit).1 = []
  evicted : c.evictedWhileOwned = b.evictedWhileOwned + if loser = none then 0 else 1
  lost : ∀ g, loser = some g → b.owners[g]? = some t.slot ∧ c.owners[g]? = none
  others : ∀ g, g ≠ owner → loser ≠ some g →
    c.owners[g]? = b.owners[g]? ∧ c.ringFor g = b.ringFor g

/-- What claiming a slot of a shape grants to a group. -/
structure Grants (b : StagingBuffer) (order : List GroupId) (owner : GroupId)
    (depth columns : Nat) : Prop where
  /-- A group that has a slot of the shape keeps it, with its token. -/
  kept : ∀ (i : Nat) slot, b.slots[i]? = some slot → slot.owner = some owner →
    HasShape slot depth columns →
    let (t, isNew, c) := b.acquire owner depth columns
    t = ⟨i, owner, slot.epoch⟩ ∧ c.isCurrent t = true ∧ isNew = false ∧
      c.evictedWhileOwned = b.evictedWhileOwned ∧
      ∀ g, c.owners[g]? = b.owners[g]? ∧ c.ringFor g = b.ringFor g
  /-- Otherwise it takes a slot that is unclaimed, or is so once its own is given up. -/
  vacant : (∀ (i : Nat) slot, b.slots[i]? = some slot → slot.owner = some owner →
      ¬ HasShape slot depth columns) →
    (∃ (i : Nat) (slot : StagingSlot), b.slots[i]? = some slot ∧
      (slot.owner = none ∨ slot.owner = some owner)) →
    let (t, isNew, c) := b.acquire owner depth columns
    Granted b c t isNew owner none ∧
      ∃ slot, b.slots[t.slot]? = some slot ∧ (slot.owner = none ∨ slot.owner = some owner)
  /-- If there is none, the group that has been idle for longest loses its slot. -/
  oldest : (∀ (i : Nat) slot, b.slots[i]? = some slot →
      slot.owner ≠ none ∧ slot.owner ≠ some owner) →
    let (t, isNew, c) := b.acquire owner depth columns
    ∃ idle, order.find? (b.owners.contains ·) = some idle ∧
      Granted b c t isNew owner (some idle)

/-- A claim of an empty ring: the rings of the groups that keep their slots are the same. -/
theorem Acquired.granted {depth columns : Nat} {loser : Option GroupId}
    (h : Acquired b c t true owner depth columns) (hdepth : 0 < depth)
    (hepoch : t.epoch = b.nextEpoch)
    (hevicted : c.evictedWhileOwned = b.evictedWhileOwned + if loser = none then 0 else 1)
    (hlost : ∀ g, loser = some g → b.owners[g]? = some t.slot ∧ c.owners[g]? = none)
    (howners : ∀ g, g ≠ owner → loser ≠ some g → c.owners[g]? = b.owners[g]?) :
    Granted b c t true owner loser where
  isNew := rfl
  holder := h.holder
  epoch := hepoch
  current := h.current
  empty target column limit := by
    obtain ⟨ring, hring, -, -, hempty, -⟩ := h.ring
    have hstaged : Staged c t ring := ⟨h.valid, h.current, by rw [h.holder]; exact hring⟩
    rw [hstaged.recentBases, hempty rfl, bases_new hdepth]
    exact ite_self _
  evicted := hevicted
  lost := hlost
  others g hg hloser := by
    have hg' := howners g hg hloser
    refine ⟨hg', ?_⟩
    cases hheld : c.owners[g]? with
    | none => rw [ringFor_eq_none hheld, ringFor_eq_none (hg'.symm.trans hheld)]
    | some i =>
      obtain ⟨slot, hslot, hslotOwner⟩ := (h.valid.owners g i).mp hheld
      obtain ⟨region, hring, -⟩ := h.valid.ringFor_isSome hslot hslotOwner
      rcases h.others g hg with hnone | hsame
      · cases hnone.symm.trans hring
      · exact hsame

theorem clampDepth_pos (depth : Nat) : 0 < clampDepth depth := by
  unfold clampDepth maxShape
  omega

/-- A group with a slot of the shape keeps it. -/
theorem Valid.acquire_kept (h : b.Valid) {i : Nat} {slot : StagingSlot} {depth columns : Nat}
    (hslot : b.slots[i]? = some slot) (howner : slot.owner = some owner)
    (hshape : HasShape slot depth columns) :
    b.acquire owner depth columns = (⟨i, owner, slot.epoch⟩, false,
      { b with
        tick := b.tick + 1
        slots := b.slots.modify i ({ · with lastActive := b.tick + 1 }) }) := by
  have hi := (h.owners owner i).mpr ⟨slot, hslot, howner⟩
  have hsame : ∀ {j s}, b.slots[j]? = some s → s.owner = some owner → j = i ∧ s = slot := by
    intro j s hs hsOwner
    have hj := (h.owners owner j).mpr ⟨s, hs, hsOwner⟩
    cases hj.symm.trans hi
    exact ⟨rfl, Option.some.inj (hs.symm.trans hslot)⟩
  rcases h.acquire_cases owner depth columns with
    ⟨j, s, hs, hsOwner, -, hacquire⟩ | ⟨j, s, hs, hsOwner, hother, -⟩ | ⟨hnone, -⟩
  · obtain ⟨rfl, rfl⟩ := hsame hs hsOwner
    exact hacquire
  · obtain ⟨rfl, rfl⟩ := hsame hs hsOwner
    exact absurd hshape hother
  · cases hnone.symm.trans hi

/-- A group that gives up a slot of another shape finds one that is unclaimed. -/
theorem Valid.granted_reshaped (h : b.Valid) {i : Nat} {slot : StagingSlot} {depth columns : Nat}
    (hslot : b.slots[i]? = some slot) (howner : slot.owner = some owner)
    (hacquire : let claimed :=
        (b.ticked.freeSlot i).claimNew owner (clampDepth depth) (min columns maxShape)
      b.acquire owner depth columns = (claimed.1, true, claimed.2)) :
    let (t, isNew, c) := b.acquire owner depth columns
    Granted b c t isNew owner none ∧
      ∃ slot, b.slots[t.slot]? = some slot ∧ (slot.owner = none ∨ slot.owner = some owner) := by
  have hticked : b.ticked.Valid := h.count (b.tick + 1) b.evictedWhileOwned
  have hslots : ∀ j : Nat, (b.ticked.freeSlot i).slots[j]? =
      if j = i then (b.slots[j]?).map freed else b.slots[j]? := b.ticked.slots_freeSlot i
  have hacquired := h.acquire owner depth columns
  obtain ⟨taken, htakes⟩ := (hticked.freeSlot i).takes_claimNew owner (clampDepth depth)
    (min columns maxShape)
  obtain ⟨htick, hepoch, hevicted⟩ := b.ticked.freeSlot_counters i
  -- the slot that was given up is unclaimed now
  have htaken : taken.owner = none := by
    obtain ⟨chosen, hchosen, hnone | hleast⟩ := (hticked.freeSlot i).victim_spec
    · cases hchosen.symm.trans htakes.chosen
      exact hnone
    · have hfreed : (b.ticked.freeSlot i).slots[i]? = some (freed slot) := by
        rw [hslots, if_pos rfl, hslot]
        rfl
      exact absurd rfl (hleast i _ hfreed).1
  have hchosen := htakes.chosen
  rw [hslots] at hchosen
  rw [hacquire] at hacquired ⊢
  refine ⟨hacquired.granted (clampDepth_pos depth) ?_ ?_ nofun fun g hg _ => ?_, ?_⟩
  · rw [htakes.token]
    exact hepoch
  · rw [htakes.evicted, htaken, hevicted]
    rfl
  · rw [htakes.owners, if_neg hg, htaken, if_neg nofun, owners_freeSlot (b := b.ticked) hslot,
      howner, if_neg fun heq => hg (Option.some.inj heq).symm]
    rfl
  · rw [htakes.token]
    split at hchosen
    · rename_i hvictim
      exact ⟨slot, (congrArg (b.slots[·]?) hvictim).trans hslot, .inr howner⟩
    · exact ⟨taken, hchosen, .inl htaken⟩

/-- What a group without a slot takes from the group that has one, or from no group. -/
theorem Valid.granted_first (h : b.Valid) {depth columns : Nat} (hnone : b.owners[owner]? = none)
    (hacquire : let claimed :=
        b.ticked.claimNew owner (clampDepth depth) (min columns maxShape)
      b.acquire owner depth columns = (claimed.1, true, claimed.2)) :
    let (t, isNew, c) := b.acquire owner depth columns
    ∃ taken, b.slots[b.victim]? = some taken ∧ t.slot = b.victim ∧
      Granted b c t isNew owner taken.owner := by
  have hticked : b.ticked.Valid := h.count (b.tick + 1) b.evictedWhileOwned
  have hacquired := h.acquire owner depth columns
  obtain ⟨taken, htakes⟩ := hticked.takes_claimNew owner (clampDepth depth) (min columns maxShape)
  have hchosen : b.slots[b.victim]? = some taken := htakes.chosen
  rw [hacquire] at hacquired ⊢
  refine ⟨taken, hchosen, congrArg Token.slot htakes.token, ?_⟩
  refine hacquired.granted (clampDepth_pos depth) ?_ htakes.evicted (fun g hg => ?_) ?_
  · rw [htakes.token]
    rfl
  · have hheld := (h.owners g b.victim).mpr ⟨taken, hchosen, hg⟩
    have hother : g ≠ owner := by
      rintro rfl
      cases hnone.symm.trans hheld
    rw [htakes.owners, if_neg hother, if_pos hg, htakes.token]
    exact ⟨hheld, rfl⟩
  · intro g hg hloser
    rw [htakes.owners, if_neg hg, if_neg hloser]
    rfl

theorem Aged.grants (h : Aged b order) (owner : GroupId) (depth columns : Nat) :
    Grants b order owner depth columns where
  kept i slot hslot howner hshape := by
    have hacquired := h.valid.acquire owner depth columns
    have hrings := (h.valid.touch (b.tick + 1) i (b.tick + 1)).2
    rw [h.valid.acquire_kept hslot howner hshape] at hacquired ⊢
    exact ⟨rfl, hacquired.current, rfl, rfl, fun g => ⟨rfl, hrings g⟩⟩
  vacant hshape hvacant := by
    rcases h.valid.acquire_cases owner depth columns with
      ⟨i, slot, hslot, howner, hsame, -⟩ | ⟨i, slot, hslot, howner, -, hacquire⟩ |
      ⟨hnone, hacquire⟩
    · exact absurd hsame (hshape i slot hslot howner)
    · exact h.valid.granted_reshaped hslot howner hacquire
    · obtain ⟨taken, htaken, hslot, hgranted⟩ := h.valid.granted_first hnone hacquire
      have hunowned : taken.owner = none := by
        obtain ⟨chosen, hchosen, hfree | hleast⟩ := h.valid.victim_spec
        · cases hchosen.symm.trans htaken
          exact hfree
        · obtain ⟨i, slot, hi, hfree | hown⟩ := hvacant
          · exact absurd hfree (hleast i slot hi).1
          · cases hnone.symm.trans ((h.valid.owners owner i).mpr ⟨slot, hi, hown⟩)
      rw [hunowned] at hgranted
      exact ⟨hgranted, taken, (congrArg (b.slots[·]?) hslot).trans htaken, .inl hunowned⟩
  oldest hclaimed := by
    rcases h.valid.acquire_cases owner depth columns with
      ⟨i, slot, hslot, howner, -⟩ | ⟨i, slot, hslot, howner, -⟩ | ⟨hnone, hacquire⟩
    · exact absurd howner (hclaimed i slot hslot).2
    · exact absurd howner (hclaimed i slot hslot).2
    · obtain ⟨taken, htaken, -, hgranted⟩ := h.valid.granted_first hnone hacquire
      obtain ⟨slot, idle, hslot, hidle, hfirst⟩ :=
        h.victim_eq fun i slot hslot => (hclaimed i slot hslot).1
      cases htaken.symm.trans hslot
      rw [hidle] at hgranted
      exact ⟨idle, hfirst, hgranted⟩

/-! ## After any calls -/

theorem Aged.attend (h : Aged b order) (hbooked : b.Booked) (haligned : b.Aligned)
    (commands : List StagingCommand) :
    let (c, order) := attend (b, order) commands
    c.Booked ∧ c.Aligned ∧ Aged c order := by
  induction commands generalizing b order with
  | nil => exact ⟨hbooked, haligned, h⟩
  | cons command rest ih =>
    exact ih (h.perform command) (hbooked.perform command) (haligned.perform command)

/-- After any calls, whatever their tokens and shapes, the directory is in order, and a claim keeps
a slot of its shape, takes an unclaimed one, or takes that of the group that last claimed or
committed before all others. -/
theorem claims_oldest (slots : Nat) (commands : List StagingCommand) :
    let (b, order) := attend (new slots, []) commands
    b.Sound ∧ ∀ owner depth columns, Grants b order owner depth columns := by
  obtain ⟨hbooked, haligned, haged⟩ :=
    (aged_new slots).attend (booked_new slots) (aligned_new slots) commands
  exact ⟨hbooked.sound haligned, haged.grants⟩

end VersionChain.StagingBuffer
