import VersionChain.Proofs.Staging.Tokens

/-!
# What a call leaves alone

A call to a staging buffer is made for one group: the one that claims a slot, or the one that the
token was given to. Whether the token is current or not, the groups that have tokens stay the same,
and the rings of other groups stay what they are. Only claiming and forgetting take slots away.

* `StagingCommand`, `perform` — the calls;
* `Undisturbed` — what a call with a token leaves alone;
* `Valid.push`, `Valid.commit`, `Valid.stageRows`, `Valid.recentBases` — each of these calls;
* `isCurrent_of_acquire`, `isCurrent_of_freeSlots` — tokens that were current before;
* `Valid.perform` — the ring of a group after a call for another one.
-/

namespace VersionChain

/-- One call to a staging buffer. -/
inductive StagingCommand where
  | acquire (owner : GroupId) (depth columns : Nat)
  | push (t : Token) (seq column : Nat) (content : Bytes)
  | commit (t : Token) (seq : Nat)
  | populate (t : Token) (rows : List StagedRow)
  | recentBases (t : Token) (target column limit : Nat)
  | invalidate (table : TableId)

/-- The call is made for a group. A table is forgotten for none. -/
def StagingCommand.IsFor (g : GroupId) : StagingCommand → Prop
  | .acquire owner _ _ => owner = g
  | .push t _ _ _ | .commit t _ | .populate t _ | .recentBases t _ _ _ => t.owner = g
  | .invalidate _ => False

/-- A call is made for one group. -/
theorem StagingCommand.isFor_unique {g owner : GroupId} (command : StagingCommand)
    (h : command.IsFor owner) (h' : command.IsFor g) : owner = g := by
  cases command with
  | invalidate table => exact h.elim
  | _ => exact h.symm.trans h'

namespace StagingBuffer

def perform (b : StagingBuffer) : StagingCommand → StagingBuffer
  | .acquire owner depth columns => (b.acquire owner depth columns).2.2
  | .push t seq column content => (b.push t seq column content).2
  | .commit t seq => (b.commit t seq).2
  | .populate t rows => (b.populate t rows).2
  | .recentBases t target column limit => (b.recentBases t target column limit).2
  | .invalidate table => (b.invalidate table).2

variable {b c d : StagingBuffer} {t : Token} {ring : Ring} {owner : GroupId}

/-! ## Calls with a token -/

/-- The claims stay what they are, and so do the rings of other groups. If the token is out of date,
all rings stay. -/
structure Undisturbed (b c : StagingBuffer) (t : Token) : Prop where
  valid : Valid c
  claims : ∀ i : Nat, (c.slots[i]?).map claimOf = (b.slots[i]?).map claimOf
  others : OthersKeep b c t.owner
  stale : b.isCurrent t = false → ∀ g, c.ringFor g = b.ringFor g

theorem Undisturbed.trans (h : Undisturbed b c t) (h' : Undisturbed c d t) : Undisturbed b d t where
  valid := h'.valid
  claims i := (h'.claims i).trans (h.claims i)
  others := h.others.trans h'.others
  stale hstale g := by
    have hstale' : c.isCurrent t = false := by
      refine Bool.eq_false_iff.mpr fun hcurrent => ?_
      rw [isCurrent_congr (fun i => (h.claims i).symm) hcurrent] at hstale
      cases hstale
    exact (h'.stale hstale' g).trans (h.stale hstale g)

/-- Calls that come too late are counted. -/
theorem Valid.undisturbed_count (h : b.Valid) (t : Token) (mismatches : Nat) :
    Undisturbed b { b with mismatches } t where
  valid := ⟨h.arena, h.positive, h.owners, h.unclaimed, h.housed, h.apart⟩
  claims _ := rfl
  others _ _ := rfl
  stale _ _ := rfl

theorem Valid.undisturbed (h : b.Valid) (t : Token) : Undisturbed b b t :=
  h.undisturbed_count t b.mismatches

/-- A current token leads to the ring of its group. -/
theorem Valid.staged (h : b.Valid) (hcurrent : b.isCurrent t = true) : ∃ ring, Staged b t ring := by
  obtain ⟨slot, hslot, howner, -⟩ := isCurrent_iff.mp hcurrent
  obtain ⟨region, hring, -⟩ := h.ringFor_isSome hslot howner
  exact ⟨_, h, hcurrent, hring⟩

theorem claims_modifyRing (b : StagingBuffer) (i : Nat) (f : Region → Region)
    (cursor valid j : Nat) :
    ((b.modifyRing i f cursor valid).slots[j]?).map claimOf = (b.slots[j]?).map claimOf := by
  unfold modifyRing
  split
  · exact map_claimOf_modify i j _ fun _ => rfl
  · rfl

theorem push_stale (h : b.isCurrent t = false) (seq column : Nat) (content : Bytes) :
    b.push t seq column content = (false, { b with mismatches := b.mismatches + 1 }) := by
  have hstale : isCurrent { b with mismatches := b.mismatches + 1 } t = false := h
  unfold StagingBuffer.push countMismatch ring?
  simp only [h, hstale, Bool.false_eq_true, if_false]

theorem commit_stale (h : b.isCurrent t = false) (seq : Nat) :
    b.commit t seq = (false, { b with mismatches := b.mismatches + 1 }) := by
  have hstale : isCurrent { b with mismatches := b.mismatches + 1 } t = false := h
  unfold StagingBuffer.commit countMismatch ring?
  simp only [h, hstale, Bool.false_eq_true, if_false]

theorem recentBases_stale (h : b.isCurrent t = false) (target column limit : Nat) :
    b.recentBases t target column limit = ([], { b with mismatches := b.mismatches + 1 }) := by
  have hstale : isCurrent { b with mismatches := b.mismatches + 1 } t = false := h
  unfold StagingBuffer.recentBases countMismatch ring?
  simp only [h, hstale, Bool.false_eq_true, if_false]

theorem Valid.push (h : b.Valid) (t : Token) (seq column : Nat) (content : Bytes) :
    Undisturbed b (b.push t seq column content).2 t := by
  by_cases hcurrent : b.isCurrent t = true
  · obtain ⟨ring, hstaged⟩ := h.staged hcurrent
    by_cases hcolumn : column < ring.region.columns
    · obtain ⟨-, hpushed, hothers⟩ := hstaged.push seq content hcolumn
      refine ⟨hpushed.valid, fun i => ?_, hothers, fun hstale => ?_⟩
      · unfold StagingBuffer.push
        simp only [countMismatch_eq hcurrent, hstaged.ring?_eq, if_pos hcolumn]
        exact claims_modifyRing b _ _ _ _ i
      · rw [hcurrent] at hstale
        cases hstale
    · rw [hstaged.push_beyond seq content hcolumn]
      exact h.undisturbed t
  · rw [push_stale (Bool.eq_false_iff.mpr hcurrent)]
    exact h.undisturbed_count t _

theorem Valid.commit (h : b.Valid) (t : Token) (seq : Nat) :
    Undisturbed b (b.commit t seq).2 t := by
  by_cases hcurrent : b.isCurrent t = true
  · obtain ⟨ring, hstaged⟩ := h.staged hcurrent
    obtain ⟨-, hsealed, hothers⟩ := hstaged.commit seq
    refine ⟨hsealed.valid, fun i => ?_, hothers, fun hstale => ?_⟩
    · unfold StagingBuffer.commit
      simp only [countMismatch_eq hcurrent, hstaged.ring?_eq]
      rw [map_claimOf_modify t.slot i]
      · exact claims_modifyRing b _ _ _ _ i
      · exact fun _ => rfl
    · rw [hcurrent] at hstale
      cases hstale
  · rw [commit_stale (Bool.eq_false_iff.mpr hcurrent)]
    exact h.undisturbed_count t _

theorem Valid.recentBases (h : b.Valid) (t : Token) (target column limit : Nat) :
    Undisturbed b (b.recentBases t target column limit).2 t := by
  by_cases hcurrent : b.isCurrent t = true
  · obtain ⟨ring, hstaged⟩ := h.staged hcurrent
    rw [hstaged.recentBases]
    exact h.undisturbed t
  · rw [recentBases_stale (Bool.eq_false_iff.mpr hcurrent)]
    exact h.undisturbed_count t _

theorem Valid.pushColumns (h : b.Valid) (t : Token) (seq column : Nat)
    (contents : List (Option Bytes)) : Undisturbed b (b.pushColumns t seq column contents).2 t := by
  induction contents generalizing b column with
  | nil => exact h.undisturbed t
  | cons head rest ih =>
    cases head with
    | none => exact ih h (column + 1)
    | some content =>
      have hpushed := h.push t seq column content
      rw [pushColumns_some]
      split
      · exact hpushed.trans (ih hpushed.valid (column + 1))
      · exact hpushed

theorem Valid.stageRows (h : b.Valid) (t : Token) (rows : List StagedRow) :
    Undisturbed b (b.stageRows t rows).2 t := by
  induction rows generalizing b with
  | nil => exact h.undisturbed t
  | cons row rest ih =>
    have hpushed := h.pushColumns t row.seq 0 row.columns
    rw [StagingBuffer.stageRows]
    split
    · rename_i heq
      rw [heq] at hpushed
      exact hpushed
    · rename_i heq
      rw [heq] at hpushed
      have hsealed := hpushed.valid.commit t row.seq
      split
      · rename_i heq'
        rw [heq'] at hsealed
        exact hpushed.trans hsealed
      · rename_i heq'
        rw [heq'] at hsealed
        exact (hpushed.trans hsealed).trans (ih hsealed.valid)

/-! ## Tokens that were current before -/

/-- A group has one current token at most. -/
theorem Valid.token_unique (h : b.Valid) {u : Token} (ht : b.isCurrent t = true)
    (hu : b.isCurrent u = true) (howner : u.owner = t.owner) : u = t := by
  obtain ⟨slot, hslot, hslotOwner, hepoch⟩ := isCurrent_iff.mp ht
  obtain ⟨slot', hslot', hslotOwner', hepoch'⟩ := isCurrent_iff.mp hu
  have hi := (h.owners t.owner t.slot).mpr ⟨slot, hslot, hslotOwner⟩
  have hj := (h.owners t.owner u.slot).mpr ⟨slot', hslot', howner ▸ hslotOwner'⟩
  rw [hi] at hj
  cases t
  cases u
  cases hj
  rw [hslot] at hslot'
  cases hslot'
  simp only at howner hepoch hepoch'
  rw [howner, ← hepoch, ← hepoch']

/-- A token is current only if its group has a ring. -/
theorem Valid.ringFor_ne_none (h : b.Valid) (hcurrent : b.isCurrent t = true) :
    b.ringFor t.owner ≠ none := by
  obtain ⟨ring, hstaged⟩ := h.staged hcurrent
  rw [hstaged.ring]
  exact Option.some_ne_none ring

theorem isCurrent_of_freeSlot {i : Nat} (h : (b.freeSlot i).isCurrent t = true) :
    b.isCurrent t = true := by
  obtain ⟨slot, hslot, howner, hepoch⟩ := isCurrent_iff.mp h
  rw [slots_freeSlot] at hslot
  split at hslot
  · -- the slot that was freed has no owner
    obtain ⟨s, -, rfl⟩ := Option.map_eq_some_iff.mp hslot
    cases howner
  · exact isCurrent_iff.mpr ⟨slot, hslot, howner, hepoch⟩

theorem isCurrent_of_freeSlots {l : List Nat} (h : (b.freeSlots l).isCurrent t = true) :
    b.isCurrent t = true := by
  induction l generalizing b with
  | nil => exact h
  | cons i rest ih => exact isCurrent_of_freeSlot (ih h)

theorem isCurrent_of_claim {i : Nat} (hi : i < b.slots.size) {depth columns : Nat}
    (h : (b.claim i owner depth columns).2.isCurrent t = true) (hother : t.owner ≠ owner) :
    b.isCurrent t = true := by
  obtain ⟨slot, hslot, howner, hepoch⟩ := isCurrent_iff.mp h
  rw [slots_claim hi] at hslot
  split at hslot
  · cases hslot
    exact absurd (Option.some.inj howner).symm hother
  · exact isCurrent_iff.mpr ⟨slot, hslot, howner, hepoch⟩

theorem isCurrent_of_claimNew (hb : b.Valid) {depth columns : Nat}
    (h : (b.claimNew owner depth columns).2.isCurrent t = true) (hother : t.owner ≠ owner) :
    b.isCurrent t = true := by
  have hsize : b.victim < (b.freeSlot b.victim).slots.size := by
    rw [size_freeSlot]
    exact hb.victim_lt
  unfold StagingBuffer.claimNew at h
  simp only at h
  split at h
  · have hcounted := isCurrent_of_claim
      (by rw [size_freeSlot]; exact hb.victim_lt) h hother
    exact isCurrent_of_freeSlot (b := { b with evictedWhileOwned := b.evictedWhileOwned + 1 }) hcounted
  · exact isCurrent_of_freeSlot (isCurrent_of_claim hsize h hother)

/-- Only a group that claims anew gets a token that was not current before. -/
theorem isCurrent_of_acquire (hb : b.Valid) {depth columns : Nat}
    (h : (b.acquire owner depth columns).2.2.isCurrent t = true)
    (hold : t.owner ≠ owner ∨ (b.acquire owner depth columns).2.1 = false) :
    b.isCurrent t = true := by
  have hticked := hb.count (b.tick + 1) b.evictedWhileOwned
  unfold StagingBuffer.acquire at h hold
  cases howner : b.owners[owner]? with
  | some i =>
    by_cases hshape : (b.slots.getD i {}).depth = min (max depth 1) maxShape ∧
        (b.slots.getD i {}).columns = min columns maxShape
    · simp only [howner, if_pos hshape] at h
      have hslots : ∀ j : Nat, ((b.slots.modify i ({ · with lastActive := b.tick + 1 }))[j]?).map
          claimOf = (b.slots[j]?).map claimOf := fun j => map_claimOf_modify i j _ fun _ => rfl
      exact isCurrent_congr (fun j => (hslots j).symm) h
    · simp only [howner, if_neg hshape] at h hold
      have hother := hold.resolve_right (by simp)
      have hfreed := isCurrent_of_claimNew (hticked.freeSlot i) h hother
      have hcurrent := isCurrent_of_freeSlot hfreed
      exact hcurrent
  | none =>
    simp only [howner] at h hold
    have hother := hold.resolve_right (by simp)
    have hcurrent := isCurrent_of_claimNew hticked h hother
    exact hcurrent

/-! ## The ring of another group -/

/-- A claim gives a token to the group. -/
theorem owner_acquire (b : StagingBuffer) (owner : GroupId) (depth columns : Nat) :
    (b.acquire owner depth columns).1.owner = owner := by
  unfold StagingBuffer.acquire
  simp only
  split
  · split
    · rfl
    · rfl
  · rfl

/-- A call leaves the ring of another group alone, or its slot is claimed. -/
theorem Valid.perform (h : b.Valid) (command : StagingCommand) :
    Valid (b.perform command) ∧ ∀ g, ¬ command.IsFor g →
      (b.perform command).ringFor g = none ∨ (b.perform command).ringFor g = b.ringFor g := by
  have hcall : ∀ {c t}, Undisturbed b c t → Valid c ∧ ∀ g, ¬ t.owner = g →
      c.ringFor g = none ∨ c.ringFor g = b.ringFor g :=
    fun hkept => ⟨hkept.valid, fun g hg => .inr (hkept.others g (Ne.symm hg))⟩
  cases command with
  | acquire owner depth columns =>
    have hacquired := h.acquire owner depth columns
    exact ⟨hacquired.valid, fun g hg => hacquired.others g (Ne.symm hg)⟩
  | push t seq column content => exact hcall (h.push t seq column content)
  | commit t seq => exact hcall (h.commit t seq)
  | populate t rows => exact hcall (h.stageRows t _)
  | recentBases t target column limit => exact hcall (h.recentBases t target column limit)
  | invalidate table =>
    obtain ⟨hvalid, hrings⟩ := h.invalidate table
    refine ⟨hvalid, fun g _ => ?_⟩
    show (b.invalidate table).2.ringFor g = none ∨ (b.invalidate table).2.ringFor g = _
    rw [hrings]
    split
    · exact .inl rfl
    · exact .inr rfl

end StagingBuffer

end VersionChain
