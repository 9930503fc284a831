import Mathlib.Data.List.Nodup
import Mathlib.Data.List.Perm.Subperm
import VersionChain.Proofs.Staging.Sealing

/-!
# The books of a staging buffer

There are as many regions in use as groups with a slot, and never more than slots. Every claim has a
number of its own, smaller than those still to come.

* `Arena.Valid.live_allocate`, `Arena.Valid.live_release` — how many regions are handed out;
* `Booked` — the counters agree with the claims;
* `Valid.size_owners_le` — no more groups than slots;
* `Lasting.run` — what freeing, claiming and writing keep, every sequence of calls keeps;
* `Booked.run` — the counters after every sequence of calls.
-/

namespace VersionChain

namespace Arena

variable {ι : Type} [CellNumber ι] {a : Arena ι} {h : Handle ι}

theorem Valid.length_free_le (hv : a.Valid) : a.free.length ≤ a.cells.size := by
  have hnodup : (a.free.map CellNumber.position).Nodup :=
    hv.nodup.map fun i j => CellNumber.position_inj.mp
  have hsubset : a.free.map CellNumber.position ⊆ List.range a.cells.size := by
    intro i hi
    obtain ⟨index, hindex, rfl⟩ := List.mem_map.mp hi
    obtain ⟨cell, hcell, -⟩ := (hv.free index).mp hindex
    exact List.mem_range.mpr (Array.getElem?_eq_some_iff.mp hcell).1
  have hle := (List.subperm_of_subset hnodup hsubset).length_le
  rwa [List.length_map, List.length_range] at hle

theorem Valid.live_allocate (hv : a.Valid) (region : Region) :
    (a.allocate region).2.live = a.live + 1 := by
  have hle := hv.length_free_le
  unfold Arena.allocate live
  split
  · rename_i index rest hfree
    rw [hfree, List.length_cons] at hle
    show (a.cells.modify _ _).size - rest.length = a.cells.size - a.free.length + 1
    rw [Array.size_modify, hfree, List.length_cons]
    omega
  · rename_i hfree
    rw [Array.size_push, hfree]
    rfl

theorem live_modify (a : Arena ι) (h : Handle ι) (f : Region → Region) :
    (a.modify h f).live = a.live := by
  unfold live Arena.modify
  rw [Array.size_modify]

theorem Valid.live_release (hv : a.Valid) {region : Region} (hget : a.get? h = some region) :
    (a.release h).live + 1 = a.live := by
  have hle := (hv.release h).length_free_le
  unfold Arena.release at hle ⊢
  unfold live
  rw [hget] at hle ⊢
  simp only [Option.isSome_some, if_true, List.length_cons, Array.size_modify] at hle ⊢
  omega

end Arena

namespace StagingBuffer

variable {b c : StagingBuffer} {t : Token} {owner : GroupId}

/-- The counters agree with the claims, and every claim has its own number. -/
structure Booked (b : StagingBuffer) : Prop where
  valid : Valid b
  regions : b.arena.live = b.owners.size
  issued : ∀ (i : Nat) slot, b.slots[i]? = some slot → slot.epoch < b.nextEpoch
  distinct : ∀ (i j : Nat) slot slot', b.slots[i]? = some slot → b.slots[j]? = some slot' →
    slot.owner ≠ none → slot'.owner ≠ none → slot.epoch = slot'.epoch → i = j

/-- No two groups own one slot, so there are no more of them than slots. -/
theorem Valid.size_owners_le (h : b.Valid) : b.owners.size ≤ b.slots.size := by
  have howned : ∀ {g i}, (g, i) ∈ b.owners.toList →
      ∃ slot, b.slots[i]? = some slot ∧ slot.owner = some g := fun hmem =>
    (h.owners _ _).mp (Std.HashMap.mem_toList_iff_getElem?_eq_some.mp hmem)
  have hnodup : (b.owners.toList.map Prod.snd).Nodup := by
    rw [List.nodup_iff_pairwise_ne, List.pairwise_map]
    refine Std.HashMap.distinct_keys_toList.imp_of_mem fun {x y} hx hy hne heq => ?_
    obtain ⟨slot, hslot, hx⟩ := howned hx
    obtain ⟨slot', hslot', hy⟩ := howned hy
    rw [heq, hslot'] at hslot
    cases hslot
    have hsame : x.1 = y.1 := Option.some.inj (hx.symm.trans hy)
    rw [hsame, beq_self_eq_true] at hne
    cases hne
  have hsubset : b.owners.toList.map Prod.snd ⊆ List.range b.slots.size := by
    intro i hi
    obtain ⟨⟨g, _⟩, hmem, rfl⟩ := List.mem_map.mp hi
    obtain ⟨slot, hslot, -⟩ := howned hmem
    exact List.mem_range.mpr (Array.getElem?_eq_some_iff.mp hslot).1
  have hle := (List.subperm_of_subset hnodup hsubset).length_le
  rwa [List.length_map, Std.HashMap.length_toList, List.length_range] at hle

theorem booked_new (slots : Nat) : Booked (new slots) where
  valid := valid_new slots
  regions := Std.HashMap.size_empty.symm
  issued i slot hslot := by
    have hslot' : (Array.replicate (max slots 1) ({} : StagingSlot))[i]? = some slot := hslot
    rw [Array.getElem?_replicate] at hslot'
    split at hslot'
    · cases hslot'
      exact Nat.zero_lt_one
    · cases hslot'
  distinct i _ slot _ hslot _ howner := by
    have hslot' : (Array.replicate (max slots 1) ({} : StagingSlot))[i]? = some slot := hslot
    rw [Array.getElem?_replicate] at hslot'
    split at hslot'
    · cases hslot'
      exact absurd rfl howner
    · cases hslot'

/-! ## Calls with a token -/

/-- Nothing is claimed or given up. -/
structure Steady (b c : StagingBuffer) : Prop where
  owners : c.owners = b.owners
  regions : c.arena.live = b.arena.live
  nextEpoch : c.nextEpoch = b.nextEpoch
  evicted : c.evictedWhileOwned = b.evictedWhileOwned

theorem Steady.refl (b : StagingBuffer) : Steady b b := ⟨rfl, rfl, rfl, rfl⟩

theorem steady_count (b : StagingBuffer) (mismatches : Nat) : Steady b { b with mismatches } :=
  ⟨rfl, rfl, rfl, rfl⟩

theorem steady_modifyRing (b : StagingBuffer) (i : Nat) (f : Region → Region)
    (cursor valid : Nat) : Steady b (b.modifyRing i f cursor valid) := by
  unfold modifyRing
  split
  · exact ⟨rfl, Arena.live_modify _ _ f, rfl, rfl⟩
  · exact .refl b

theorem Valid.steady_push (h : b.Valid) (t : Token) (seq column : Nat) (content : Bytes) :
    Steady b (b.push t seq column content).2 := by
  by_cases hcurrent : b.isCurrent t = true
  · obtain ⟨ring, hstaged⟩ := h.staged hcurrent
    unfold StagingBuffer.push
    simp only [countMismatch_eq hcurrent, hstaged.ring?_eq]
    split
    · exact steady_modifyRing b _ _ _ _
    · exact .refl b
  · rw [push_stale (Bool.eq_false_iff.mpr hcurrent)]
    exact steady_count b _

theorem Valid.steady_commit (h : b.Valid) (t : Token) (seq : Nat) :
    Steady b (b.commit t seq).2 := by
  by_cases hcurrent : b.isCurrent t = true
  · obtain ⟨ring, hstaged⟩ := h.staged hcurrent
    have hring := steady_modifyRing b t.slot (·.commit ring.cursor seq) ring.nextCursor
      ring.validAfter
    unfold StagingBuffer.commit
    simp only [countMismatch_eq hcurrent, hstaged.ring?_eq]
    exact ⟨hring.owners, hring.regions, hring.nextEpoch, hring.evicted⟩
  · rw [commit_stale (Bool.eq_false_iff.mpr hcurrent)]
    exact steady_count b _

theorem Valid.steady_recentBases (h : b.Valid) (t : Token) (target column limit : Nat) :
    Steady b (b.recentBases t target column limit).2 := by
  by_cases hcurrent : b.isCurrent t = true
  · obtain ⟨ring, hstaged⟩ := h.staged hcurrent
    rw [hstaged.recentBases]
    exact .refl b
  · rw [recentBases_stale (Bool.eq_false_iff.mpr hcurrent)]
    exact steady_count b _

namespace Booked

/-- The same claims with the same numbers. -/
theorem of_steady (h : b.Booked) (hc : c.Valid)
    (hclaims : ∀ i : Nat, (c.slots[i]?).map claimOf = (b.slots[i]?).map claimOf)
    (hsteady : Steady b c) : c.Booked where
  valid := hc
  regions := by rw [hsteady.regions, h.regions, hsteady.owners]
  issued i slot hslot := by
    obtain ⟨s, hs, -, hepoch, -⟩ := slot_of_claim (hclaims i) hslot
    rw [← hepoch, hsteady.nextEpoch]
    exact h.issued i s hs
  distinct i j slot slot' hslot hslot' howner howner' hepochs := by
    obtain ⟨s, hs, hsOwner, hepoch, -⟩ := slot_of_claim (hclaims i) hslot
    obtain ⟨s', hs', hsOwner', hepoch', -⟩ := slot_of_claim (hclaims j) hslot'
    refine h.distinct i j s s' hs hs' ?_ ?_ ?_
    · rw [hsOwner]
      exact howner
    · rw [hsOwner']
      exact howner'
    · rw [hepoch, hepoch', hepochs]

theorem push (h : b.Booked) (t : Token) (seq column : Nat) (content : Bytes) :
    (b.push t seq column content).2.Booked :=
  have hkept := h.valid.push t seq column content
  h.of_steady hkept.valid hkept.claims (h.valid.steady_push t seq column content)

theorem commit (h : b.Booked) (t : Token) (seq : Nat) : (b.commit t seq).2.Booked :=
  have hkept := h.valid.commit t seq
  h.of_steady hkept.valid hkept.claims (h.valid.steady_commit t seq)

end Booked

/-! ## Giving up and claiming -/

/-- The buffer one tick later. -/
def ticked (b : StagingBuffer) : StagingBuffer := { b with tick := b.tick + 1 }

/-- A slot has the shape that a claim asks for. -/
def HasShape (slot : StagingSlot) (depth columns : Nat) : Prop :=
  slot.depth = clampDepth depth ∧ slot.columns = min columns maxShape

/-- A group keeps its slot if that has the shape. A slot of another shape is given up, and then,
as by a group without a slot, one is claimed anew. -/
theorem Valid.acquire_cases (h : b.Valid) (owner : GroupId) (depth columns : Nat) :
    (∃ i slot, b.slots[i]? = some slot ∧ slot.owner = some owner ∧ HasShape slot depth columns ∧
      b.acquire owner depth columns = (⟨i, owner, slot.epoch⟩, false,
        { b with
          tick := b.tick + 1
          slots := b.slots.modify i ({ · with lastActive := b.tick + 1 }) })) ∨
    (∃ i slot, b.slots[i]? = some slot ∧ slot.owner = some owner ∧
      ¬ HasShape slot depth columns ∧
      let claimed := (b.ticked.freeSlot i).claimNew owner (clampDepth depth) (min columns maxShape)
      b.acquire owner depth columns = (claimed.1, true, claimed.2)) ∨
    (b.owners[owner]? = none ∧
      let claimed := b.ticked.claimNew owner (clampDepth depth) (min columns maxShape)
      b.acquire owner depth columns = (claimed.1, true, claimed.2)) := by
  unfold StagingBuffer.acquire
  simp only
  cases howner : b.owners[owner]? with
  | none => exact .inr (.inr ⟨rfl, rfl⟩)
  | some i =>
    obtain ⟨slot, hslot, hslotOwner⟩ := (h.owners owner i).mp howner
    have hgetD : b.slots.getD i {} = slot := by
      rw [Array.getD_eq_getD_getElem?, hslot]
      rfl
    simp only [hgetD]
    by_cases hshape : HasShape slot depth columns
    · exact .inl ⟨i, slot, hslot, hslotOwner, hshape, if_pos hshape⟩
    · exact .inr (.inl ⟨i, slot, hslot, hslotOwner, hshape, if_neg hshape⟩)

/-- With its slot, a group goes. -/
theorem Valid.size_owners_freeSlot (h : b.Valid) {i : Nat} {slot : StagingSlot} {g : GroupId}
    (hslot : b.slots[i]? = some slot) (howner : slot.owner = some g) :
    (b.freeSlot i).owners.size + 1 = b.owners.size := by
  have hmem : g ∈ b.owners := by
    rw [← Std.HashMap.isSome_getElem?_iff_mem, (h.owners g i).mpr ⟨slot, hslot, howner⟩]
    rfl
  have hfree : (b.freeSlot i).owners = b.owners.erase g := by
    unfold StagingBuffer.freeSlot
    simp only [hslot, howner]
  have hpos : b.owners.size ≠ 0 := fun hzero => by
    have hempty := Std.HashMap.isEmpty_eq_size_eq_zero.trans (decide_eq_true hzero)
    exact Std.HashMap.not_mem_of_isEmpty hempty hmem
  rw [hfree, Std.HashMap.size_erase, if_pos hmem]
  omega

namespace Booked

/-- A region is given back exactly if a claim is. -/
theorem live_freeSlot (h : b.Booked) (i : Nat) :
    (b.freeSlot i).arena.live = (b.freeSlot i).owners.size := by
  have hregions := h.regions
  cases hslot : b.slots[i]? with
  | none =>
    rw [freeSlot_eq_self hslot]
    exact hregions
  | some slot =>
    rw [arena_freeSlot hslot]
    cases howner : slot.owner with
    | none =>
      -- a slot without an owner has no region to give back
      have hregion := h.valid.unclaimed i slot hslot howner
      have hfree : (b.freeSlot i).owners = b.owners := by
        unfold StagingBuffer.freeSlot
        simp only [hslot, howner]
      rw [hregion, hfree]
      exact hregions
    | some g =>
      obtain ⟨handle, region, hhandle, hget, -⟩ :=
        h.valid.housed i slot hslot (by rw [howner]; exact Option.some_ne_none g)
      have hlive := h.valid.arena.live_release hget
      have hsize := h.valid.size_owners_freeSlot hslot howner
      rw [hhandle]
      show (b.arena.release handle).live = _
      omega

theorem freeSlot (h : b.Booked) (i : Nat) : (b.freeSlot i).Booked := by
  have hcases : ∀ {j : Nat} {s}, (b.freeSlot i).slots[j]? = some s → ∃ slot,
      b.slots[j]? = some slot ∧ (s = slot ∨ s = freed slot) := by
    intro j s hs
    rw [slots_freeSlot] at hs
    split at hs
    · obtain ⟨slot, hslot, rfl⟩ := Option.map_eq_some_iff.mp hs
      exact ⟨slot, hslot, .inr rfl⟩
    · exact ⟨s, hs, .inl rfl⟩
  have hnext : (b.freeSlot i).nextEpoch = b.nextEpoch := by
    unfold StagingBuffer.freeSlot
    split <;> rfl
  refine ⟨h.valid.freeSlot i, h.live_freeSlot i, fun j s hs => ?_,
    fun j k s s' hs hs' howner howner' => ?_⟩
  · rw [hnext]
    obtain ⟨slot, hslot, rfl | rfl⟩ := hcases hs
    · exact h.issued j s hslot
    · exact h.issued j slot hslot
  · obtain ⟨slot, hslot, rfl | rfl⟩ := hcases hs
    · obtain ⟨slot', hslot', rfl | rfl⟩ := hcases hs'
      · exact h.distinct j k s s' hslot hslot' howner howner'
      · exact absurd rfl howner'
    · exact absurd rfl howner

/-- A claim gets a number that no slot has. -/
theorem claim (h : b.Booked) {i : Nat} {slot : StagingSlot} (hslot : b.slots[i]? = some slot)
    (hfree : slot.owner = none) (howner : b.owners[owner]? = none) (depth columns : Nat) :
    (b.claim i owner depth columns).2.Booked := by
  have hlt := (Array.getElem?_eq_some_iff.mp hslot).1
  have hcases : ∀ {j : Nat} {s}, (b.claim i owner depth columns).2.slots[j]? = some s →
      j = i ∧ s = b.taken owner depth columns ∨ j ≠ i ∧ b.slots[j]? = some s :=
    slot_cases (slots_claim hlt owner depth columns)
  refine ⟨h.valid.valid_claim hslot hfree howner depth columns, ?_, fun j s hs => ?_,
    fun j k s s' hs hs' hclaimed hclaimed' hepochs => ?_⟩
  · have hmem : owner ∉ b.owners := by
      rw [← Std.HashMap.isSome_getElem?_iff_mem, howner]
      exact Bool.false_ne_true
    show (b.arena.allocate _).2.live = (b.owners.insert owner i).size
    rw [h.valid.arena.live_allocate, Std.HashMap.size_insert, if_neg hmem, h.regions]
  · show s.epoch < b.nextEpoch + 1
    rcases hcases hs with ⟨-, rfl⟩ | ⟨-, hs⟩
    · exact Nat.lt_succ_self _
    · exact Nat.lt_succ_of_lt (h.issued j s hs)
  · rcases hcases hs with ⟨hj, rfl⟩ | ⟨-, hs⟩ <;> rcases hcases hs' with ⟨hk, rfl⟩ | ⟨-, hs'⟩
    · rw [hj, hk]
    · have := h.issued k s' hs'
      exact absurd hepochs.symm (Nat.ne_of_lt this)
    · have := h.issued j s hs
      exact absurd hepochs (Nat.ne_of_lt this)
    · exact h.distinct j k s s' hs hs' hclaimed hclaimed' hepochs

theorem count (h : b.Booked) (tick evicted : Nat) :
    Booked { b with tick, evictedWhileOwned := evicted } :=
  ⟨h.valid.count tick evicted, h.regions, h.issued, h.distinct⟩

theorem touch (h : b.Booked) (tick i lastActive : Nat) :
    Booked { b with tick, slots := b.slots.modify i ({ · with lastActive }) } :=
  have hslots : ∀ j : Nat, ((b.slots.modify i ({ · with lastActive }))[j]?).map claimOf =
      (b.slots[j]?).map claimOf := fun j => map_claimOf_modify i j _ fun _ => rfl
  h.of_steady (h.valid.touch tick i lastActive).1 hslots ⟨rfl, rfl, rfl, rfl⟩

theorem recentBases (h : b.Booked) (t : Token) (target column limit : Nat) :
    (b.recentBases t target column limit).2.Booked :=
  have hkept := h.valid.recentBases t target column limit
  h.of_steady hkept.valid hkept.claims (h.valid.steady_recentBases t target column limit)

end Booked

/-! ## Every sequence of calls -/

/-- What goes on to hold of a buffer, whatever is done to it. -/
structure Lasting (P : StagingBuffer → Prop) : Prop where
  valid : ∀ {b}, P b → Valid b
  count : ∀ {b}, P b → ∀ tick evicted, P { b with tick, evictedWhileOwned := evicted }
  touch : ∀ {b}, P b → ∀ tick i lastActive,
    P { b with tick, slots := b.slots.modify i ({ · with lastActive }) }
  freeSlot : ∀ {b}, P b → ∀ i, P (b.freeSlot i)
  claim : ∀ {b}, P b → ∀ {i : Nat} {slot owner}, b.slots[i]? = some slot → slot.owner = none →
    b.owners[owner]? = none → ∀ depth columns, P (b.claim i owner depth columns).2
  push : ∀ {b}, P b → ∀ t seq column content, P (b.push t seq column content).2
  commit : ∀ {b}, P b → ∀ t seq, P (b.commit t seq).2
  recentBases : ∀ {b}, P b → ∀ t target column limit, P (b.recentBases t target column limit).2

theorem lasting_booked : Lasting Booked where
  valid h := h.valid
  count h := h.count
  touch h := h.touch
  freeSlot h := h.freeSlot
  claim h := h.claim
  push h := h.push
  commit h := h.commit
  recentBases h := h.recentBases

namespace Lasting

variable {P : StagingBuffer → Prop}

theorem freeSlots (hP : Lasting P) (h : P b) (l : List Nat) : P (b.freeSlots l) := by
  induction l generalizing b with
  | nil => exact h
  | cons i rest ih => exact ih (hP.freeSlot h i)

theorem claimNew (hP : Lasting P) (h : P b) (howner : b.owners[owner]? = none)
    (depth columns : Nat) : P (b.claimNew owner depth columns).2 := by
  obtain ⟨slot, hslot⟩ : ∃ slot, b.slots[b.victim]? = some slot :=
    ⟨_, Array.getElem?_eq_getElem (hP.valid h).victim_lt⟩
  -- the slot is freed first, whoever owns it
  have hfree : ∀ {c : StagingBuffer}, P c → c.slots = b.slots → c.owners = b.owners →
      P ((c.freeSlot b.victim).claim b.victim owner depth columns).2 := by
    intro c hc hslots howners
    rw [← hslots] at hslot
    have hfreed : (c.freeSlot b.victim).slots[b.victim]? = some (freed slot) := by
      rw [slots_freeSlot, if_pos rfl, hslot]
      rfl
    refine hP.claim (hP.freeSlot hc b.victim) hfreed rfl ?_ depth columns
    rw [owners_freeSlot hslot]
    split
    · rfl
    · rw [howners]
      exact howner
  unfold StagingBuffer.claimNew
  simp only
  split
  · exact hfree (hP.count h b.tick (b.evictedWhileOwned + 1)) rfl rfl
  · exact hfree h rfl rfl

theorem acquire (hP : Lasting P) (h : P b) (owner : GroupId) (depth columns : Nat) :
    P (b.acquire owner depth columns).2.2 := by
  have hticked : P b.ticked := hP.count h (b.tick + 1) b.evictedWhileOwned
  rcases (hP.valid h).acquire_cases owner depth columns with
    ⟨i, slot, -, -, -, hacquire⟩ | ⟨i, slot, hslot, howner, -, hacquire⟩ | ⟨howner, hacquire⟩
  · rw [hacquire]
    exact hP.touch h (b.tick + 1) i (b.tick + 1)
  · rw [hacquire]
    refine hP.claimNew (hP.freeSlot hticked i) ?_ _ _
    rw [owners_freeSlot (b := b.ticked) hslot, if_pos howner]
  · rw [hacquire]
    exact hP.claimNew hticked howner _ _

theorem perform (hP : Lasting P) (h : P b) (command : StagingCommand) : P (b.perform command) := by
  cases command with
  | acquire owner depth columns => exact hP.acquire h owner depth columns
  | push t seq column content => exact hP.push h t seq column content
  | commit t seq => exact hP.commit h t seq
  | populate t rows =>
    exact stageRows_keeps (P := P) (fun _ seq column content hb => hP.push hb t seq column content)
      (fun _ seq hb => hP.commit hb t seq) h _
  | recentBases t target column limit => exact hP.recentBases h t target column limit
  | invalidate table => exact hP.freeSlots h _

theorem run (hP : Lasting P) (h : P b) (commands : List StagingCommand) :
    P (commands.foldl StagingBuffer.perform b) := by
  induction commands generalizing b with
  | nil => exact h
  | cons command rest ih => exact ih (hP.perform h command)

end Lasting

namespace Booked

theorem freeSlots (h : b.Booked) (l : List Nat) : (b.freeSlots l).Booked :=
  lasting_booked.freeSlots h l

theorem acquire (h : b.Booked) (owner : GroupId) (depth columns : Nat) :
    (b.acquire owner depth columns).2.2.Booked :=
  lasting_booked.acquire h owner depth columns

theorem perform (h : b.Booked) (command : StagingCommand) : (b.perform command).Booked :=
  lasting_booked.perform h command

theorem run (h : b.Booked) (commands : List StagingCommand) :
    (commands.foldl StagingBuffer.perform b).Booked :=
  lasting_booked.run h commands

end Booked

end StagingBuffer

end VersionChain
