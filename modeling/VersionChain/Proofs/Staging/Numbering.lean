import VersionChain.Proofs.Staging.Claims
import VersionChain.Proofs.Staging.Handles

/-!
# The numbers of the cells of a buffer

The regions of a staging buffer lie in cells that are numbered without end. But a new cell comes
only when a slot is claimed and every cell is in use, and then there are fewer cells than slots. So
with at most 2³² slots no number is ever too large for 32 bits, and it makes no difference if the
cells have numbers of 32 bits: an arena that numbers them so comes to the same cells.

* `Arena.Narrows` — the same regions under numbers of 32 bits;
* `Arena.Persists` — what handing out, changing and taking back keep;
* `lasting_houses` — it holds of the arena of a buffer, whatever is done to the buffer;
* `cells_le_slots` — there are never more cells than slots;
* `regions_numbered` — the arena of a buffer is one with numbers of 32 bits.
-/

namespace VersionChain

/-! ## Numbers of 32 bits -/

/-- The handle with a number of 32 bits. -/
def Handle.narrow (h : Handle Nat) : Handle UInt32 := ⟨.ofNat h.index, h.generation⟩

theorem Handle.position_narrow {h : Handle Nat} (hlt : h.index < UInt32.size) :
    h.narrow.position = h.position := UInt32.toNat_ofNat_of_lt' hlt

namespace Arena

variable {a : Arena Nat} {n : Arena UInt32} {h : Handle Nat} {region : Region}

/-- The same cells, with the vacant ones numbered in 32 bits. -/
structure Narrows (a : Arena Nat) (n : Arena UInt32) : Prop where
  cells : n.cells = a.cells
  free : n.free.map UInt32.toNat = a.free

theorem narrows_empty : Narrows {} {} := ⟨rfl, rfl⟩

theorem Narrows.get? (hn : Narrows a n) (hlt : h.index < UInt32.size) :
    n.get? h.narrow = a.get? h := by
  unfold Arena.get? cell?
  rw [hn.cells, Handle.position_narrow hlt]
  rfl

theorem Narrows.modify (hn : Narrows a n) (hlt : h.index < UInt32.size) (f : Region → Region) :
    Narrows (a.modify h f) (n.modify h.narrow f) := by
  refine ⟨?_, hn.free⟩
  unfold Arena.modify
  rw [hn.cells, Handle.position_narrow hlt]
  rfl

theorem Narrows.release (hn : Narrows a n) (hlt : h.index < UInt32.size) :
    Narrows (a.release h) (n.release h.narrow) := by
  unfold Arena.release
  rw [hn.get? hlt]
  split
  · refine ⟨?_, ?_⟩
    · rw [hn.cells, Handle.position_narrow hlt]
    · rw [List.map_cons, hn.free]
      exact congrArg (· :: a.free) (UInt32.toNat_ofNat_of_lt' hlt)
  · exact hn

theorem Narrows.allocate (hn : Narrows a n) (region : Region) :
    (n.allocate region).1 = (a.allocate region).1.narrow ∧
      Narrows (a.allocate region).2 (n.allocate region).2 := by
  obtain ⟨cells, free⟩ := a
  obtain ⟨_, numbers⟩ := n
  obtain ⟨rfl, rfl⟩ := hn
  cases numbers with
  | nil => exact ⟨rfl, rfl, rfl⟩
  | cons index rest =>
    refine ⟨?_, rfl, rfl⟩
    show Handle.mk index _ = Handle.mk (UInt32.ofNat index.toNat) _
    rw [UInt32.ofNat_toNat]
    rfl

/-- A change through a handle to no cell changes nothing. -/
theorem modify_of_size_le (hle : a.cells.size ≤ h.position) (f : Region → Region) :
    a.modify h f = a := by
  have hcells : ∀ g : ArenaCell → ArenaCell, a.cells.modify h.position g = a.cells := by
    intro g
    refine Array.ext_getElem? fun i => ?_
    rw [Array.getElem?_modify]
    split
    · rename_i hi
      rw [← hi, Array.getElem?_eq_none hle]
      rfl
    · rfl
  unfold Arena.modify
  rw [hcells]

theorem get?_of_size_le (hle : a.cells.size ≤ h.position) : a.get? h = none := by
  unfold Arena.get? cell?
  rw [Array.getElem?_eq_none hle]
  rfl

/-! ## Properties that persist -/

/-- What holds of an arena goes on to hold, whatever is handed out, as long as a new cell is one of
so many, and whatever is changed or taken back. -/
structure Persists (limit : Nat) (P : Arena Nat → Prop) : Prop where
  allocate : ∀ a depth columns, (a.free = [] → a.cells.size < limit) → P a →
    P (a.allocate (.new depth columns)).2
  edit : ∀ a h (change : Region.Edit), P a → P (a.modify h change.apply)
  release : ∀ a h, P a → P (a.release h)

/-- There are no more cells than that. -/
theorem persists_size_le (limit : Nat) : Persists limit (·.cells.size ≤ limit) where
  allocate a depth columns hroom hle := by
    unfold Arena.allocate
    split
    · rw [Array.size_modify]
      exact hle
    · rename_i hfree
      rw [Array.size_push]
      exact hroom hfree
  edit a h change hle := by
    unfold Arena.modify
    rw [Array.size_modify]
    exact hle
  release a h hle := by
    rw [size_release]
    exact hle

/-- Then an arena whose cells have numbers of 32 bits comes to the same cells, by such calls. -/
theorem persists_narrows {limit : Nat} (hlimit : limit ≤ UInt32.size) :
    Persists limit fun a =>
      a.cells.size ≤ limit ∧ ∃ calls, Narrows a (Register.after calls).arena := by
  have hsize := persists_size_le limit
  refine ⟨fun a depth columns hroom hP => ?_, fun a h change hP => ?_, fun a h hP => ?_⟩
  · obtain ⟨hle, calls, hn⟩ := hP
    refine ⟨hsize.allocate a depth columns hroom hle, calls ++ [.allocate ⟨depth, columns⟩], ?_⟩
    rw [Register.after_concat]
    exact (hn.allocate (.new depth columns)).2
  · obtain ⟨hle, calls, hn⟩ := hP
    by_cases hinside : h.index < a.cells.size
    · refine ⟨hsize.edit a h change hle, calls ++ [.edit h.narrow change], ?_⟩
      rw [Register.after_concat]
      exact hn.modify (by omega) change.apply
    · rw [modify_of_size_le (Nat.le_of_not_lt hinside)]
      exact ⟨hle, calls, hn⟩
  · obtain ⟨hle, calls, hn⟩ := hP
    by_cases hinside : h.index < a.cells.size
    · refine ⟨hsize.release a h hle, calls ++ [.release h.narrow], ?_⟩
      rw [Register.after_concat]
      exact hn.release (by omega)
    · rw [release_of_none (get?_of_size_le (Nat.le_of_not_lt hinside))]
      exact ⟨hle, calls, hn⟩

end Arena

namespace StagingBuffer

open Arena (Persists Narrows)

variable {b c : StagingBuffer} {limit : Nat} {P : Arena Nat → Prop}

/-- A buffer with so many slots, whose arena has a property. -/
structure Houses (limit : Nat) (P : Arena Nat → Prop) (b : StagingBuffer) : Prop where
  booked : b.Booked
  slots : b.slots.size = limit
  arena : P b.arena

/-! ## Calls with a token -/

/-- At most one region is changed. -/
def Edited (b c : StagingBuffer) : Prop :=
  c.arena = b.arena ∨ ∃ h, ∃ change : Region.Edit, c.arena = b.arena.modify h change.apply

theorem edited_modifyRing (b : StagingBuffer) (i : Nat) (change : Region.Edit)
    (cursor valid : Nat) : Edited b (b.modifyRing i change.apply cursor valid) := by
  unfold modifyRing
  split
  · exact .inr ⟨_, change, rfl⟩
  · exact .inl rfl

theorem arena_countMismatch (b : StagingBuffer) (t : Token) :
    (b.countMismatch t).arena = b.arena := by
  unfold countMismatch
  split <;> rfl

theorem edited_push (b : StagingBuffer) (t : Token) (seq column : Nat) (content : Bytes) :
    Edited b (b.push t seq column content).2 := by
  have hcount := b.arena_countMismatch t
  unfold Edited push
  rw [← hcount]
  simp only
  split
  · split
    · rename_i ring _ _
      exact edited_modifyRing _ t.slot (.push ring.cursor seq column content) ring.cursor
        ring.validBehind
    · exact .inl rfl
  · exact .inl rfl

theorem edited_commit (b : StagingBuffer) (t : Token) (seq : Nat) :
    Edited b (b.commit t seq).2 := by
  have hcount := b.arena_countMismatch t
  unfold Edited commit
  rw [← hcount]
  simp only
  split
  · rename_i ring _
    exact edited_modifyRing _ t.slot (.commit ring.cursor seq) ring.nextCursor ring.validAfter
  · exact .inl rfl

theorem arena_recentBases (b : StagingBuffer) (t : Token) (target column limit : Nat) :
    (b.recentBases t target column limit).2.arena = b.arena := by
  unfold recentBases
  simp only
  split <;> exact b.arena_countMismatch t

theorem size_of_claims (h : ∀ i : Nat, (c.slots[i]?).map claimOf = (b.slots[i]?).map claimOf) :
    c.slots.size = b.slots.size := by
  have hle : ∀ i : Nat, c.slots.size ≤ i ↔ b.slots.size ≤ i := fun i => by
    rw [← Array.getElem?_eq_none_iff, ← Option.map_eq_none_iff (f := claimOf), h i,
      Option.map_eq_none_iff, Array.getElem?_eq_none_iff]
  exact Nat.le_antisymm ((hle _).mpr (Nat.le_refl _)) ((hle _).mp (Nat.le_refl _))

namespace Houses

theorem edit (h : Houses limit P b) (hP : Persists limit P) (hc : c.Booked)
    (hclaims : ∀ i : Nat, (c.slots[i]?).map claimOf = (b.slots[i]?).map claimOf)
    (hedited : Edited b c) : Houses limit P c where
  booked := hc
  slots := (size_of_claims hclaims).trans h.slots
  arena := by
    rcases hedited with hsame | ⟨handle, change, hchanged⟩
    · rw [hsame]
      exact h.arena
    · rw [hchanged]
      exact hP.edit _ handle change h.arena

theorem freeSlot (h : Houses limit P b) (hP : Persists limit P) (i : Nat) :
    Houses limit P (b.freeSlot i) where
  booked := h.booked.freeSlot i
  slots := (size_freeSlot i).trans h.slots
  arena := by
    cases hslot : b.slots[i]? with
    | none =>
      rw [freeSlot_eq_self hslot]
      exact h.arena
    | some slot =>
      rw [arena_freeSlot hslot]
      split
      · exact hP.release _ _ h.arena
      · exact h.arena

/-- A claim needs a new cell only if every cell is in use. Then there are fewer cells than slots. -/
theorem claim (h : Houses limit P b) (hP : Persists limit P) {i : Nat} {slot : StagingSlot}
    {owner : GroupId} (hslot : b.slots[i]? = some slot) (hfree : slot.owner = none)
    (howner : b.owners[owner]? = none) (depth columns : Nat) :
    Houses limit P (b.claim i owner depth columns).2 := by
  have hclaimed := h.booked.claim hslot hfree howner depth columns
  have hsize : (b.claim i owner depth columns).2.slots.size = limit :=
    Array.size_setIfInBounds.trans h.slots
  refine ⟨hclaimed, hsize, hP.allocate _ depth columns (fun hvacant => ?_) h.arena⟩
  have hle := hclaimed.valid.size_owners_le
  rw [hsize, ← hclaimed.regions] at hle
  have hlive : (b.claim i owner depth columns).2.arena.live = b.arena.live + 1 :=
    h.booked.valid.arena.live_allocate _
  have hcells : b.arena.live = b.arena.cells.size := by
    rw [Arena.live, hvacant]
    rfl
  omega

end Houses

theorem lasting_houses (hP : Persists limit P) : Lasting (Houses limit P) where
  valid h := h.booked.valid
  count h tick evicted := ⟨h.booked.count tick evicted, h.slots, h.arena⟩
  touch h tick i lastActive :=
    ⟨h.booked.touch tick i lastActive, Array.size_modify.trans h.slots, h.arena⟩
  freeSlot h := h.freeSlot hP
  claim h := h.claim hP
  push h t seq column content :=
    h.edit hP (h.booked.push t seq column content)
      (h.booked.valid.push t seq column content).claims (edited_push _ t seq column content)
  commit h t seq :=
    h.edit hP (h.booked.commit t seq) (h.booked.valid.commit t seq).claims (edited_commit _ t seq)
  recentBases h t target column limit :=
    h.edit hP (h.booked.recentBases t target column limit)
      (h.booked.valid.recentBases t target column limit).claims
      (.inl (arena_recentBases _ t target column limit))

/-! ## Every sequence of calls -/

theorem houses_new (slots : Nat) (hempty : P {}) : Houses (max slots 1) P (new slots) :=
  ⟨booked_new slots, Array.size_replicate, hempty⟩

/-- A buffer never has more cells than slots. -/
theorem cells_le_slots (slots : Nat) (commands : List StagingCommand) :
    (commands.foldl perform (new slots)).arena.cells.size ≤ max slots 1 :=
  have hnew := houses_new slots (P := (·.cells.size ≤ max slots 1)) (Nat.zero_le _)
  ((lasting_houses (Arena.persists_size_le _)).run hnew commands).arena

/-- Whatever calls a buffer of at most 2³² slots went through, there are calls that lead an arena
with numbers of 32 bits to the same cells, with the vacant ones in the same order. Each slot finds
its region there under a number of 32 bits. -/
theorem regions_numbered (slots : Nat) (hslots : slots ≤ UInt32.size)
    (commands : List StagingCommand) :
    let b := commands.foldl perform (new slots)
    ∃ calls, Narrows b.arena (Arena.Register.after calls).arena ∧
      (Arena.Register.after calls).arena.cells.size ≤ UInt32.size ∧
      ∀ (i : Nat) slot handle, b.slots[i]? = some slot → slot.region = some handle →
        (Arena.Register.after calls).arena.get? handle.narrow = b.arena.get? handle := by
  intro b
  have hlimit : max slots 1 ≤ UInt32.size := Nat.max_le.mpr ⟨hslots, by decide⟩
  have hnew := houses_new slots (P := fun a => a.cells.size ≤ max slots 1 ∧
      ∃ calls, Narrows a (Arena.Register.after calls).arena)
    ⟨Nat.zero_le _, [], Arena.narrows_empty⟩
  have hrun : Houses _ _ b := (lasting_houses (Arena.persists_narrows hlimit)).run hnew commands
  obtain ⟨hsize, calls, hn⟩ := hrun.arena
  refine ⟨calls, hn, ?_, fun i slot handle hslot hhandle => ?_⟩
  · rw [hn.cells]
    exact Nat.le_trans hsize hlimit
  have howner : slot.owner ≠ none := by
    intro hnone
    rw [hrun.booked.valid.unclaimed i slot hslot hnone] at hhandle
    cases hhandle
  obtain ⟨_, region, hregion, hget, -⟩ := hrun.booked.valid.housed i slot hslot howner
  rw [hhandle] at hregion
  cases hregion
  obtain ⟨_, hcell, -, -⟩ := Arena.get?_eq_some.mp hget
  have hlt := (Array.getElem?_eq_some_iff.mp hcell).1
  exact hn.get? (Nat.lt_of_lt_of_le hlt (Nat.le_trans hsize hlimit))

end StagingBuffer

end VersionChain
