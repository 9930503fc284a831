import VersionChain.Proofs.Cache.Seating

/-!
# Filling all buckets anew

When tombstones have piled up, all buckets are emptied and every live slot is seated again.
Slots keep their numbers, values and links; only the buckets that lead to them change.

* `liveSlots` — the slots that have to be seated;
* `Reseated` — nothing but buckets differs;
* `seated_rebuild` — afterwards every live slot is seated, whatever the buckets were before, if there
  are as many of them.
-/

namespace VersionChain.BoundedCache

variable {κ ν : Type}

/-! ## Live slots -/

/-- The numbers of the live slots. -/
def liveSlots (c : BoundedCache κ ν) : List Nat :=
  (List.range c.slots.size).filter fun i => (c.entry? i).isSome

theorem mem_liveSlots {c : BoundedCache κ ν} {i : Nat} :
    i ∈ c.liveSlots ↔ ∃ e, c.entry? i = some e := by
  rw [liveSlots, List.mem_filter, List.mem_range, Option.isSome_iff_exists]
  constructor
  · intro h
    exact h.2
  · intro ⟨e, he⟩
    exact ⟨lt_of_entry he, e, he⟩

theorem nodup_liveSlots (c : BoundedCache κ ν) : c.liveSlots.Nodup :=
  List.nodup_range.filter _

theorem liveSlots_le_of_lt {c : BoundedCache κ ν} (h : c.slots.size < c.buckets.size) :
    c.liveSlots.length ≤ c.buckets.size := by
  have hle : c.liveSlots.length ≤ (List.range c.slots.size).length := List.length_filter_le _ _
  rw [List.length_range] at hle
  omega

/-- While live slot `i` is still to be seated, the slots before it leave a bucket for it. -/
theorem SeatedOn.exists_seat {c : BoundedCache κ ν} {i : Nat} {e : Entry κ ν}
    (h : SeatedOn c (· < i)) (he : c.entry? i = some e)
    (hlive : c.liveSlots.length ≤ c.buckets.size) :
    ∃ pos, c.vacantBucket? e.key = some pos := by
  have hmem : i ∈ c.liveSlots.toFinset := List.mem_toFinset.mpr (mem_liveSlots.mpr ⟨e, he⟩)
  have htaken : ∀ j x, j < i → c.entry? j = some x → j ∈ c.liveSlots.toFinset.erase i := by
    intro j x hj hx
    refine Finset.mem_erase.mpr ⟨Nat.ne_of_lt hj, ?_⟩
    exact List.mem_toFinset.mpr (mem_liveSlots.mpr ⟨x, hx⟩)
  have hcard : (c.liveSlots.toFinset.erase i).card < c.buckets.size := by
    have hlt := Finset.card_erase_lt_of_mem hmem
    rw [List.toFinset_card_of_nodup (nodup_liveSlots c)] at hlt
    omega
  exact exists_vacantBucket?_of_vacant (h.exists_vacant_of_card htaken hcard) e.key

/-! ## What changes -/

/-- An entry without its seat. -/
def unseated (e : Entry κ ν) : Entry κ ν := { e with bucket := 0 }

/-- `d` differs from `c` at most in the buckets and in the buckets that entries name. -/
structure Reseated (c d : BoundedCache κ ν) : Prop where
  rest : { d with buckets := c.buckets, slots := c.slots, tombstones := c.tombstones } = c
  bucketCount : d.buckets.size = c.buckets.size
  size : d.slots.size = c.slots.size
  free : ∀ i, d.free? i = c.free? i
  entry : ∀ i, (d.entry? i).map unseated = (c.entry? i).map unseated

theorem Reseated.refl (c : BoundedCache κ ν) : Reseated c c :=
  ⟨rfl, rfl, rfl, fun _ => rfl, fun _ => rfl⟩

theorem Reseated.trans {c d e : BoundedCache κ ν} (h : Reseated c d) (h' : Reseated d e) :
    Reseated c e where
  rest := by
    have hd := congrArg (fun x : BoundedCache κ ν =>
      { x with buckets := c.buckets, slots := c.slots, tombstones := c.tombstones }) h'.rest
    exact hd.trans h.rest
  bucketCount := h'.bucketCount.trans h.bucketCount
  size := h'.size.trans h.size
  free i := (h'.free i).trans (h.free i)
  entry i := (h'.entry i).trans (h.entry i)

theorem Reseated.liveSlots {c d : BoundedCache κ ν} (h : Reseated c d) :
    d.liveSlots = c.liveSlots := by
  unfold BoundedCache.liveSlots
  rw [h.size]
  refine List.filter_congr fun i _ => ?_
  have hsome := congrArg Option.isSome (h.entry i)
  simpa using hsome

/-- The key of an entry survives a change of seats. -/
theorem Reseated.key {c d : BoundedCache κ ν} (h : Reseated c d) {i : Nat} {e : Entry κ ν}
    (he : d.entry? i = some e) : ∃ e', c.entry? i = some e' ∧ e'.key = e.key := by
  have hentry := h.entry i
  rw [he] at hentry
  obtain ⟨e', he', heq⟩ := Option.map_eq_some_iff.mp hentry.symm
  have hkey : (unseated e').key = (unseated e).key := by rw [heq]
  exact ⟨e', he', hkey⟩

theorem Reseated.distinct {c d : BoundedCache κ ν} (h : Reseated c d) (hc : DistinctKeys c) :
    DistinctKeys d := by
  intro i j e e' he he' hkey
  obtain ⟨x, hx, hxkey⟩ := h.key he
  obtain ⟨y, hy, hykey⟩ := h.key he'
  exact hc i j x y hx hy (by rw [hxkey, hykey, hkey])

theorem reseated_reseat (c : BoundedCache κ ν) (i : Nat) (key : κ) :
    Reseated c (c.reseat i key) := by
  unfold reseat
  split
  · rename_i pos _
    refine ⟨rfl, Array.size_setIfInBounds, size_modifyEntry _ i _, ?_, ?_⟩
    · intro j
      rw [free?_modifyEntry]
      rfl
    · intro j
      rw [entry?_modifyEntry]
      split
      · rw [Option.map_map]
        rfl
      · rfl
  · exact .refl c

theorem reseated_reseatFrom (c : BoundedCache κ ν) (n i : Nat) :
    Reseated c (c.reseatFrom n i) := by
  induction n generalizing c i with
  | zero => exact .refl c
  | succ n ih =>
    unfold reseatFrom
    split
    · exact (reseated_reseat c i _).trans (ih _ _)
    · exact ih c _

theorem reseated_rebuild (c : BoundedCache κ ν) : Reseated c c.rebuild := by
  have hcleared : Reseated c
      { c with buckets := .replicate c.buckets.size .empty, tombstones := 0 } :=
    ⟨rfl, Array.size_replicate, rfl, fun _ => rfl, fun _ => rfl⟩
  exact hcleared.trans (reseated_reseatFrom _ _ _)

theorem reseated_sweep (c : BoundedCache κ ν) : Reseated c c.sweep := by
  unfold sweep
  split
  · exact reseated_rebuild c
  · exact .refl c

/-! ## Seating slots again -/

/-- Seating one more slot in a bucket that leads nowhere. -/
theorem SeatedOn.reseat_of_vacant {c : BoundedCache κ ν} {i pos : Nat} {e : Entry κ ν}
    (h : SeatedOn c (· < i)) (he : c.entry? i = some e) (hpos : c.vacantBucket? e.key = some pos) :
    SeatedOn (c.reseat i e.key) (· < i + 1) := by
  obtain ⟨hreach, hvacant⟩ := vacantBucket?_eq_some hpos
  have hentry : BoundedCache.entry? (c.reseat i e.key) i = some { e with bucket := pos } := by
    unfold BoundedCache.reseat
    rw [hpos]
    exact entry?_modifyEntry_self _ he
  have hothers : ∀ j, j ≠ i → BoundedCache.entry? (c.reseat i e.key) j = c.entry? j := by
    intro j hj
    unfold BoundedCache.reseat
    rw [hpos]
    exact entry?_modifyEntry_ne _ _ hj
  have hseated : SeatedOn (c.reseat i e.key) fun j => j < i ∨ j = i := by
    refine h.occupy (Nat.lt_irrefl i) hreach hvacant ?_ ?_ hentry ?_
    · unfold BoundedCache.reseat
      rw [hpos]
      rfl
    · unfold BoundedCache.reseat
      rw [hpos]
      rfl
    · intro j hj
      rw [hothers j hj]
  exact hseated.imp fun j x _ => by omega

theorem SeatedOn.reseat {c : BoundedCache κ ν} {i : Nat} {e : Entry κ ν}
    (h : SeatedOn c (· < i)) (he : c.entry? i = some e)
    (hlive : c.liveSlots.length ≤ c.buckets.size) :
    SeatedOn (c.reseat i e.key) (· < i + 1) := by
  obtain ⟨pos, hpos⟩ := h.exists_seat he hlive
  exact h.reseat_of_vacant he hpos

/-- A free slot needs no seat. -/
theorem SeatedOn.pass {c : BoundedCache κ ν} {i : Nat} (h : SeatedOn c (· < i))
    (hnone : c.entry? i = none) : SeatedOn c (· < i + 1) := by
  refine h.imp fun j x hx => ?_
  have hj : j ≠ i := by
    rintro rfl
    rw [hnone] at hx
    cases hx
  omega

/-- Seating slots one after the other. -/
theorem SeatedOn.reseatFrom {c : BoundedCache κ ν} {n i : Nat} (h : SeatedOn c (· < i))
    (hlive : c.liveSlots.length ≤ c.buckets.size) :
    SeatedOn (c.reseatFrom n i) (· < i + n) := by
  induction n generalizing c i with
  | zero => exact h
  | succ n ih =>
    have hcount : i + (n + 1) = i + 1 + n := by omega
    unfold BoundedCache.reseatFrom
    rw [hcount]
    split
    · rename_i e he
      have hre := reseated_reseat c i e.key
      exact ih (h.reseat he hlive) (by rw [hre.liveSlots, hre.bucketCount]; exact hlive)
    · rename_i hnone
      exact ih (h.pass hnone) hlive

/-- With all buckets emptied nothing is seated yet. -/
theorem seatedOn_cleared (c : BoundedCache κ ν) : SeatedOn
    { c with buckets := .replicate c.buckets.size .empty, tombstones := 0 } (· < 0) := by
  refine ⟨?_, ?_, ?_⟩
  · intro pos i hpos
    rw [Array.getElem?_replicate] at hpos
    split at hpos <;> cases hpos
  · intro i e hi
    omega
  · intro i e hi
    omega

/-- Filling all buckets anew seats every live slot, if there are as many buckets. -/
theorem seated_rebuild {c : BoundedCache κ ν} (hdistinct : DistinctKeys c)
    (hlive : c.liveSlots.length ≤ c.buckets.size) : Seated c.rebuild := by
  have hre := reseated_rebuild c
  refine ⟨?_, hre.distinct hdistinct⟩
  have hall := (seatedOn_cleared c).reseatFrom (n := c.slots.size)
    (by rw [Array.size_replicate]; exact hlive)
  refine SeatedOn.imp (P := (· < 0 + c.slots.size)) hall ?_
  intro i e he
  have hlt := lt_of_entry he
  rw [hre.size] at hlt
  exact ⟨fun _ => trivial, fun _ => by omega⟩

end VersionChain.BoundedCache
