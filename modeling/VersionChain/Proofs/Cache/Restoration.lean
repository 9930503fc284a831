import VersionChain.Proofs.Cache.Representation

/-!
# What is left when all buckets have been filled anew

Filling all buckets anew is two loops, one inside the other: a pass over all slots, and for each
live one a search for an empty bucket that goes around the array until there is one. The search
has no bound of its own. It ends because the live slots are seated in distinct buckets: so there
are at most as many of them as buckets, and while one is still to be seated, the slots seated
before it leave a bucket empty.

None of this asks how many tombstones there are, how many buckets there are for the capacity,
or how slots are linked: it is enough that live slots are seated.

* `Searches`, `Seats` — the two loops;
* `Seated.liveSlots_le` — at most as many live slots as buckets;
* `SeatedOn.seats` — the pass ends;
* `rebuild_restores` — nothing but the buckets has changed, and every key is found where it was.
-/

namespace VersionChain.BoundedCache

variable {κ ν : Type}

/-! ## The two loops -/

/-- The search for an empty bucket goes from `pos` on around the array and ends at `found`. -/
inductive Searches (c : BoundedCache κ ν) : (pos found : Nat) → Prop
  | here {pos : Nat} (h : c.buckets[pos]? = some .empty) : Searches c pos pos
  | on {pos found : Nat} {b : Bucket} (h : c.buckets[pos]? = some b) (hb : b ≠ .empty)
      (rest : Searches c (c.bucketAfter pos) found) : Searches c pos found

/-- Leads the live slot `i` from bucket `pos`. -/
def lead (c : BoundedCache κ ν) (i pos : Nat) : BoundedCache κ ν :=
  { c with buckets := c.buckets.setIfInBounds pos (.occupied i) }.modifyEntry i
    ({ · with bucket := pos })

/-- The pass over the slots from slot `i` on ends in `d`. A free slot is passed over; a live one
takes the empty bucket to which the search from the home of its key comes. -/
inductive Seats : (c : BoundedCache κ ν) → (i : Nat) → (d : BoundedCache κ ν) → Prop
  | over {c : BoundedCache κ ν} {i : Nat} (h : c.slots.size ≤ i) : Seats c i c
  | free {c d : BoundedCache κ ν} {i : Nat} {next : Option Nat} (h : c.free? i = some next)
      (rest : Seats c (i + 1) d) : Seats c i d
  | live {c d : BoundedCache κ ν} {i pos : Nat} {e : Entry κ ν} (h : c.entry? i = some e)
      (search : c.Searches (c.home e.key) pos) (rest : Seats (c.lead i pos) (i + 1) d) :
      Seats c i d

/-- Among buckets without tombstones the first one that leads nowhere is empty. -/
theorem searches_of_probeVacant {c : BoundedCache κ ν} (hclean : Bucket.tombstone ∉ c.buckets)
    {steps pos found : Nat} (h : c.probeVacant steps pos = some found) :
    c.Searches pos found := by
  induction steps generalizing pos with
  | zero => cases h
  | succ steps ih =>
    rw [probeVacant] at h
    cases hb : c.buckets[pos]? with
    | none => simp [hb] at h
    | some b =>
      cases b with
      | empty =>
        simp only [hb, Option.some.injEq] at h
        exact h ▸ .here hb
      | tombstone => exact absurd (Array.mem_of_getElem? hb) hclean
      | occupied slot =>
        simp only [hb] at h
        exact .on hb (by simp) (ih h)

theorem searches_of_vacantBucket? {c : BoundedCache κ ν} (hclean : Bucket.tombstone ∉ c.buckets)
    {key : κ} {pos : Nat} (h : c.vacantBucket? key = some pos) : c.Searches (c.home key) pos :=
  searches_of_probeVacant hclean h

theorem reseat_eq_lead {c : BoundedCache κ ν} {key : κ} {pos : Nat}
    (h : c.vacantBucket? key = some pos) (i : Nat) : c.reseat i key = c.lead i pos := by
  rw [reseat, h, lead]

/-! ## There is always an empty bucket -/

/-- Distinct live slots are seated in distinct buckets. -/
theorem Seated.liveSlots_le {c : BoundedCache κ ν} (h : Seated c) :
    c.liveSlots.length ≤ c.buckets.size := by
  have hsubset : c.liveSlots ⊆ c.buckets.toList.filterMap Bucket.slot? := by
    intro i hi
    obtain ⟨e, he⟩ := mem_liveSlots.mp hi
    have hseat := Array.mem_of_getElem? (h.on.seat i e trivial he)
    exact List.mem_filterMap.mpr ⟨_, Array.mem_toList_iff.mpr hseat, rfl⟩
  calc c.liveSlots.length
      ≤ (c.buckets.toList.filterMap Bucket.slot?).length :=
        ((nodup_liveSlots c).subperm hsubset).length_le
    _ ≤ c.buckets.toList.length := List.length_filterMap_le _ _
    _ = c.buckets.size := Array.length_toList

/-! ## The pass over the slots -/

/-- The pass from slot `i` on ends. -/
theorem SeatedOn.seats {c : BoundedCache κ ν} {n i : Nat} (h : SeatedOn c (· < i))
    (hn : i + n = c.slots.size) (hlive : c.liveSlots.length ≤ c.buckets.size)
    (hcount : c.buckets.count .tombstone = 0) (htombstones : c.tombstones = 0) :
    Seats c i (c.reseatFrom n i) := by
  induction n generalizing c i with
  | zero =>
    obtain rfl : i = c.slots.size := hn
    exact .over (Nat.le_refl _)
  | succ n ih =>
    rw [BoundedCache.reseatFrom]
    cases he : c.entry? i with
    | some e =>
      have hre := reseated_reseat c i e.key
      obtain ⟨pos, hpos⟩ := h.exists_seat he hlive
      obtain ⟨hcount', htombstones'⟩ := no_tombstones_reseat hcount htombstones i e.key
      have hrest := ih (h.reseat he hlive) (by rw [hre.size]; omega)
        (by rw [hre.liveSlots, hre.bucketCount]; exact hlive) hcount' htombstones'
      have hsearch := searches_of_vacantBucket? (Array.count_eq_zero.mp hcount) hpos
      refine .live he hsearch ?_
      rw [← reseat_eq_lead hpos]
      exact hrest
    | none =>
      have hrest := ih (h.pass he) (by omega) hlive hcount htombstones
      -- a slot that is not live is free
      have hfree := c.live_or_free (show i < c.slots.size by omega)
      rw [he] at hfree
      obtain ⟨next, hnext⟩ := Option.isSome_iff_exists.mp (hfree.resolve_left (by simp))
      exact .free hnext hrest

/-! ## What has changed -/

/-- The cache `d` is what becomes of `c` when all its buckets are filled anew. -/
structure Restored [DecidableEq κ] (c d : BoundedCache κ ν) : Prop where
  /-- With all buckets emptied, the pass over the slots ends in `d`. -/
  ends : Seats { c with buckets := .replicate c.buckets.size .empty, tombstones := 0 } 0 d
  tombstones : d.tombstones = 0 ∧ Bucket.tombstone ∉ d.buckets
  /-- Slots keep their numbers, keys, values and links, and all the rest stays. -/
  kept : Reseated c d
  leadsBack : ∀ i e, d.entry? i = some e → d.buckets[e.bucket]? = some (.occupied i)
  /-- A bucket that is not the seat of a live slot is empty. -/
  otherwise : ∀ pos < d.buckets.size, d.buckets[pos]? = some .empty ∨
    ∃ i e, d.buckets[pos]? = some (.occupied i) ∧ d.entry? i = some e ∧ e.bucket = pos
  find : ∀ key, d.find? key = c.find? key

/-- Every bucket that is neither empty nor a tombstone is the seat of a live slot. -/
theorem Seated.bucket_cases {c : BoundedCache κ ν} (h : Seated c)
    (hclean : Bucket.tombstone ∉ c.buckets) {pos : Nat} (hpos : pos < c.buckets.size) :
    c.buckets[pos]? = some .empty ∨
      ∃ i e, c.buckets[pos]? = some (.occupied i) ∧ c.entry? i = some e ∧ e.bucket = pos := by
  have hbucket : c.buckets[pos]? = some c.buckets[pos] := Array.getElem?_eq_getElem hpos
  cases hb : c.buckets[pos] with
  | empty => exact .inl (by rw [hbucket, hb])
  | tombstone => exact absurd (hb ▸ Array.getElem_mem hpos) hclean
  | occupied i =>
    rw [hb] at hbucket
    obtain ⟨-, e, he, hseat⟩ := h.on.occupied pos i hbucket
    exact .inr ⟨i, e, hbucket, he, hseat⟩

/-- A live slot is seated in some bucket, and freeing it takes no bucket away. -/
theorem Seated.buckets_vacate_pos {c : BoundedCache κ ν} (h : Seated c) {i : Nat} {e : Entry κ ν}
    (he : c.entry? i = some e) : 0 < (c.vacate i e).buckets.size := by
  have hlt := (Array.getElem?_eq_some_iff.mp (h.on.seat i e trivial he)).1
  have hbuckets : (c.unlink i).buckets = c.buckets :=
    (congrArg BoundedCache.buckets (relinked_unlink c i).rest :)
  show 0 < ((c.unlink i).buckets.setIfInBounds e.bucket .tombstone).size
  rw [Array.size_setIfInBounds, hbuckets]
  omega

variable [DecidableEq κ]

/-- Where the same slots hold the same keys, the same are found. -/
theorem Reseated.find?_eq {c d : BoundedCache κ ν} (h : Reseated c d) (hc : Seated c)
    (hd : Seated d) (key : κ) : d.find? key = c.find? key := by
  have hkey : ∀ i, (d.entry? i).map Entry.key = (c.entry? i).map Entry.key := fun i =>
    h.map_entry i Entry.key
  ext i
  rw [hd.find?_eq_some_iff, hc.find?_eq_some_iff, ← Option.map_eq_some_iff, hkey i,
    Option.map_eq_some_iff]

theorem Seated.restored {c : BoundedCache κ ν} (h : Seated c) : Restored c c.rebuild := by
  have hre := reseated_rebuild c
  have hcount : (Array.replicate c.buckets.size Bucket.empty).count .tombstone = 0 := by
    rw [Array.count_replicate]
    rfl
  have hends := (seatedOn_cleared c).seats (Nat.zero_add c.slots.size)
    (by rw [Array.size_replicate]; exact h.liveSlots_le) hcount rfl
  obtain ⟨hclean, hzero⟩ := no_tombstones_reseatFrom
    (c := { c with buckets := .replicate c.buckets.size .empty, tombstones := 0 })
    hcount rfl c.slots.size 0
  have hclean : Bucket.tombstone ∉ c.rebuild.buckets := Array.count_eq_zero.mp hclean
  have hseated : Seated c.rebuild := seated_rebuild h.distinct h.liveSlots_le
  exact {
    ends := hends
    tombstones := ⟨hzero, hclean⟩
    kept := hre
    leadsBack := fun i e he => hseated.on.seat i e trivial he
    otherwise := fun pos hpos => hseated.bucket_cases hclean hpos
    find := hre.find?_eq h hseated }

/-- Where buckets, slots, links and counts fit together, live slots are seated. -/
theorem Represents.isSeated {c : BoundedCache κ ν} (h : Represents c) : Seated c where
  on := {
    occupied := fun pos i hpos => ⟨trivial, h.leadsBack pos i hpos⟩
    seat := fun i e _ he => (h.seated i e he).1
    reach := fun i e _ he => (h.seated i e he).2 }
  distinct := h.distinct

/-- Whatever the hash function and however many tombstones there are, all buckets of a cache with
seated slots can be filled anew: every search for an empty bucket ends, no tombstone is left, live
slots keep their numbers, values and links and are led back to, every key is found where it was,
and the other buckets are empty. So it is when a slot has just been freed, which is when it is
done. -/
theorem rebuild_restores {c : BoundedCache κ ν} (h : Seated c) :
    Restored c c.rebuild ∧
    ∀ i e, c.entry? i = some e →
      c.removeSlot i = (some e.pair, (c.vacate i e).sweep) ∧
      0 < (c.vacate i e).buckets.size ∧
      Restored (c.vacate i e) (c.vacate i e).rebuild := by
  refine ⟨h.restored, ?_⟩
  intro i e he
  exact ⟨removeSlot_eq he, h.buckets_vacate_pos he, (h.vacate he).restored⟩

/-- Four keys with the same home, of which the first two have been removed. -/
def collided : BoundedCache Nat Nat :=
  (new (fun _ => 0) 4).after
    [.insert 1 10, .insert 2 20, .insert 3 30, .insert 4 40, .remove 1, .remove 2]

theorem collided_represents : Represents collided := by
  obtain ⟨⟨order, vacant, hvalid⟩, htallied⟩ := invariant_after
    (wellFormed_new (fun _ => 0) 4) (tallied_new (fun _ => 0) 4)
    [.insert 1 10, .insert 2 20, .insert 3 30, .insert 4 40, .remove 1, .remove 2]
  exact hvalid.represents htallied

/-- The third removal leaves three tombstones in eight buckets, which are then filled anew. -/
theorem rebuild_restores_third_tombstone :
    Seated collided ∧
      collided.entry? 2 = some ⟨3, 30, 2, none, some 3⟩ ∧
      collided.removeSlot 2 =
        (some (3, 30), (collided.vacate 2 ⟨3, 30, 2, none, some 3⟩).rebuild) ∧
      Restored (collided.vacate 2 ⟨3, 30, 2, none, some 3⟩)
        (collided.vacate 2 ⟨3, 30, 2, none, some 3⟩).rebuild := by
  have hseated := collided_represents.isSeated
  have he : collided.entry? 2 = some ⟨3, 30, 2, none, some 3⟩ := by decide +kernel
  obtain ⟨hremoved, -, hrestored⟩ := (rebuild_restores hseated).2 2 _ he
  have hmany : (collided.vacate 2 ⟨3, 30, 2, none, some 3⟩).buckets.size / 4 <
      (collided.vacate 2 ⟨3, 30, 2, none, some 3⟩).tombstones := by decide +kernel
  rw [sweep, if_pos hmany] at hremoved
  exact ⟨hseated, he, hremoved, hrestored⟩

end VersionChain.BoundedCache
