import VersionChain.Proofs.Cache.Accesses

/-!
# The representation of a bounded cache

What holds of buckets, slots, links and counts in every state that a cache can come to, whatever
the hash function: everything is counted right, buckets and live slots point at each other, the
search for a key comes to an end at the key or at an empty bucket, and nothing breaks off.

* `Represents` — the state of affairs, in terms of the arrays;
* `WellFormed.represents` — it is what the invariants of the operations amount to;
* `run_represents` — after every run of commands from a new cache.
-/

namespace VersionChain

/-- The slot that a bucket leads to. -/
def Bucket.slot? : Bucket → Option Nat
  | occupied slot => some slot
  | _ => none

theorem Bucket.slot?_eq_some {b : Bucket} {i : Nat} : b.slot? = some i ↔ b = .occupied i := by
  cases b <;> simp [Bucket.slot?]

namespace BoundedCache

variable {κ ν : Type}

/-- The slots on the list from the least recently used one. -/
def onList (c : BoundedCache κ ν) : List Nat := c.inOrder.map (·.1)

/-- The search for a key goes on behind its `d`-th bucket: a tombstone, or another key. -/
def PassedOver (c : BoundedCache κ ν) (key : κ) (d : Nat) : Prop :=
  c.buckets[c.place key d]? = some .tombstone ∨
    ∃ i e, c.buckets[c.place key d]? = some (.occupied i) ∧ c.entry? i = some e ∧ e.key ≠ key

/-- The search for a key stops at its `d`-th bucket and gives `found`: nothing at an empty bucket,
the slot at the key. -/
def StopsAt (c : BoundedCache κ ν) (key : κ) (d : Nat) (found : Option Nat) : Prop :=
  (c.buckets[c.place key d]? = some .empty ∧ found = none) ∨
    ∃ i e, c.buckets[c.place key d]? = some (.occupied i) ∧ c.entry? i = some e ∧ e.key = key ∧
      found = some i

/-- The search for a key stops, before it has been all around. -/
def Stops [DecidableEq κ] (c : BoundedCache κ ν) (key : κ) : Prop :=
  ∃ d < c.buckets.size, (∀ d' < d, c.PassedOver key d') ∧ c.StopsAt key d (c.find? key)

/-- Buckets, slots, links and counts of a cache fit together. -/
structure Represents [DecidableEq κ] (c : BoundedCache κ ν) : Prop where
  occupied : c.buckets.countP (·.slot?.isSome) = c.len
  live : c.liveSlots.length = c.len
  onList : c.onList.length = c.len
  bounded : c.len ≤ c.capacity
  /-- An occupied bucket leads to a live slot that leads back to it. -/
  leadsBack : ∀ pos i, c.buckets[pos]? = some (.occupied i) →
    ∃ e, c.entry? i = some e ∧ e.bucket = pos
  distinct : DistinctKeys c
  /-- A live slot is found in its bucket, with no empty bucket on the way from the home of its
  key. -/
  seated : ∀ i e, c.entry? i = some e →
    c.buckets[e.bucket]? = some (.occupied i) ∧ c.Reaches e.key e.bucket
  linked : Linked c c.onList
  onList_iff : ∀ i, i ∈ c.onList ↔ (c.entry? i).isSome
  free : ∃ vacant, FreeChain c c.freeHead vacant ∧ vacant.Nodup ∧
    ∀ i, i ∈ vacant ↔ (c.free? i).isSome
  tombstones : c.buckets.count .tombstone = c.tombstones
  quarter : 4 * c.tombstones ≤ c.buckets.size
  quarterEmpty : c.buckets.size ≤ 4 * c.buckets.count .empty
  /-- Without capacity there are no buckets to search. -/
  stops : ∀ key, c.capacity = 0 ∨ c.Stops key

/-! ## Counting -/

theorem Linked.onList_eq {c : BoundedCache κ ν} {order : List Nat} (h : Linked c order) :
    c.onList = order := by
  unfold onList
  rw [h.inOrder_eq, List.map_filterMap]
  have hall : ∀ i ∈ order, ((c.entry? i).map (i, ·)).map (·.1) = some i := by
    intro i hi
    obtain ⟨e, he⟩ := h.live hi
    rw [he]
    rfl
  rw [List.filterMap_congr hall]
  exact List.filterMap_some

/-- The live slots are those in the order of use. -/
theorem Valid.liveSlots_perm {c : BoundedCache κ ν} {order vacant : List Nat}
    (h : Valid c order vacant) : c.liveSlots.Perm order := by
  refine (List.perm_ext_iff_of_nodup (List.nodup_range.filter _) h.linked.nodup).mpr fun i => ?_
  simp only [List.mem_filter, List.mem_range, Option.isSome_iff_exists]
  constructor
  · rintro ⟨-, e, he⟩
    exact h.live i e he
  · intro hi
    obtain ⟨e, he⟩ := h.linked.live hi
    exact ⟨lt_of_entry he, e, he⟩

/-- The occupied buckets lead to the slots in the order of use, each to another one. -/
theorem Valid.occupants_perm {c : BoundedCache κ ν} {order vacant : List Nat}
    (h : Valid c order vacant) : (c.buckets.toList.filterMap Bucket.slot?).Perm order := by
  have hnodup : (c.buckets.toList.filterMap Bucket.slot?).Nodup := by
    unfold List.Nodup
    rw [List.pairwise_filterMap, List.pairwise_iff_getElem]
    intro p q hp hq hlt i hi j hj heq
    subst heq
    rw [Bucket.slot?_eq_some] at hi hj
    have hleft : c.buckets[p]? = some (.occupied i) := by
      rw [← Array.getElem?_toList, List.getElem?_eq_getElem hp, hi]
    have hright : c.buckets[q]? = some (.occupied i) := by
      rw [← Array.getElem?_toList, List.getElem?_eq_getElem hq, hj]
    -- the slot leads back to both buckets
    obtain ⟨-, e, he, hbucket⟩ := h.seated.on.occupied p i hleft
    obtain ⟨-, e', he', hbucket'⟩ := h.seated.on.occupied q i hright
    rw [he] at he'
    cases he'
    omega
  refine (List.perm_ext_iff_of_nodup hnodup h.linked.nodup).mpr fun i => ?_
  simp only [List.mem_filterMap, Bucket.slot?_eq_some, exists_eq_right, Array.mem_toList_iff]
  constructor
  · intro hmem
    obtain ⟨pos, hpos⟩ := Array.mem_iff_getElem?.mp hmem
    obtain ⟨-, e, he, -⟩ := h.seated.on.occupied pos i hpos
    exact h.live i e he
  · intro hi
    obtain ⟨e, he⟩ := h.linked.live hi
    exact Array.mem_of_getElem? (h.seated.on.seat i e trivial he)

theorem Valid.countP_occupied {c : BoundedCache κ ν} {order vacant : List Nat}
    (h : Valid c order vacant) : c.buckets.countP (·.slot?.isSome) = c.len := by
  rw [h.len, ← h.occupants_perm.length_eq, List.length_filterMap_eq_countP, Array.countP_toList]

/-- Every bucket is empty, a tombstone or occupied. -/
theorem size_eq_counts (buckets : Array Bucket) :
    buckets.size = buckets.count .empty + buckets.count .tombstone +
      buckets.countP (·.slot?.isSome) := by
  rw [← Array.length_toList, ← Array.count_toList, ← Array.count_toList, ← Array.countP_toList]
  induction buckets.toList with
  | nil => rfl
  | cons b rest ih =>
    rw [List.length_cons, ih]
    cases b <;> simp [Bucket.slot?] <;> omega

theorem le_bucketCount (capacity : Nat) : 2 * capacity ≤ bucketCount capacity := by
  unfold bucketCount
  split
  · omega
  · have := le_doubledUpTo (2 * capacity) 1 Nat.one_pos
    omega

/-- Half of the buckets are enough for the entries and a quarter for the tombstones. -/
theorem Valid.quarterEmpty {c : BoundedCache κ ν} {order vacant : List Nat}
    (h : Valid c order vacant) (htallied : Tallied c) :
    c.buckets.size ≤ 4 * c.buckets.count .empty := by
  have hsize := size_eq_counts c.buckets
  have hhalf := le_bucketCount c.capacity
  have hlen : c.len ≤ c.capacity := h.len ▸ h.len_le
  have hquarter := htallied.quarter
  rw [htallied.count, h.countP_occupied] at hsize
  rw [← h.buckets] at hhalf
  omega

/-! ## The search -/

variable [DecidableEq κ]

/-- A search of `steps` buckets with an empty one among them stops. -/
theorem Seated.probe_stops {c : BoundedCache κ ν} (h : Seated c) {key : κ} {steps start : Nat}
    (hempty : ∃ d, start ≤ d ∧ d < start + steps ∧ c.buckets[c.place key d]? = some .empty) :
    ∃ d, start ≤ d ∧ d < start + steps ∧ (∀ d', start ≤ d' → d' < d → c.PassedOver key d') ∧
      c.StopsAt key d (c.probe key steps (c.place key start)) := by
  induction steps generalizing start with
  | zero =>
    obtain ⟨d, hle, hlt, -⟩ := hempty
    omega
  | succ steps ih =>
    obtain ⟨d, hle, hlt, hd⟩ := hempty
    by_cases hpassed : c.PassedOver key start
    · -- the search goes on, and the empty bucket is further on
      have hne : d ≠ start := by
        rintro rfl
        rcases hpassed with htombstone | ⟨i, e, hoccupied, -⟩
        · rw [hd] at htombstone
          cases htombstone
        · rw [hd] at hoccupied
          cases hoccupied
      have hprobe : c.probe key (steps + 1) (c.place key start) =
          c.probe key steps (c.place key (start + 1)) := by
        rcases hpassed with htombstone | ⟨i, e, hoccupied, he, hkey⟩
        · simp only [probe, htombstone, bucketAfter_place]
        · simp only [probe, hoccupied, he, Option.any_some, decide_eq_true_eq, hkey, if_false,
            bucketAfter_place]
      obtain ⟨r, hle', hlt', hway, hstop⟩ := @ih (start + 1) ⟨d, by omega, by omega, hd⟩
      refine ⟨r, by omega, by omega, fun d' hstart hd' => ?_, ?_⟩
      · by_cases heq : d' = start
        · rw [heq]
          exact hpassed
        · exact hway d' (by omega) hd'
      · rw [hprobe]
        exact hstop
    · refine ⟨start, Nat.le_refl _, by omega, fun d' hstart hd' => by omega, ?_⟩
      have hsize : 0 < c.buckets.size := by
        have := (Array.getElem?_eq_some_iff.mp hd).1
        omega
      cases hb : c.buckets[c.place key start]? with
      | none =>
        have hplace := place_lt c key start hsize
        exact absurd (Array.getElem?_eq_none_iff.mp hb) (by omega)
      | some b =>
        cases b with
        | empty =>
          refine .inl ⟨hb, ?_⟩
          simp only [probe, hb]
        | tombstone => exact absurd (.inl hb) hpassed
        | occupied i =>
          obtain ⟨-, e, he, -⟩ := h.on.occupied _ i hb
          have hkey : e.key = key := by
            by_contra hkey
            exact hpassed (.inr ⟨i, e, hb, he, hkey⟩)
          refine .inr ⟨i, e, hb, he, hkey, ?_⟩
          simp only [probe, hb, he, Option.any_some, decide_eq_true_eq, hkey, if_true]

theorem Valid.stops {c : BoundedCache κ ν} {order vacant : List Nat} (h : Valid c order vacant)
    (htallied : Tallied c) (key : κ) : c.capacity = 0 ∨ c.Stops key := by
  rw [or_iff_not_imp_left]
  intro hcapacity
  have hsize : 0 < c.buckets.size :=
    Nat.lt_of_le_of_lt (Nat.zero_le _) (h.slots_lt_buckets (by omega))
  have hquarter := h.quarterEmpty htallied
  have hmem : Bucket.empty ∈ c.buckets := Array.count_pos_iff.mp (by omega)
  obtain ⟨pos, hpos⟩ := Array.mem_iff_getElem?.mp hmem
  obtain ⟨d, hd, rfl⟩ := exists_place_eq c key (Array.getElem?_eq_some_iff.mp hpos).1
  obtain ⟨r, -, hr, hway, hstop⟩ :=
    h.seated.probe_stops ⟨d, Nat.zero_le d, by rwa [Nat.zero_add], hpos⟩
  rw [place_zero] at hstop
  exact ⟨r, by omega, fun d' hd' => hway d' (Nat.zero_le _) hd', hstop⟩

/-! ## Every state -/

theorem Valid.represents {c : BoundedCache κ ν} {order vacant : List Nat}
    (h : Valid c order vacant) (htallied : Tallied c) : Represents c where
  occupied := h.countP_occupied
  live := by rw [h.liveSlots_perm.length_eq, h.len]
  onList := by rw [h.linked.onList_eq, h.len]
  bounded := h.len ▸ h.len_le
  leadsBack pos i hpos := (h.seated.on.occupied pos i hpos).2
  distinct := h.seated.distinct
  seated i e he := ⟨h.seated.on.seat i e trivial he, h.seated.on.reach i e trivial he⟩
  linked := by rw [h.linked.onList_eq]; exact h.linked
  onList_iff i := by
    rw [h.linked.onList_eq, Option.isSome_iff_exists]
    exact ⟨fun hi => h.linked.live hi, fun ⟨e, he⟩ => h.live i e he⟩
  free := by
    refine ⟨vacant, h.vacant.chain, h.vacant.nodup, fun i => ?_⟩
    rw [Option.isSome_iff_exists]
    exact ⟨fun hi => h.vacant.chain.free hi, fun ⟨next, hnext⟩ => h.vacant.mem i next hnext⟩
  tombstones := htallied.count
  quarter := htallied.quarter
  quarterEmpty := h.quarterEmpty htallied
  stops := h.stops htallied

/-- The cache after commands. -/
def after (c : BoundedCache κ ν) (commands : List (CacheCommand κ ν)) : BoundedCache κ ν :=
  commands.foldl (fun c command => (c.perform command).2) c

theorem invariant_after {c : BoundedCache κ ν} (h : WellFormed c) (htallied : Tallied c)
    (commands : List (CacheCommand κ ν)) :
    WellFormed (c.after commands) ∧ Tallied (c.after commands) := by
  induction commands generalizing c with
  | nil => exact ⟨h, htallied⟩
  | cons command rest ih => exact ih (h.perform command).wellFormed (htallied.perform h command)

omit [DecidableEq κ] in
theorem tallied_new (hash : κ → UInt64) (capacity : Nat) :
    Tallied (new (ν := ν) hash capacity) :=
  tallied_of_empty rfl rfl

/-- Whatever the hash function and the capacity, after every run of commands from a new cache
buckets, slots, links and counts fit together; listing the keys, and every command that may come
next, goes through without breaking off. -/
theorem represents_after (hash : κ → UInt64) (capacity : Nat)
    (commands : List (CacheCommand κ ν)) :
    Represents ((new hash capacity).after commands) ∧
    Guarded.inOrder ((new hash capacity).after commands) =
      some ((new hash capacity).after commands).inOrder ∧
    ∀ command, Guarded.perform ((new hash capacity).after commands) command =
      some (((new hash capacity).after commands).perform command) := by
  obtain ⟨hwell, htallied⟩ :=
    invariant_after (wellFormed_new hash capacity) (tallied_new hash capacity) commands
  obtain ⟨order, vacant, hvalid⟩ := id hwell
  exact ⟨hvalid.represents htallied, Guarded.inOrder_eq hvalid.linked,
    Guarded.perform_eq hwell htallied⟩

end BoundedCache

end VersionChain
