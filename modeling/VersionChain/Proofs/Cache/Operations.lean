import VersionChain.Proofs.Cache.Valid

/-!
# What the operations do to a well-formed cache

Every change of a bounded cache is one of four: a slot moves to the end of the order, a value
changes in place, a slot is freed, a free slot takes a new entry. Each of them keeps the cache
well-formed, and does to its pairs what one says it does.

* `Valid.moveToBack`, `Valid.setValue` — an entry that is used or overwritten;
* `Valid.removeSlot` — an entry that goes, with the buckets filled anew if need be;
* `Valid.enqueue` — an entry that comes.
-/

namespace VersionChain.BoundedCache

variable {κ ν : Type}

/-! ## Pairs of the slots -/

theorem mem_pairsAt {c : BoundedCache κ ν} {order : List Nat} {p : κ × ν} :
    p ∈ c.pairsAt order ↔ ∃ i ∈ order, ∃ e, c.entry? i = some e ∧ e.pair = p := by
  unfold pairsAt
  rw [List.mem_filterMap]
  simp only [Option.map_eq_some_iff]

/-- Choosing among the slots by their pairs is choosing among the pairs. -/
theorem pairsAt_filter {c : BoundedCache κ ν} {order : List Nat} {q : Nat → Bool}
    {r : κ × ν → Bool} (h : ∀ i ∈ order, ∀ e, c.entry? i = some e → q i = r e.pair) :
    c.pairsAt (order.filter q) = (c.pairsAt order).filter r := by
  unfold pairsAt
  rw [List.filterMap_filter, List.filter_filterMap]
  refine List.filterMap_congr fun i hi => ?_
  cases he : c.entry? i with
  | none => cases q i <;> rfl
  | some e =>
    rw [h i hi e he]
    cases hr : r e.pair <;> simp [Option.filter, hr]

theorem Linked.toLru_eq {c : BoundedCache κ ν} {order : List Nat} (h : Linked c order) :
    c.toLru = ⟨c.capacity, c.pairsAt order, c.hits, c.misses, c.evictions⟩ := by
  unfold toLru
  rw [h.toList_eq]

theorem Valid.length_pairs {c : BoundedCache κ ν} {order vacant : List Nat}
    (h : Valid c order vacant) : c.toLru.pairs.length = order.length := by
  rw [h.linked.toLru_eq]
  exact Linked.length_pairsAt fun i hi => h.linked.live hi

theorem filter_ne_split {front back : List Nat} {i : Nat} (h : (front ++ i :: back).Nodup) :
    (front ++ i :: back).filter (· ≠ i) = front ++ back := by
  rw [List.nodup_append, List.nodup_cons] at h
  obtain ⟨-, ⟨hback, -⟩, hfront⟩ := h
  rw [List.filter_append, List.filter_cons_of_neg (by simp)]
  congr 1
  · refine List.filter_eq_self.mpr fun j hj => ?_
    simpa using hfront j hj i (by simp)
  · refine List.filter_eq_self.mpr fun j hj => ?_
    have hne : j ≠ i := fun heq => hback (heq ▸ hj)
    simpa using hne

/-- The key of a live slot is in no other pair. -/
theorem Valid.key_eq_iff {c : BoundedCache κ ν} {order vacant : List Nat}
    (h : Valid c order vacant) {i j : Nat} {e x : Entry κ ν} (he : c.entry? i = some e)
    (hx : c.entry? j = some x) : x.key = e.key ↔ j = i := by
  constructor
  · exact h.seated.distinct j i x e hx he
  · rintro rfl
    rw [he] at hx
    cases hx
    rfl

/-! ## Nothing but links, nothing but values -/

theorem Relinked.map_entry {c d : BoundedCache κ ν} {α : Type} (h : Relinked c d) (i : Nat)
    (g : κ × ν × Nat → α) :
    (d.entry? i).map (fun e => g e.core) = (c.entry? i).map fun e => g e.core := by
  have hcore := congrArg (Option.map g) (h.core i)
  rwa [Option.map_map, Option.map_map] at hcore

theorem Relinked.seat {c d : BoundedCache κ ν} (h : Relinked c d) (i : Nat) :
    (d.entry? i).map Entry.seat = (c.entry? i).map Entry.seat :=
  h.map_entry i fun x => (x.1, x.2.2)

theorem Relinked.pair {c d : BoundedCache κ ν} (h : Relinked c d) (i : Nat) :
    (d.entry? i).map Entry.pair = (c.entry? i).map Entry.pair :=
  h.map_entry i fun x => (x.1, x.2.1)

theorem Relinked.toLru_eq {c d : BoundedCache κ ν} {order' : List Nat} (h : Relinked c d)
    (hd : Linked d order') :
    d.toLru = { c.toLru with pairs := c.pairsAt order' } := by
  have hrest := congrArg (fun x : BoundedCache κ ν =>
    (⟨x.capacity, c.pairsAt order', x.hits, x.misses, x.evictions⟩ : Lru κ ν)) h.rest
  rw [hd.toLru_eq, pairsAt_congr fun i _ => h.pair i]
  exact hrest

theorem Valid.relink {c d : BoundedCache κ ν} {order order' vacant : List Nat}
    (h : Valid c order vacant) (hre : Relinked c d) (hlinked : Linked d order')
    (hperm : order'.Perm order) : Valid d order' vacant where
  linked := hlinked
  live i e he := by
    obtain ⟨e', he', -⟩ := entry_of_seat (hre.seat i) he
    exact hperm.mem_iff.mpr (h.live i e' he')
  seated := h.seated.congr (congrArg BoundedCache.hash hre.rest :)
    (congrArg BoundedCache.buckets hre.rest :) hre.seat
  vacant := h.vacant.congr (congrArg BoundedCache.freeHead hre.rest :) hre.free
  len := by
    rw [hperm.length_eq, ← h.len]
    exact (congrArg BoundedCache.len hre.rest :)
  size := by
    have hcapacity : d.capacity = c.capacity := (congrArg BoundedCache.capacity hre.rest :)
    rw [hre.size, hcapacity]
    exact h.size
  buckets := by
    have hcapacity : d.capacity = c.capacity := (congrArg BoundedCache.capacity hre.rest :)
    have hbuckets : d.buckets = c.buckets := (congrArg BoundedCache.buckets hre.rest :)
    rw [hbuckets, hcapacity]
    exact h.buckets

theorem Valid.moveToBack {c : BoundedCache κ ν} {front back vacant : List Nat} {i : Nat}
    (h : Valid c (front ++ i :: back) vacant) :
    Valid (c.moveToBack i) (front ++ back ++ [i]) vacant := by
  refine h.relink (relinked_moveToBack c i) h.linked.moveToBack ?_
  rw [List.append_assoc]
  exact (List.perm_append_singleton i back).append_left front

/-- Values and counters are no part of what makes a cache well-formed. -/
theorem Valid.congr {c d : BoundedCache κ ν} {order vacant : List Nat} (h : Valid c order vacant)
    (hrest : { d with
      slots := c.slots, hits := c.hits, misses := c.misses, evictions := c.evictions } = c)
    (hsize : d.slots.size = c.slots.size) (hfree : ∀ i, d.free? i = c.free? i)
    (hlinks : ∀ i, (d.entry? i).map Entry.links = (c.entry? i).map Entry.links)
    (hseat : ∀ i, (d.entry? i).map Entry.seat = (c.entry? i).map Entry.seat) :
    Valid d order vacant where
  linked := h.linked.congr (fun i _ => hlinks i) (congrArg BoundedCache.head hrest :)
    (congrArg BoundedCache.tail hrest :)
  live i e he := by
    obtain ⟨e', he', -⟩ := entry_of_seat (hseat i) he
    exact h.live i e' he'
  seated := h.seated.congr (congrArg BoundedCache.hash hrest :)
    (congrArg BoundedCache.buckets hrest :) hseat
  vacant := h.vacant.congr (congrArg BoundedCache.freeHead hrest :) hfree
  len := by
    rw [← h.len]
    exact (congrArg BoundedCache.len hrest :)
  size := by
    have hcapacity : d.capacity = c.capacity := (congrArg BoundedCache.capacity hrest :)
    rw [hsize, hcapacity]
    exact h.size
  buckets := by
    have hcapacity : d.capacity = c.capacity := (congrArg BoundedCache.capacity hrest :)
    have hbuckets : d.buckets = c.buckets := (congrArg BoundedCache.buckets hrest :)
    rw [hbuckets, hcapacity]
    exact h.buckets

theorem Valid.count {c : BoundedCache κ ν} {order vacant : List Nat} (h : Valid c order vacant)
    (hits misses evictions : Nat) : Valid { c with hits, misses, evictions } order vacant :=
  h.congr rfl rfl (fun _ => rfl) (fun _ => rfl) fun _ => rfl

theorem Valid.toLru_count {c : BoundedCache κ ν} {order vacant : List Nat}
    (h : Valid c order vacant) (hits misses evictions : Nat) :
    toLru { c with hits, misses, evictions } = { c.toLru with hits, misses, evictions } := by
  rw [(h.count hits misses evictions).linked.toLru_eq, h.linked.toLru_eq]
  rfl

theorem Valid.setValue {c : BoundedCache κ ν} {order vacant : List Nat} (h : Valid c order vacant)
    (i : Nat) (f : Entry κ ν → ν) :
    Valid (c.modifyEntry i fun e => { e with value := f e }) order vacant := by
  refine h.congr rfl (size_modifyEntry c i _) (fun j => free?_modifyEntry c i j _) ?_ ?_
  all_goals
    intro j
    rw [entry?_modifyEntry]
    split
    · rw [Option.map_map]
      rfl
    · rfl

/-- The last pair after its value has changed. -/
theorem pairsAt_setValue {c : BoundedCache κ ν} {front : List Nat} {i : Nat} {e : Entry κ ν}
    (he : c.entry? i = some e) (hi : i ∉ front) (f : Entry κ ν → ν) :
    pairsAt (c.modifyEntry i fun e => { e with value := f e }) (front ++ [i]) =
      c.pairsAt front ++ [(e.key, f e)] := by
  rw [pairsAt_append]
  congr 1
  · refine pairsAt_congr fun j hj => ?_
    rw [entry?_modifyEntry_ne]
    exact fun heq => hi (heq ▸ hj)
  · exact pairsAt_cons (entry?_modifyEntry_self _ he) []

/-! ## Freeing a slot -/

/-- The cache after slot `i` with entry `e` was freed, before tombstones are swept. -/
def vacate (c : BoundedCache κ ν) (i : Nat) (e : Entry κ ν) : BoundedCache κ ν :=
  let u := c.unlink i
  { u with
    slots := u.slots.setIfInBounds i (.free u.freeHead)
    freeHead := some i
    len := u.len - 1
    buckets := u.buckets.setIfInBounds e.bucket .tombstone
    tombstones := u.tombstones + 1 }

theorem removeSlot_eq {c : BoundedCache κ ν} {i : Nat} {e : Entry κ ν} (he : c.entry? i = some e) :
    c.removeSlot i = (some e.pair, (c.vacate i e).sweep) := by
  unfold removeSlot
  rw [he]
  rfl

theorem entry?_vacate {c : BoundedCache κ ν} {i : Nat} {e : Entry κ ν} (he : c.entry? i = some e)
    (j : Nat) : BoundedCache.entry? (c.vacate i e) j =
      if j = i then none else BoundedCache.entry? (c.unlink i) j := by
  have hslots : (c.vacate i e).slots = (c.unlink i).slots.setIfInBounds i
    (.free (c.unlink i).freeHead) := rfl
  refine entry?_set hslots ?_ j
  rw [(relinked_unlink c i).size]
  exact lt_of_entry he

theorem free?_vacate {c : BoundedCache κ ν} {i : Nat} {e : Entry κ ν} (he : c.entry? i = some e)
    (j : Nat) : (c.vacate i e).free? j = if j = i then some c.freeHead else c.free? j := by
  have hre := relinked_unlink c i
  have hhead : (c.unlink i).freeHead = c.freeHead := (congrArg BoundedCache.freeHead hre.rest :)
  have hslots : (c.vacate i e).slots = (c.unlink i).slots.setIfInBounds i
    (.free (c.unlink i).freeHead) := rfl
  rw [← hre.free, ← hhead]
  refine free?_set hslots ?_ j
  rw [hre.size]
  exact lt_of_entry he

theorem pair_vacate {c : BoundedCache κ ν} {i : Nat} {e : Entry κ ν} (he : c.entry? i = some e)
    {j : Nat} (hj : j ≠ i) : (BoundedCache.entry? (c.vacate i e) j).map Entry.pair =
      (c.entry? j).map Entry.pair := by
  rw [entry?_vacate he, if_neg hj]
  exact (relinked_unlink c i).pair j

/-- Freeing a slot leaves the others seated. -/
theorem Seated.vacate {c : BoundedCache κ ν} {i : Nat} {e : Entry κ ν} (h : Seated c)
    (he : c.entry? i = some e) : Seated (c.vacate i e) := by
  have hre := relinked_unlink c i
  have hseated : Seated (c.unlink i) := h.congr (congrArg BoundedCache.hash hre.rest :)
    (congrArg BoundedCache.buckets hre.rest :) hre.seat
  obtain ⟨u, hu, -, -, hbucket⟩ := hre.entry he
  have hentry := entry?_vacate he
  refine ⟨hseated.on.leave trivial hu rfl ?_ ?_ ?_, ?_⟩
  · rw [hbucket]
    rfl
  · rw [hentry, if_pos rfl]
  · intro j hj
    rw [hentry, if_neg hj]
  · -- what is live afterwards was live before
    have hlive : ∀ {j x}, BoundedCache.entry? (c.vacate i e) j = some x →
        BoundedCache.entry? (c.unlink i) j = some x := by
      intro j x hx
      rw [hentry] at hx
      split at hx
      · cases hx
      · exact hx
    intro j k x y hx hy hkey
    exact hseated.distinct j k x y (hlive hx) (hlive hy) hkey

theorem Valid.vacant_vacate {c : BoundedCache κ ν} {order vacant : List Nat} {i : Nat}
    {e : Entry κ ν} (h : Valid c order vacant) (he : c.entry? i = some e) :
    Vacant (c.vacate i e) (i :: vacant) := by
  have hfree := free?_vacate he
  have hlive : ∀ {j next}, c.free? j = some next → j ≠ i := by
    rintro j next hj rfl
    rw [entry?_eq_none_of_free? hj] at he
    cases he
  have hi : i ∉ vacant := by
    intro hmem
    obtain ⟨next, hnext⟩ := h.vacant.chain.free hmem
    exact hlive hnext rfl
  refine ⟨⟨rfl, c.freeHead, by rw [hfree, if_pos rfl], ?_⟩, List.nodup_cons.mpr ⟨hi, h.vacant.nodup⟩,
    ?_⟩
  · refine h.vacant.chain.congr fun j hj => ?_
    have hne : j ≠ i := fun heq => hi (heq ▸ hj)
    rw [hfree, if_neg hne]
  · intro j next hj
    rw [hfree] at hj
    split at hj
    · rename_i heq
      exact heq ▸ List.mem_cons_self
    · exact List.mem_cons_of_mem i (h.vacant.mem j next hj)

theorem Valid.vacate {c : BoundedCache κ ν} {order vacant : List Nat} {i : Nat} {e : Entry κ ν}
    (h : Valid c order vacant) (he : c.entry? i = some e) :
    Valid (c.vacate i e) (order.filter (· ≠ i)) (i :: vacant) := by
  have hre := relinked_unlink c i
  have hcapacity : (c.unlink i).capacity = c.capacity :=
    (congrArg BoundedCache.capacity hre.rest :)
  have hbuckets : (c.unlink i).buckets = c.buckets := (congrArg BoundedCache.buckets hre.rest :)
  have hlen : (c.unlink i).len = c.len := (congrArg BoundedCache.len hre.rest :)
  have hentry := entry?_vacate he
  obtain ⟨front, back, rfl⟩ := List.append_of_mem (h.live i e he)
  rw [filter_ne_split h.linked.nodup]
  refine ⟨?_, ?_, h.seated.vacate he, h.vacant_vacate he, ?_, ?_, ?_⟩
  · refine h.linked.unlink.congr ?_ rfl rfl
    intro j hj
    have hne : j ≠ i := by
      rw [← filter_ne_split h.linked.nodup] at hj
      simpa using (List.mem_filter.mp hj).2
    rw [hentry, if_neg hne]
  · -- what is live afterwards was live before, and is not the slot that was freed
    intro j x hx
    rw [hentry] at hx
    split at hx
    · cases hx
    · rename_i hne
      obtain ⟨x', hx', -⟩ := entry_of_seat (hre.seat j) hx
      have hmem := h.live j x' hx'
      rw [← filter_ne_split h.linked.nodup]
      exact List.mem_filter.mpr ⟨hmem, by simpa using hne⟩
  · show (c.unlink i).len - 1 = _
    rw [hlen, h.len]
    simp
  · show ((c.unlink i).slots.setIfInBounds i _).size ≤ (c.unlink i).capacity
    rw [Array.size_setIfInBounds, hre.size, hcapacity]
    exact h.size
  · show ((c.unlink i).buckets.setIfInBounds e.bucket .tombstone).size = _
    rw [Array.size_setIfInBounds, hbuckets]
    show c.buckets.size = bucketCount (c.unlink i).capacity
    rw [hcapacity]
    exact h.buckets

/-! ## Sweeping tombstones -/

theorem Reseated.map_entry {c d : BoundedCache κ ν} {α : Type} (h : Reseated c d) (i : Nat)
    (g : Entry κ ν → α) :
    (d.entry? i).map (fun e => g (unseated e)) = (c.entry? i).map fun e => g (unseated e) := by
  have hentry := congrArg (Option.map g) (h.entry i)
  rwa [Option.map_map, Option.map_map] at hentry

theorem Valid.sweep {c : BoundedCache κ ν} {order vacant : List Nat} (h : Valid c order vacant)
    (hcapacity : 0 < c.capacity) : Valid c.sweep order vacant := by
  have hre := reseated_sweep c
  have hrest : c.sweep.capacity = c.capacity := (congrArg BoundedCache.capacity hre.rest :)
  refine ⟨?_, ?_, ?_, ?_, ?_, ?_, ?_⟩
  · exact h.linked.congr (fun i _ => hre.map_entry i Entry.links)
      (congrArg BoundedCache.head hre.rest :) (congrArg BoundedCache.tail hre.rest :)
  · intro i e he
    obtain ⟨e', he', -⟩ := hre.key he
    exact h.live i e' he'
  · unfold BoundedCache.sweep
    split
    · exact seated_rebuild h.seated.distinct (liveSlots_le_of_lt (h.slots_lt_buckets hcapacity))
    · exact h.seated
  · exact h.vacant.congr (congrArg BoundedCache.freeHead hre.rest :) hre.free
  · rw [← h.len]
    exact (congrArg BoundedCache.len hre.rest :)
  · rw [hre.size, hrest]
    exact h.size
  · rw [hre.bucketCount, hrest]
    exact h.buckets

/-- What freeing slot `i` leaves: the other pairs where they were, and everything the plain list
counts. -/
structure Freed (c d : BoundedCache κ ν) (i : Nat) : Prop where
  pair : ∀ j, j ≠ i → (d.entry? j).map Entry.pair = (c.entry? j).map Entry.pair
  capacity : d.capacity = c.capacity
  hits : d.hits = c.hits
  misses : d.misses = c.misses
  evictions : d.evictions = c.evictions

theorem freed_removeSlot {c : BoundedCache κ ν} {i : Nat} {e : Entry κ ν}
    (he : c.entry? i = some e) : Freed c (c.removeSlot i).2 i := by
  rw [removeSlot_eq he]
  have hswept := reseated_sweep (c.vacate i e)
  have hunlinked := relinked_unlink c i
  refine ⟨?_, ?_, ?_, ?_, ?_⟩
  · intro j hj
    rw [← pair_vacate he hj]
    exact hswept.map_entry j Entry.pair
  · exact (congrArg BoundedCache.capacity hswept.rest :).trans
      (congrArg BoundedCache.capacity hunlinked.rest :)
  · exact (congrArg BoundedCache.hits hswept.rest :).trans
      (congrArg BoundedCache.hits hunlinked.rest :)
  · exact (congrArg BoundedCache.misses hswept.rest :).trans
      (congrArg BoundedCache.misses hunlinked.rest :)
  · exact (congrArg BoundedCache.evictions hswept.rest :).trans
      (congrArg BoundedCache.evictions hunlinked.rest :)

theorem Valid.removeSlot {c : BoundedCache κ ν} {order vacant : List Nat} {i : Nat}
    {e : Entry κ ν} (h : Valid c order vacant) (he : c.entry? i = some e) :
    Valid (c.removeSlot i).2 (order.filter (· ≠ i)) (i :: vacant) := by
  rw [removeSlot_eq he]
  have hcapacity : (c.vacate i e).capacity = c.capacity :=
    (congrArg BoundedCache.capacity (relinked_unlink c i).rest :)
  refine (h.vacate he).sweep ?_
  rw [hcapacity]
  have hslot := lt_of_entry he
  have hsize := h.size
  omega

/-- Freeing a slot takes its pair out of the list. -/
theorem Valid.toLru_removeSlot {c : BoundedCache κ ν} {order vacant : List Nat} {i : Nat}
    {e : Entry κ ν} (h : Valid c order vacant) (he : c.entry? i = some e) :
    (c.removeSlot i).2.toLru = { c.toLru with pairs := c.pairsAt (order.filter (· ≠ i)) } := by
  have hfreed := freed_removeSlot he
  have hpairs : (c.removeSlot i).2.pairsAt (order.filter (· ≠ i)) =
      c.pairsAt (order.filter (· ≠ i)) := by
    refine pairsAt_congr fun j hj => hfreed.pair j ?_
    simpa using (List.mem_filter.mp hj).2
  rw [(h.removeSlot he).linked.toLru_eq, hpairs, hfreed.capacity, hfreed.hits, hfreed.misses,
    hfreed.evictions]
  rfl

/-! ## Taking a free slot -/

/-- The entry is in slot `i`, which was free, and nothing but slots and the free list differs. -/
structure Allocated (c d : BoundedCache κ ν) (i : Nat) (entry : Entry κ ν) (vacant : List Nat) :
    Prop where
  rest : { d with slots := c.slots, freeHead := c.freeHead } = c
  fresh : c.entry? i = none
  entry : ∀ j, d.entry? j = if j = i then some entry else c.entry? j
  vacant : Vacant d vacant
  size : d.slots.size ≤ c.capacity

theorem Valid.allocate {c : BoundedCache κ ν} {order vacant : List Nat} (h : Valid c order vacant)
    (hroom : order.length < c.capacity) (entry : Entry κ ν) :
    ∃ i d vacant', c.allocate entry = (some i, d) ∧ Allocated c d i entry vacant' := by
  cases vacant with
  | nil =>
    -- no slot is free, and the slots grow by one
    have hhead : c.freeHead = none := h.vacant.chain
    have hlt := Nat.lt_of_le_of_lt h.size_le_of_vacant_nil hroom
    have hslots : BoundedCache.slots { c with slots := c.slots.push (.live entry) } =
      c.slots.push (.live entry) := rfl
    refine ⟨c.slots.size, { c with slots := c.slots.push (.live entry) }, [], ?_, rfl, ?_,
      entry?_push hslots, ⟨hhead, List.nodup_nil, ?_⟩, ?_⟩
    · unfold BoundedCache.allocate
      rw [hhead]
      simp only [if_pos hlt]
    · rw [entry?_eq_bind, Array.getElem?_eq_none (Nat.le_refl _)]
      rfl
    · intro j next hj
      rw [free?_push hslots] at hj
      split at hj
      · cases hj
      · exact h.vacant.mem j next hj
    · show (c.slots.push _).size ≤ c.capacity
      rw [Array.size_push]
      exact hlt
  | cons i rest =>
    -- the first free slot is taken off the free list
    obtain ⟨hhead, next, hnext, hchain⟩ := h.vacant.chain
    obtain ⟨hi, hrest⟩ := List.nodup_cons.mp h.vacant.nodup
    have hslots : BoundedCache.slots
        { c with slots := c.slots.setIfInBounds i (.live entry), freeHead := next } =
      c.slots.setIfInBounds i (.live entry) := rfl
    have hlt := lt_of_free? hnext
    refine ⟨i, { c with slots := c.slots.setIfInBounds i (.live entry), freeHead := next }, rest,
      ?_, rfl, entry?_eq_none_of_free? hnext, entry?_set hslots hlt, ⟨?_, hrest, ?_⟩, ?_⟩
    · unfold BoundedCache.allocate
      rw [hhead]
      simp only [free?_eq_some.mp hnext]
    · refine hchain.congr fun j hj => ?_
      have hne : j ≠ i := fun heq => hi (heq ▸ hj)
      rw [free?_set hslots hlt, if_neg hne]
    · intro j next' hj
      rw [free?_set hslots hlt] at hj
      split at hj
      · cases hj
      · rename_i hne
        exact (List.mem_cons.mp (h.vacant.mem j next' hj)).resolve_left hne
    · show (c.slots.setIfInBounds i _).size ≤ c.capacity
      rw [Array.size_setIfInBounds]
      exact h.size

/-- The cache after the entry in slot `i` took bucket `pos`, before it is linked. -/
def occupy (a : BoundedCache κ ν) (pos i tombstones : Nat) : BoundedCache κ ν :=
  { a with tombstones, buckets := a.buckets.setIfInBounds pos (.occupied i) }

theorem Valid.seated_occupy {c a : BoundedCache κ ν} {order vacant vacant' : List Nat} {i : Nat}
    {e : Entry κ ν} (h : Valid c order vacant) (ha : Allocated c a i e vacant')
    (hnew : ∀ j x, c.entry? j = some x → x.key ≠ e.key)
    (hpos : c.vacantBucket? e.key = some e.bucket) (tombstones : Nat) :
    Seated (a.occupy e.bucket i tombstones) := by
  obtain ⟨hreach, hvacant⟩ := vacantBucket?_eq_some hpos
  have hself : BoundedCache.entry? (a.occupy e.bucket i tombstones) i = some e := by
    have hi := ha.entry i
    rwa [if_pos rfl] at hi
  have hothers : ∀ j, j ≠ i →
      BoundedCache.entry? (a.occupy e.bucket i tombstones) j = c.entry? j := by
    intro j hj
    have hj' := ha.entry j
    rwa [if_neg hj] at hj'
  constructor
  · -- the slot is the only one without a seat, and takes one
    have hbefore : SeatedOn c (· ≠ i) := by
      refine h.seated.on.imp fun j x hx => ⟨fun _ hj => ?_, fun _ => trivial⟩
      rw [hj, ha.fresh] at hx
      cases hx
    have hhash : (a.occupy e.bucket i tombstones).hash = c.hash :=
      (congrArg BoundedCache.hash ha.rest :)
    have hsame : a.buckets = c.buckets := (congrArg BoundedCache.buckets ha.rest :)
    have hbuckets : (a.occupy e.bucket i tombstones).buckets =
        c.buckets.setIfInBounds e.bucket (.occupied i) := by
      rw [← hsame]
      rfl
    have hafter := hbefore.occupy (fun hne => hne rfl) hreach hvacant hhash hbuckets hself
      fun j hj => by rw [hothers j hj]
    exact hafter.imp fun j _ _ => ⟨fun _ => trivial, fun _ => (em (j = i)).symm⟩
  · -- the new key is in no other slot
    intro j k x y hx hy hkey
    by_cases hj : j = i <;> by_cases hk : k = i
    · rw [hj, hk]
    · rw [hj, hself] at hx
      rw [hothers k hk] at hy
      cases hx
      exact absurd hkey.symm (hnew k y hy)
    · rw [hk, hself] at hy
      rw [hothers j hj] at hx
      cases hy
      exact absurd hkey (hnew j x hx)
    · rw [hothers j hj] at hx
      rw [hothers k hk] at hy
      exact h.seated.distinct j k x y hx hy hkey

theorem Valid.linked_occupy {c a : BoundedCache κ ν} {order vacant vacant' : List Nat} {i : Nat}
    {e : Entry κ ν} (h : Valid c order vacant) (ha : Allocated c a i e vacant')
    (pos tombstones : Nat) : Linked ((a.occupy pos i tombstones).pushBack i) (order ++ [i]) := by
  have hi : i ∉ order := by
    intro hmem
    obtain ⟨x, hx⟩ := h.linked.live hmem
    rw [ha.fresh] at hx
    cases hx
  have hself : BoundedCache.entry? (a.occupy pos i tombstones) i = some e := by
    have hself := ha.entry i
    rwa [if_pos rfl] at hself
  refine Linked.pushBack ?_ hself hi
  refine h.linked.congr ?_ (congrArg BoundedCache.head ha.rest :)
    (congrArg BoundedCache.tail ha.rest :)
  intro j hj
  have hne : j ≠ i := fun heq => hi (heq ▸ hj)
  have hentry := ha.entry j
  rw [if_neg hne] at hentry
  exact congrArg (Option.map Entry.links) hentry

/-- The cache after the entry in slot `i` was linked behind the last. -/
def enqueue (b : BoundedCache κ ν) (i : Nat) : BoundedCache κ ν :=
  { b.pushBack i with len := b.len + 1 }

theorem Valid.enqueue {c a : BoundedCache κ ν} {order vacant vacant' : List Nat} {i : Nat}
    {e : Entry κ ν} (h : Valid c order vacant) (ha : Allocated c a i e vacant')
    (hnew : ∀ j x, c.entry? j = some x → x.key ≠ e.key)
    (hpos : c.vacantBucket? e.key = some e.bucket) (tombstones : Nat) :
    Valid ((a.occupy e.bucket i tombstones).enqueue i) (order ++ [i]) vacant' := by
  have hre := relinked_pushBack (a.occupy e.bucket i tombstones) i
  have hlinked := h.linked_occupy ha e.bucket tombstones
  have hcapacity : ((a.occupy e.bucket i tombstones).pushBack i).capacity = c.capacity :=
    (congrArg BoundedCache.capacity hre.rest :).trans (congrArg BoundedCache.capacity ha.rest :)
  refine ⟨?_, ?_, ?_, ?_, ?_, ?_, ?_⟩
  · exact hlinked.congr (fun _ _ => rfl) rfl rfl
  · -- what is live afterwards was live before, or is the new slot
    intro j x hx
    obtain ⟨x', hx', -⟩ := entry_of_seat (hre.seat j) hx
    have hentry := ha.entry j
    rw [show a.entry? j = some x' from hx'] at hentry
    split at hentry
    · rename_i heq
      rw [heq]
      simp
    · exact List.mem_append_left [i] (h.live j x' hentry.symm)
  · exact (h.seated_occupy ha hnew hpos tombstones).congr (congrArg BoundedCache.hash hre.rest :)
      (congrArg BoundedCache.buckets hre.rest :) hre.seat
  · exact ha.vacant.congr (congrArg BoundedCache.freeHead hre.rest :) hre.free
  · have hlen : a.len = c.len := (congrArg BoundedCache.len ha.rest :)
    show a.len + 1 = _
    rw [hlen, h.len, List.length_append, List.length_singleton]
  · show ((a.occupy e.bucket i tombstones).pushBack i).slots.size ≤
      ((a.occupy e.bucket i tombstones).pushBack i).capacity
    rw [hre.size, hcapacity]
    exact ha.size
  · have hbuckets : ((a.occupy e.bucket i tombstones).pushBack i).buckets =
        a.buckets.setIfInBounds e.bucket (.occupied i) := (congrArg BoundedCache.buckets hre.rest :)
    have hsame : a.buckets = c.buckets := (congrArg BoundedCache.buckets ha.rest :)
    show ((a.occupy e.bucket i tombstones).pushBack i).buckets.size =
      bucketCount ((a.occupy e.bucket i tombstones).pushBack i).capacity
    rw [hbuckets, Array.size_setIfInBounds, hsame, hcapacity]
    exact h.buckets

theorem Valid.toLru_enqueue {c a : BoundedCache κ ν} {order vacant vacant' : List Nat} {i : Nat}
    {e : Entry κ ν} (h : Valid c order vacant) (ha : Allocated c a i e vacant')
    (pos tombstones : Nat) [DecidableEq κ] :
    ((a.occupy pos i tombstones).enqueue i).toLru = c.toLru.append e.key e.value := by
  have hre := relinked_pushBack (a.occupy pos i tombstones) i
  have hlinked := h.linked_occupy ha pos tombstones
  have hpairs : a.pairsAt (order ++ [i]) = c.pairsAt order ++ [(e.key, e.value)] := by
    have hself : a.entry? i = some e := by rw [ha.entry, if_pos rfl]
    rw [pairsAt_append, pairsAt_cons hself]
    congr 1
    refine pairsAt_congr fun j hj => ?_
    have hne : j ≠ i := by
      rintro rfl
      obtain ⟨x, hx⟩ := h.linked.live hj
      rw [ha.fresh] at hx
      cases hx
    rw [ha.entry, if_neg hne]
  have hrest := congrArg (fun x : BoundedCache κ ν =>
    (⟨x.capacity, c.pairsAt order ++ [(e.key, e.value)], x.hits, x.misses, x.evictions⟩ : Lru κ ν))
    ha.rest
  have hadmit : Linked ((a.occupy pos i tombstones).enqueue i) (order ++ [i]) :=
    hlinked.congr (fun _ _ => rfl) rfl rfl
  -- the count of entries does not show in the list
  have hlru : ((a.occupy pos i tombstones).enqueue i).toLru =
    ((a.occupy pos i tombstones).pushBack i).toLru := hadmit.toLru_eq.trans hlinked.toLru_eq.symm
  rw [hlru, hre.toLru_eq hlinked]
  show { a.toLru with pairs := a.pairsAt (order ++ [i]) } = _
  rw [hpairs, h.linked.toLru_eq]
  exact hrest

end VersionChain.BoundedCache
