import VersionChain.Proofs.Cache.Lru
import VersionChain.Proofs.Cache.Operations

/-!
# Bounded caches are plain lists

Slots, buckets, tombstones and both linked lists are bookkeeping: whatever the hash function, a
bounded cache answers every sequence of commands like the plain list of its pairs.

* `Simulates` — what it means for one operation;
* `WellFormed.update`, `WellFormed.insert`, … — each operation does it;
* `observe_new` — so does every run of commands from a new cache.
-/

namespace VersionChain

namespace BoundedCache

variable {κ ν : Type}

/-- Some order of use and some free list fit the cache. -/
def WellFormed (c : BoundedCache κ ν) : Prop := ∃ order vacant, Valid c order vacant

/-- An operation answers like the plain list, leaves the same pairs and counters, and leaves the
cache well-formed. -/
structure Simulates {α : Type} (r : α × BoundedCache κ ν) (s : α × Lru κ ν) : Prop where
  answer : r.1 = s.1
  contents : r.2.toLru = s.2
  wellFormed : WellFormed r.2

/-! ## Searching -/

variable [DecidableEq κ]

theorem Valid.find?_cases {c : BoundedCache κ ν} {order vacant : List Nat}
    (h : Valid c order vacant) (key : κ) :
    (c.find? key = none ∧ c.toLru.peek? key = none ∧ c.toLru.without key = c.toLru.pairs) ∨
    ∃ i e, c.find? key = some i ∧ c.entry? i = some e ∧ e.key = key ∧
      c.toLru.peek? key = some e.value ∧
      c.toLru.without key = c.pairsAt (order.filter (· ≠ i)) := by
  have hlru := h.linked.toLru_eq
  cases hfind : c.find? key with
  | none =>
    have habsent : ∀ p ∈ c.toLru.pairs, p.1 ≠ key := by
      intro p hp
      rw [hlru] at hp
      obtain ⟨i, -, e, he, rfl⟩ := mem_pairsAt.mp hp
      exact h.seated.find?_eq_none_iff.mp hfind i e he
    refine .inl ⟨rfl, ?_, ?_⟩
    · unfold Lru.peek?
      rw [List.find?_eq_none.mpr fun p hp => by simpa using habsent p hp]
      rfl
    · exact List.filter_eq_self.mpr fun p hp => by simpa using habsent p hp
  | some i =>
    obtain ⟨e, he, rfl⟩ := h.seated.find?_eq_some_iff.mp hfind
    refine .inr ⟨i, e, rfl, he, rfl, ?_, ?_⟩
    · -- the pair that is found is in the slot that was found
      have hmem : e.pair ∈ c.toLru.pairs := by
        rw [hlru]
        exact mem_pairsAt.mpr ⟨i, h.live i e he, e, he, rfl⟩
      unfold Lru.peek?
      cases hp : c.toLru.pairs.find? (·.1 = e.key) with
      | none =>
        have hother := List.find?_eq_none.mp hp e.pair hmem
        exact absurd (decide_eq_true rfl) hother
      | some p =>
        -- the pair that is found has the key, so it is that of the slot
        have hkey := List.find?_some hp
        have hin := List.mem_of_find?_eq_some hp
        rw [hlru] at hin
        obtain ⟨j, -, x, hx, rfl⟩ := mem_pairsAt.mp hin
        have hj := (h.key_eq_iff he hx).mp (of_decide_eq_true hkey)
        rw [hj, he] at hx
        cases hx
        rfl
    · rw [hlru]
      refine (pairsAt_filter fun j _ x hx => ?_).symm
      have hiff := h.key_eq_iff he hx
      simp only [ne_eq, decide_not, Entry.pair, hiff]

theorem WellFormed.peek? {c : BoundedCache κ ν} (h : WellFormed c) (key : κ) :
    c.peek? key = c.toLru.peek? key := by
  obtain ⟨order, vacant, h⟩ := h
  unfold BoundedCache.peek?
  rcases h.find?_cases key with ⟨hfind, hpeek, -⟩ | ⟨i, e, hfind, he, -, hpeek, -⟩
  · rw [hfind, hpeek]
    rfl
  · rw [hfind, hpeek, Option.bind_some, he]
    rfl

theorem WellFormed.contains {c : BoundedCache κ ν} (h : WellFormed c) (key : κ) :
    c.contains key = c.toLru.contains key := by
  obtain ⟨order, vacant, h⟩ := h
  unfold BoundedCache.contains Lru.contains
  rcases h.find?_cases key with ⟨hfind, hpeek, -⟩ | ⟨i, e, hfind, -, -, hpeek, -⟩
  all_goals
    rw [hfind, hpeek]
    rfl

/-! ## Using an entry -/

omit [DecidableEq κ] in
/-- Moving a slot to the end and changing its value. -/
theorem Valid.use {c : BoundedCache κ ν} {order vacant : List Nat} {i : Nat} {e : Entry κ ν}
    (h : Valid c order vacant) (he : c.entry? i = some e) (f : ν → ν) :
    (∃ e', BoundedCache.entry? (c.moveToBack i) i = some e' ∧ e'.value = e.value) ∧
    WellFormed ((c.moveToBack i).modifyEntry i fun e => { e with value := f e.value }) ∧
    ((c.moveToBack i).modifyEntry i fun e => { e with value := f e.value }).toLru =
      { c.toLru with pairs := c.pairsAt (order.filter (· ≠ i)) ++ [(e.key, f e.value)] } := by
  have hre := relinked_moveToBack c i
  obtain ⟨e', he', hkey, hvalue, -⟩ := hre.entry he
  obtain ⟨front, back, rfl⟩ := List.append_of_mem (h.live i e he)
  have hmoved := h.moveToBack
  rw [← filter_ne_split h.linked.nodup] at hmoved
  have hset := hmoved.setValue i fun e => f e.value
  have hi : i ∉ (front ++ i :: back).filter (· ≠ i) := by simp
  have hrest := congrArg (fun x : BoundedCache κ ν =>
    (⟨x.capacity, c.pairsAt ((front ++ i :: back).filter (· ≠ i)) ++ [(e.key, f e.value)], x.hits,
      x.misses, x.evictions⟩ : Lru κ ν)) hre.rest
  refine ⟨⟨e', he', hvalue⟩, ⟨_, vacant, hset⟩, ?_⟩
  rw [hset.linked.toLru_eq, pairsAt_setValue he' hi, hkey, hvalue, pairsAt_congr fun j _ => hre.pair j]
  exact hrest

theorem WellFormed.update {c : BoundedCache κ ν} (h : WellFormed c) (key : κ) (f : ν → ν) :
    Simulates (c.update key f) (c.toLru.update key f) := by
  obtain ⟨order, vacant, h⟩ := h
  unfold BoundedCache.update Lru.update
  rcases h.find?_cases key with ⟨hfind, hpeek, -⟩ | ⟨i, e, hfind, he, rfl, hpeek, hwithout⟩
  · rw [hfind, hpeek]
    have hcount := h.count c.hits (c.misses + 1) c.evictions
    exact ⟨rfl, h.toLru_count c.hits (c.misses + 1) c.evictions, order, vacant, hcount⟩
  · have hcount := h.count (c.hits + 1) c.misses c.evictions
    obtain ⟨⟨e', he', hvalue⟩, hwell, hlru⟩ := hcount.use he f
    rw [hfind, hpeek]
    refine ⟨?_, ?_, hwell⟩
    · show (BoundedCache.entry? _ i).map (·.value) = some e.value
      rw [he', ← hvalue]
      rfl
    · rw [hwithout]
      refine hlru.trans ?_
      rw [h.toLru_count]
      rfl

/-! ## Entries that go -/

omit [DecidableEq κ] in
/-- Freeing the slot of a pair. -/
theorem Valid.removeSlot_spec {c : BoundedCache κ ν} {order vacant : List Nat} {i : Nat}
    {e : Entry κ ν} (h : Valid c order vacant) (he : c.entry? i = some e) :
    (c.removeSlot i).1 = some (e.key, e.value) ∧ WellFormed (c.removeSlot i).2 ∧
    (c.removeSlot i).2.toLru = { c.toLru with pairs := c.pairsAt (order.filter (· ≠ i)) } := by
  refine ⟨?_, ⟨_, _, h.removeSlot he⟩, h.toLru_removeSlot he⟩
  rw [removeSlot_eq he]
  rfl

theorem WellFormed.remove {c : BoundedCache κ ν} (h : WellFormed c) (key : κ) :
    Simulates (c.remove key) (c.toLru.remove key) := by
  obtain ⟨order, vacant, h⟩ := h
  unfold BoundedCache.remove Lru.remove
  rcases h.find?_cases key with ⟨hfind, hpeek, hwithout⟩ | ⟨i, e, hfind, he, rfl, hpeek, hwithout⟩
  · rw [hfind, hpeek, hwithout]
    exact ⟨rfl, rfl, order, vacant, h⟩
  · obtain ⟨hanswer, hwell, hlru⟩ := h.removeSlot_spec he
    rw [hfind, hpeek, hwithout]
    refine ⟨?_, hlru, hwell⟩
    show (c.removeSlot i).1.map (·.2) = some e.value
    rw [hanswer]
    rfl

omit [DecidableEq κ] in
theorem WellFormed.popOldest {c : BoundedCache κ ν} (h : WellFormed c) :
    Simulates c.popOldest c.toLru.popOldest := by
  obtain ⟨order, vacant, h⟩ := h
  have hlru := h.linked.toLru_eq
  cases order with
  | nil =>
    have hhead : c.head = none := h.linked.head
    have hpairs : c.toLru.pairs = [] := by rw [hlru]; rfl
    unfold BoundedCache.popOldest Lru.popOldest
    rw [hhead, hpairs]
    exact ⟨rfl, rfl, [], vacant, h⟩
  | cons i rest =>
    have hhead : c.head = some i := h.linked.head
    obtain ⟨e, he⟩ := h.linked.live List.mem_cons_self
    have hpairs : c.toLru.pairs = (e.key, e.value) :: c.pairsAt rest := by
      rw [hlru]
      exact pairsAt_cons he rest
    have hcount := h.count c.hits c.misses (c.evictions + 1)
    obtain ⟨hanswer, hwell, hremoved⟩ := hcount.removeSlot_spec he
    -- the oldest slot is the first in the order of use
    have hpop : c.popOldest =
        BoundedCache.removeSlot { c with evictions := c.evictions + 1 } i := by
      unfold BoundedCache.popOldest
      split
      · rename_i j hj
        rw [hhead] at hj
        cases hj
        rfl
      · rename_i hj
        rw [hhead] at hj
        cases hj
    unfold Lru.popOldest
    rw [hpop, hpairs]
    refine ⟨hanswer, ?_, hwell⟩
    refine hremoved.trans ?_
    have hrest : ([] ++ i :: rest).filter (· ≠ i) = [] ++ rest := filter_ne_split h.linked.nodup
    simp only [List.nil_append] at hrest
    rw [h.toLru_count, hrest]
    rfl

omit [DecidableEq κ] in
/-- Freeing slots one after the other keeps the pairs of all others. -/
theorem Valid.removeSlots {c : BoundedCache κ ν} {order vacant doomed : List Nat}
    (h : Valid c order vacant) (hdoomed : doomed.Nodup) (hlive : ∀ i ∈ doomed, i ∈ order) :
    WellFormed (c.removeSlots doomed) ∧ (c.removeSlots doomed).toLru =
      { c.toLru with pairs := c.pairsAt (order.filter (· ∉ doomed)) } := by
  induction doomed generalizing c order vacant with
  | nil =>
    have hall : order.filter (· ∉ ([] : List Nat)) = order := by simp
    refine ⟨⟨order, vacant, h⟩, ?_⟩
    rw [hall]
    show c.toLru = _
    rw [h.linked.toLru_eq]
  | cons i rest ih =>
    obtain ⟨hi, hrest⟩ := List.nodup_cons.mp hdoomed
    obtain ⟨e, he⟩ := h.linked.live (hlive i List.mem_cons_self)
    have hremoved := h.removeSlot he
    obtain ⟨hwell, hlru⟩ := ih hremoved hrest fun j hj => by
      refine List.mem_filter.mpr ⟨hlive j (List.mem_cons_of_mem i hj), ?_⟩
      have hne : j ≠ i := fun heq => hi (heq ▸ hj)
      simpa using hne
    refine ⟨hwell, hlru.trans ?_⟩
    have hfilter : (order.filter (· ≠ i)).filter (· ∉ rest) = order.filter (· ∉ i :: rest) := by
      rw [List.filter_filter]
      refine List.filter_congr fun j _ => ?_
      simp [not_or, Bool.and_comm]
    have hpairs : (c.removeSlot i).2.pairsAt (order.filter (· ∉ i :: rest)) =
        c.pairsAt (order.filter (· ∉ i :: rest)) := by
      refine pairsAt_congr fun j hj => (freed_removeSlot he).pair j ?_
      rintro rfl
      simpa using (List.mem_filter.mp hj).2
    rw [h.toLru_removeSlot he, hfilter, hpairs]

omit [DecidableEq κ] in
/-- Choosing among the entries in order is choosing among their slots. -/
theorem slots_filter {c : BoundedCache κ ν} {l : List Nat} (h : ∀ i ∈ l, ∃ e, c.entry? i = some e)
    (p : Entry κ ν → Bool) :
    ((l.filterMap fun i => (c.entry? i).map (i, ·)).filter fun x => p x.2).map (·.1) =
      l.filter fun i => (c.entry? i).any p := by
  induction l with
  | nil => rfl
  | cons i rest ih =>
    obtain ⟨e, he⟩ := h i List.mem_cons_self
    have htail := ih fun j hj => h j (List.mem_cons_of_mem i hj)
    rw [List.filterMap_cons_some (b := (i, e)) (by rw [he]; rfl), List.filter_cons, List.filter_cons,
      he]
    cases hp : p e <;> simp [hp, htail]

omit [DecidableEq κ] in
theorem WellFormed.retain {c : BoundedCache κ ν} (h : WellFormed c) (keep : κ → ν → Bool) :
    Simulates (c.retain keep) (c.toLru.retain keep) := by
  obtain ⟨order, vacant, h⟩ := h
  have hlru := h.linked.toLru_eq
  -- the slots that go, in their order
  let goes : Nat → Bool := fun i => (c.entry? i).any fun e => !keep e.key e.value
  have hslots : (c.inOrder.filter fun x => !keep x.2.key x.2.value).map (·.1) =
      order.filter goes := by
    rw [h.linked.inOrder_eq]
    exact slots_filter (fun i hi => h.linked.live hi) fun e => !keep e.key e.value
  have hdoomed : ∀ i ∈ order.filter goes, i ∈ order := fun i hi => (List.mem_filter.mp hi).1
  obtain ⟨hwell, hrest⟩ := h.removeSlots (h.linked.nodup.filter goes) hdoomed
  have hkept : c.pairsAt (order.filter (· ∉ order.filter goes)) =
      (c.pairsAt order).filter fun p => keep p.1 p.2 := by
    refine pairsAt_filter fun i hi e he => ?_
    have hgoes : goes i = !keep e.key e.value := by
      show (c.entry? i).any _ = _
      rw [he]
      rfl
    simp [List.mem_filter, hi, hgoes, Entry.pair]
  unfold BoundedCache.retain Lru.retain
  refine ⟨?_, ?_, ?_⟩
  · show (c.inOrder.filter fun x => !keep x.2.key x.2.value).map (fun x => (x.2.key, x.2.value)) =
      c.toList.filter fun p => !keep p.1 p.2
    unfold toList
    rw [List.filter_map]
    rfl
  · show (c.removeSlots ((c.inOrder.filter fun x => !keep x.2.key x.2.value).map (·.1))).toLru = _
    rw [hslots, hrest, hkept, hlru]
  · show WellFormed (c.removeSlots ((c.inOrder.filter fun x => !keep x.2.key x.2.value).map (·.1)))
    rw [hslots]
    exact hwell

omit [DecidableEq κ] in
/-- A cache without slots. -/
theorem Valid.of_empty {c : BoundedCache κ ν} (hslots : c.slots = #[]) (hfree : c.freeHead = none)
    (hhead : c.head = none) (htail : c.tail = none) (hlen : c.len = 0)
    (hbuckets : c.buckets = .replicate (bucketCount c.capacity) .empty) : Valid c [] [] := by
  have hnone : ∀ i, c.entry? i = none := by
    intro i
    rw [entry?_eq_bind, hslots]
    rfl
  have hfreeNone : ∀ i, c.free? i = none := by
    intro i
    unfold free?
    rw [hslots]
    rfl
  refine ⟨⟨hhead, htail, List.nodup_nil, ?_⟩, ?_, ⟨⟨?_, ?_, ?_⟩, ?_⟩, ⟨hfree, List.nodup_nil, ?_⟩, hlen,
    ?_, ?_⟩
  · intro front i back hsplit
    simp at hsplit
  · intro i e he
    rw [hnone] at he
    cases he
  · intro pos i hpos
    rw [hbuckets, Array.getElem?_replicate] at hpos
    split at hpos <;> cases hpos
  · intro i e _ he
    rw [hnone] at he
    cases he
  · intro i e _ he
    rw [hnone] at he
    cases he
  · intro i j e e' he
    rw [hnone] at he
    cases he
  · intro i next hi
    rw [hfreeNone] at hi
    cases hi
  · rw [hslots]
    exact Nat.zero_le _
  · rw [hbuckets, Array.size_replicate]

omit [DecidableEq κ] in
theorem wellFormed_new (hash : κ → UInt64) (capacity : Nat) :
    WellFormed (ν := ν) (new hash capacity) :=
  ⟨[], [], .of_empty rfl rfl rfl rfl rfl rfl⟩

omit [DecidableEq κ] in
theorem toLru_new (hash : κ → UInt64) (capacity : Nat) :
    (new (ν := ν) hash capacity).toLru = { capacity := min capacity maxCapacity } :=
  (Valid.of_empty rfl rfl rfl rfl rfl rfl).linked.toLru_eq

omit [DecidableEq κ] in
theorem WellFormed.clear {c : BoundedCache κ ν} (h : WellFormed c) :
    WellFormed c.clear ∧ c.clear.toLru = c.toLru.clear := by
  obtain ⟨order, vacant, h⟩ := h
  have hbuckets : c.clear.buckets = .replicate (bucketCount c.clear.capacity) .empty := by
    show Array.replicate c.buckets.size Bucket.empty = _
    rw [h.buckets]
    rfl
  have hclear : Valid c.clear [] [] := .of_empty rfl rfl rfl rfl rfl hbuckets
  exact ⟨⟨[], [], hclear⟩, hclear.linked.toLru_eq⟩

/-! ## Entries that come -/

/-- While there is room, a key that is in no pair gets one at the end. -/
theorem WellFormed.seat {c : BoundedCache κ ν} (h : WellFormed c) {key : κ} (value : ν)
    (hroom : c.toLru.pairs.length < c.capacity) (hnew : c.toLru.peek? key = none) :
    ∃ pos d, c.vacantBucket? key = some pos ∧ c.seat pos key value = (true, d) ∧ WellFormed d ∧
      d.toLru = c.toLru.append key value := by
  obtain ⟨order, vacant, h⟩ := h
  rw [h.length_pairs] at hroom
  have habsent : ∀ i e, c.entry? i = some e → e.key ≠ key := by
    rcases h.find?_cases key with ⟨hfind, -⟩ | ⟨i, e, -, -, -, hpeek, -⟩
    · exact h.seated.find?_eq_none_iff.mp hfind
    · rw [hnew] at hpeek
      cases hpeek
  obtain ⟨pos, hpos⟩ := h.seated.on.exists_vacantBucket? (h.slots_lt_buckets (by omega)) key
  obtain ⟨i, a, vacant', halloc, ha⟩ := h.allocate hroom { key, value, bucket := pos }
  let tombstones := if a.buckets[pos]? = some .tombstone then a.tombstones - 1 else a.tombstones
  refine ⟨pos, (a.occupy pos i tombstones).enqueue i, hpos, ?_, ?_, ?_⟩
  · unfold BoundedCache.seat
    rw [halloc]
    rfl
  · exact ⟨order ++ [i], vacant', h.enqueue ha habsent hpos tombstones⟩
  · exact h.toLru_enqueue ha pos tombstones

/-- Dropping the oldest pair makes room, and brings no key back. -/
theorem WellFormed.room_popOldest {c : BoundedCache κ ν} (h : WellFormed c) {key : κ}
    {oldest : κ × ν} {rest : List (κ × ν)} (hpairs : c.toLru.pairs = oldest :: rest)
    (hpeek : c.toLru.peek? key = none) :
    c.popOldest.1 = some oldest ∧
    c.popOldest.2.toLru = { c.toLru with pairs := rest, evictions := c.toLru.evictions + 1 } ∧
    c.popOldest.2.toLru.pairs.length < c.popOldest.2.capacity ∧
    c.popOldest.2.toLru.peek? key = none := by
  have hpop := h.popOldest
  have hpopped : c.toLru.popOldest =
      (some oldest, { c.toLru with pairs := rest, evictions := c.toLru.evictions + 1 }) := by
    unfold Lru.popOldest
    rw [hpairs]
  have hcontents := hpop.contents
  rw [hpopped] at hcontents
  refine ⟨hpop.answer.trans (congrArg Prod.fst hpopped), hcontents, ?_, ?_⟩
  · -- one pair less than there can be
    obtain ⟨order, vacant, hvalid⟩ := h
    have hlen := hvalid.length_pairs
    rw [hpairs, List.length_cons] at hlen
    have hcapacity : c.popOldest.2.capacity = c.capacity := congrArg Lru.capacity hcontents
    rw [hcontents, hcapacity]
    show rest.length + 1 ≤ c.capacity
    rw [hlen]
    exact hvalid.len_le
  · rw [hcontents]
    unfold Lru.peek? at hpeek ⊢
    rw [Option.map_eq_none_iff, List.find?_eq_none] at hpeek ⊢
    exact fun p hp => hpeek p (by rw [hpairs]; exact List.mem_cons_of_mem oldest hp)

theorem WellFormed.insert {c : BoundedCache κ ν} (h : WellFormed c) (key : κ) (value : ν) :
    Simulates (c.insert key value) (c.toLru.insert key value) := by
  have hcapacity : c.toLru.capacity = c.capacity := rfl
  obtain ⟨order, vacant, hvalid⟩ := id h
  have hlen : c.toLru.pairs.length = c.len := hvalid.length_pairs.trans hvalid.len.symm
  unfold BoundedCache.insert Lru.insert
  by_cases hzero : c.capacity = 0
  · rw [if_pos hzero, if_pos (hcapacity.trans hzero)]
    exact ⟨rfl, rfl, h⟩
  have hsome : ¬ c.toLru.capacity = 0 := hzero
  rw [if_neg hzero, if_neg hsome]
  rcases hvalid.find?_cases key with ⟨hfind, hpeek, -⟩ | ⟨i, e, hfind, he, rfl, hpeek, hwithout⟩
  · rw [hfind, hpeek, hlen, hcapacity]
    by_cases hfull : c.capacity ≤ c.len
    · -- the oldest pair makes way for the new one
      obtain ⟨oldest, rest, hpairs⟩ : ∃ oldest rest, c.toLru.pairs = oldest :: rest :=
        List.exists_cons_of_length_pos (by omega)
      obtain ⟨hanswer, hcontents, hroom, hnew⟩ := h.room_popOldest hpairs hpeek
      obtain ⟨pos, d, hpos, hseat, hwell, hlru⟩ := h.popOldest.wellFormed.seat value hroom hnew
      have hpopped : c.toLru.popOldest =
          (some oldest, { c.toLru with pairs := rest, evictions := c.toLru.evictions + 1 }) :=
        Prod.ext (h.popOldest.answer.symm.trans hanswer) (h.popOldest.contents.symm.trans hcontents)
      rw [hcontents] at hlru
      rw [if_neg (Nat.not_lt.mpr hfull), hpopped]
      simp only [if_pos hfull, hpos, hseat, hanswer]
      exact ⟨rfl, hlru, hwell⟩
    · obtain ⟨pos, d, hpos, hseat, hwell, hlru⟩ :=
        h.seat value (by rw [hlen]; omega) hpeek
      rw [if_pos (Nat.lt_of_not_le hfull)]
      simp only [if_neg hfull, hpos, hseat]
      exact ⟨rfl, hlru, hwell⟩
  · obtain ⟨⟨e', he', hvalue⟩, hwell, hlru⟩ := hvalid.use he fun _ => value
    rw [hfind, hpeek, hwithout]
    simp only [he', hvalue]
    exact ⟨rfl, hlru, hwell⟩

end BoundedCache

end VersionChain
