import VersionChain.Proofs.Cache.Lru
import VersionChain.Proofs.Cache.Recency
import VersionChain.Proofs.Cache.Rebuild

/-!
# Well-formed caches

What ties the parts of a bounded cache together: the live slots are exactly those in the order
of use, each of them is seated, the free slots are exactly those in the free list, and there
are more buckets than slots. `Valid c order vacant` names the two lists.

* `Linked.toList_eq` — the contents are the pairs of the slots in the order of use;
* `Valid.slots_lt_buckets` — there is always a bucket that leads nowhere;
* `Valid.size_le_of_vacant_nil` — without free slots every slot is in use.
-/

namespace VersionChain

variable {κ ν : Type}

namespace BoundedCache

/-! ## The free list -/

/-- The free slots in a list lead from one to the next, the first being `start`. -/
def FreeChain (c : BoundedCache κ ν) : (start : Option Nat) → List Nat → Prop
  | start, [] => start = none
  | start, i :: rest => start = some i ∧ ∃ next, c.free? i = some next ∧ FreeChain c next rest

theorem FreeChain.congr {c d : BoundedCache κ ν} {start : Option Nat} {l : List Nat}
    (h : FreeChain c start l) (hfree : ∀ i ∈ l, d.free? i = c.free? i) : FreeChain d start l := by
  induction l generalizing start with
  | nil => exact h
  | cons i rest ih =>
    obtain ⟨hstart, next, hnext, hrest⟩ := h
    refine ⟨hstart, next, ?_, ih hrest fun j hj => hfree j (List.mem_cons_of_mem i hj)⟩
    rw [hfree i List.mem_cons_self]
    exact hnext

theorem FreeChain.free {c : BoundedCache κ ν} {start : Option Nat} {l : List Nat}
    (h : FreeChain c start l) {i : Nat} (hi : i ∈ l) : ∃ next, c.free? i = some next := by
  induction l generalizing start with
  | nil => cases hi
  | cons j rest ih =>
    obtain ⟨-, next, hnext, hrest⟩ := h
    rcases List.mem_cons.mp hi with rfl | hmem
    · exact ⟨next, hnext⟩
    · exact ih hrest hmem

/-- The list `vacant` holds every free slot once, in the order in which they are handed out. -/
structure Vacant (c : BoundedCache κ ν) (vacant : List Nat) : Prop where
  chain : FreeChain c c.freeHead vacant
  nodup : vacant.Nodup
  mem : ∀ i next, c.free? i = some next → i ∈ vacant

theorem Vacant.congr {c d : BoundedCache κ ν} {vacant : List Nat} (h : Vacant c vacant)
    (hhead : d.freeHead = c.freeHead) (hfree : ∀ i, d.free? i = c.free? i) : Vacant d vacant where
  chain := by
    rw [hhead]
    exact h.chain.congr fun i _ => hfree i
  nodup := h.nodup
  mem i next hi := h.mem i next (by rw [← hfree]; exact hi)

/-! ## The invariant -/

/-- A well-formed cache with its order of use and its free list. -/
structure Valid (c : BoundedCache κ ν) (order vacant : List Nat) : Prop where
  linked : Linked c order
  live : ∀ i e, c.entry? i = some e → i ∈ order
  seated : Seated c
  vacant : Vacant c vacant
  len : c.len = order.length
  size : c.slots.size ≤ c.capacity
  buckets : c.buckets.size = bucketCount c.capacity

theorem le_doubledUpTo (n power : Nat) (hpower : 0 < power) : n ≤ doubledUpTo n power := by
  fun_induction doubledUpTo n power with
  | case1 power hstop => omega
  | case2 power hgo ih => exact ih (by omega)

/-- There are more buckets than entries can ever be. -/
theorem lt_bucketCount {capacity : Nat} (h : 0 < capacity) : capacity < bucketCount capacity := by
  unfold bucketCount
  rw [if_neg (by omega)]
  have := le_doubledUpTo (2 * capacity) 1 Nat.one_pos
  omega

theorem Valid.slots_lt_buckets {c : BoundedCache κ ν} {order vacant : List Nat}
    (h : Valid c order vacant) (hcapacity : 0 < c.capacity) : c.slots.size < c.buckets.size := by
  rw [h.buckets]
  exact Nat.lt_of_le_of_lt h.size (lt_bucketCount hcapacity)

/-- As many slots are in the order of use as there are distinct slots in it. -/
theorem Linked.length_le {c : BoundedCache κ ν} {order : List Nat} (h : Linked c order) :
    order.length ≤ c.slots.size := by
  have hsub : order.toFinset ⊆ Finset.range c.slots.size := by
    intro i hi
    obtain ⟨e, he⟩ := h.live (List.mem_toFinset.mp hi)
    exact Finset.mem_range.mpr (lt_of_entry he)
  have hcard := Finset.card_le_card hsub
  rwa [Finset.card_range, List.toFinset_card_of_nodup h.nodup] at hcard

theorem Valid.len_le {c : BoundedCache κ ν} {order vacant : List Nat} (h : Valid c order vacant) :
    order.length ≤ c.capacity :=
  Nat.le_trans h.linked.length_le h.size

/-- Without free slots every slot is in the order of use. -/
theorem Valid.size_le_of_vacant_nil {c : BoundedCache κ ν} {order : List Nat}
    (h : Valid c order []) : c.slots.size ≤ order.length := by
  have hsub : Finset.range c.slots.size ⊆ order.toFinset := by
    intro i hi
    rw [List.mem_toFinset]
    rcases c.live_or_free (Finset.mem_range.mp hi) with hlive | hfree
    · obtain ⟨e, he⟩ := Option.isSome_iff_exists.mp hlive
      exact h.live i e he
    · obtain ⟨next, hnext⟩ := Option.isSome_iff_exists.mp hfree
      exact absurd (h.vacant.mem i next hnext) List.not_mem_nil
  have hcard := Finset.card_le_card hsub
  rwa [Finset.card_range, List.toFinset_card_of_nodup h.linked.nodup] at hcard

/-! ## Contents -/

/-- The pairs in these slots. -/
def pairsAt (c : BoundedCache κ ν) (order : List Nat) : List (κ × ν) :=
  order.filterMap fun i => (c.entry? i).map Entry.pair

theorem pairsAt_append (c : BoundedCache κ ν) (front back : List Nat) :
    c.pairsAt (front ++ back) = c.pairsAt front ++ c.pairsAt back :=
  List.filterMap_append

theorem pairsAt_cons {c : BoundedCache κ ν} {i : Nat} {e : Entry κ ν} (he : c.entry? i = some e)
    (rest : List Nat) : c.pairsAt (i :: rest) = (e.key, e.value) :: c.pairsAt rest :=
  List.filterMap_cons_some (by rw [he]; rfl)

theorem pairsAt_congr {c d : BoundedCache κ ν} {order : List Nat}
    (h : ∀ i ∈ order, (d.entry? i).map Entry.pair = (c.entry? i).map Entry.pair) :
    d.pairsAt order = c.pairsAt order := by
  unfold pairsAt
  exact List.filterMap_congr h

theorem Linked.length_pairsAt {c : BoundedCache κ ν} {l : List Nat}
    (h : ∀ i ∈ l, ∃ e, c.entry? i = some e) : (c.pairsAt l).length = l.length := by
  induction l with
  | nil => rfl
  | cons i rest ih =>
    obtain ⟨e, he⟩ := h i List.mem_cons_self
    rw [pairsAt_cons he, List.length_cons, List.length_cons,
      ih fun j hj => h j (List.mem_cons_of_mem i hj)]

/-- Following the links from the front gives the slots in their order. -/
theorem Linked.walk_eq {c : BoundedCache κ ν} {order front rest : List Nat} {steps : Nat}
    (h : Linked c order) (hsplit : order = front ++ rest) (hsteps : rest.length ≤ steps) :
    c.walk steps rest.head? = rest.filterMap fun i => (c.entry? i).map (i, ·) := by
  induction rest generalizing front steps with
  | nil => cases steps <;> rfl
  | cons i rest ih =>
    obtain ⟨steps, rfl⟩ : ∃ m, steps = m + 1 := ⟨steps - 1, by simp at hsteps; omega⟩
    obtain ⟨e, he, -, hnext⟩ := h.link front i rest hsplit
    have hsplit' : order = (front ++ [i]) ++ rest := by simp [hsplit]
    have htail := ih hsplit' (Nat.le_of_succ_le_succ hsteps)
    simp only [List.head?_cons, walk, he, hnext, htail, List.filterMap_cons, Option.map_some]

theorem Linked.inOrder_eq {c : BoundedCache κ ν} {order : List Nat} (h : Linked c order) :
    c.inOrder = order.filterMap fun i => (c.entry? i).map (i, ·) := by
  unfold inOrder
  rw [h.head]
  exact h.walk_eq (List.nil_append order).symm h.length_le

theorem Linked.toList_eq {c : BoundedCache κ ν} {order : List Nat} (h : Linked c order) :
    c.toList = c.pairsAt order := by
  unfold toList pairsAt
  rw [h.inOrder_eq, List.map_filterMap]
  refine List.filterMap_congr fun i _ => ?_
  rw [Option.map_map]
  rfl

/-- The keys are the first components of the contents. -/
theorem keys_eq (c : BoundedCache κ ν) : c.keys = c.toList.map (·.1) := by
  unfold keys toList
  rw [List.map_map]
  rfl

/-- A cache as a plain list. -/
def toLru (c : BoundedCache κ ν) : Lru κ ν :=
  ⟨c.capacity, c.toList, c.hits, c.misses, c.evictions⟩

end BoundedCache

end VersionChain
