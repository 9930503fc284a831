import VersionChain.Proofs.Cache.Commands
import VersionChain.Proofs.Cache.Purges

/-!
# What a content cache gives up

A value that is cached takes the place of the one under its key. Then the oldest values go until
its bytes fit into the budget, and one more goes from a full cache. What stays of the other values
is the longest end of their order of use that fits.

* `LongestEnd` — the longest end of a list that fits;
* `Guarded.put`, `Guarded.invalidate` — the operations with every subtraction checked;
* `Weighed.madeRoom`, `Weighed.stored` — what goes for a value, and what is there then;
* `ContentCache.accounts_exactly` — every run from an empty cache.
-/

namespace VersionChain

open BoundedCache

/-! ## Ends of a list -/

/-- Of the ends of a list that fit, this is the longest. -/
structure LongestEnd {α : Type} (Fits : List α → Prop) (l kept : List α) : Prop where
  isEnd : kept <:+ l
  fits : Fits kept
  longest : ∀ other, other <:+ l → Fits other → other.length ≤ kept.length

namespace LongestEnd

variable {α : Type} {Fits : List α → Prop} {l kept : List α}

theorem whole (h : Fits l) : LongestEnd Fits l l where
  isEnd := List.suffix_refl l
  fits := h
  longest _ hother _ := hother.length_le

/-- A list that does not fit loses its first element. -/
theorem cons {x : α} (hover : ¬ Fits (x :: l)) (h : LongestEnd Fits l kept) :
    LongestEnd Fits (x :: l) kept where
  isEnd := h.isEnd.trans (List.suffix_cons x l)
  fits := h.fits
  longest other hother hfits := by
    rcases List.suffix_cons_iff.mp hother with rfl | hrest
    · exact absurd hfits hover
    · exact h.longest other hrest hfits

/-- With a bound on the length, the elements in excess of it go as well. -/
theorem bounded (h : LongestEnd Fits l kept) (hends : ∀ a b, a <:+ b → Fits b → Fits a)
    (bound : Nat) :
    LongestEnd (fun a => Fits a ∧ a.length ≤ bound) l (kept.drop (kept.length - bound)) where
  isEnd := (List.drop_suffix _ kept).trans h.isEnd
  fits := by
    refine ⟨hends _ _ (List.drop_suffix _ kept) h.fits, ?_⟩
    rw [List.length_drop]
    omega
  longest other hother hfits := by
    have hle := h.longest other hother hfits.1
    have hbound := hfits.2
    rw [List.length_drop]
    omega

end LongestEnd

/-- A part at the end of a list weighs no more than the list. -/
theorem weight_le_of_suffix {κ : Type} {a b : List (κ × Bytes)} (h : a <:+ b) :
    weight a ≤ weight b := by
  obtain ⟨front, rfl⟩ := h
  rw [weight_append]
  exact Nat.le_add_left _ _

namespace Lru

variable {κ ν : Type} [DecidableEq κ]

theorem peek?_eq_none {l : Lru κ ν} {key : κ} (h : ∀ p ∈ l.pairs, p.1 ≠ key) :
    l.peek? key = none := by
  unfold peek?
  rw [List.find?_eq_none.mpr fun p hp => by simpa using h p hp]
  rfl

/-- A new key goes to the end. What the list has in excess of its capacity goes at the front, and
is counted. -/
theorem insert_absent {l : Lru κ ν} {key : κ} (value : ν) (hcapacity : l.capacity ≠ 0)
    (hlength : l.pairs.length ≤ l.capacity) (hnew : l.peek? key = none) :
    (l.insert key value).1 ≠ .rejected ∧
    (l.insert key value).2 =
      { l with
        pairs := l.pairs.drop (l.pairs.length - (l.capacity - 1)) ++ [(key, value)]
        evictions := l.evictions + (l.pairs.length - (l.capacity - 1)) } := by
  unfold insert
  rw [if_neg hcapacity, hnew]
  simp only
  by_cases hroom : l.pairs.length < l.capacity
  · have hnone : l.pairs.length - (l.capacity - 1) = 0 := by omega
    rw [if_pos hroom, hnone]
    exact ⟨nofun, rfl⟩
  · have hone : l.pairs.length - (l.capacity - 1) = 1 := by omega
    obtain ⟨oldest, rest, hpairs⟩ : ∃ oldest rest, l.pairs = oldest :: rest :=
      List.exists_cons_of_length_pos (by omega)
    rw [if_neg hroom, hone]
    unfold popOldest
    rw [hpairs]
    exact ⟨nofun, rfl⟩

end Lru

namespace ContentCache

/-! ## Checked subtractions -/

/-- One use of a content cache. -/
inductive ContentCommand where
  | get (key : ContentKey)
  | put (key : ContentKey) (value : Bytes)
  | invalidate (table : TableId)

/-- The cache after a command. -/
def perform (x : ContentCache) : ContentCommand → ContentCache
  | .get key => (x.get key).2
  | .put key value => (x.put key value).2
  | .invalidate table => (x.invalidate table).2

namespace Guarded

/-- The cache with the entries that are left once values of `bytes` bytes are gone. The count of
resident bytes has to be at least as large. -/
def release (x : ContentCache) (map : BoundedCache ContentKey Bytes) (bytes : Nat) :
    Option ContentCache :=
  if bytes ≤ x.residentBytes then
    some { x with map, residentBytes := x.residentBytes - bytes }
  else none

/-- Gives up values until `length` more bytes fit. Longer than `steps` values this must not
take. -/
def makeRoom (x : ContentCache) (length : Nat) : (steps : Nat) → Option ContentCache
  | 0 => if x.residentBytes + length ≤ x.byteBudget then some x else none
  | steps + 1 =>
    if x.residentBytes + length ≤ x.byteBudget then some x
    else match x.map.popOldest with
      | (some (_, old), map) => do
        let x ← release x map old.size
        makeRoom x length steps
      | (none, map) => some { x with map }

/-- Drops the value of a key. -/
def forget (x : ContentCache) (key : ContentKey) : Option ContentCache :=
  let (old, map) := x.map.remove key
  match old with
  | some old => release x map old.size
  | none => some { x with map }

/-- Stores a value for which there is room. -/
def store (x : ContentCache) (key : ContentKey) (value : Bytes) : Option (Bool × ContentCache) :=
  match x.map.insert key value with
  | (.inserted, map) => some (true, { x with map, residentBytes := x.residentBytes + value.size })
  | (.evicted _ old, map) | (.replaced old, map) => do
    let x ← release x map old.size
    some (true, { x with residentBytes := x.residentBytes + value.size })
  | (.rejected, map) => some (false, { x with map })

/-- Caches a value. Tells whether it was taken. -/
def put (x : ContentCache) (key : ContentKey) (value : Bytes) : Option (Bool × ContentCache) :=
  if x.map.capacity = 0 then some (false, x)
  else if x.maxEntry < value.size ∨ x.byteBudget < value.size then
    some (false, { x with oversized := x.oversized + 1 })
  else do
    let x ← forget x key
    let x ← makeRoom x value.size x.map.len
    store x key value

/-- Forgets the values of a table. Gives their number. -/
def invalidate (x : ContentCache) (table : TableId) : Option (Nat × ContentCache) := do
  let (removed, map) := x.map.retain fun key _ => key.table ≠ table
  let x ← release x map (totalSize (removed.map (·.2)))
  some (removed.length, x)

/-- The cache after a command. -/
def perform (x : ContentCache) : ContentCommand → Option ContentCache
  | .get key => some (x.get key).2
  | .put key value => (put x key value).map (·.2)
  | .invalidate table => (invalidate x table).map (·.2)

/-- The cache after a run. -/
def run (x : ContentCache) : List ContentCommand → Option ContentCache
  | [] => some x
  | command :: rest => do
    let x ← perform x command
    run x rest

theorem release_of_le {x : ContentCache} {map : BoundedCache ContentKey Bytes} {bytes : Nat}
    (h : bytes ≤ x.residentBytes) :
    release x map bytes = some { x with map, residentBytes := x.residentBytes - bytes } := by
  unfold release
  rw [if_pos h]

end Guarded

/-! ## Making room -/

/-- The bounds of a cache: on the entries, on the bytes and on the length of a value. -/
def limits (x : ContentCache) : Nat × Nat × Nat := (x.map.capacity, x.byteBudget, x.maxEntry)

/-- What giving up values for `length` bytes leaves. -/
structure MadeRoom (x : ContentCache) (length : Nat) (y : ContentCache) : Prop where
  weighed : Weighed y
  kept : LongestEnd (fun pairs => weight pairs + length ≤ x.byteBudget) x.map.toLru.pairs
    y.map.toLru.pairs
  evictions : y.map.evictions + y.map.toLru.pairs.length =
    x.map.evictions + x.map.toLru.pairs.length
  limits : y.limits = x.limits
  oversized : y.oversized = x.oversized

namespace Weighed

variable {x : ContentCache}

/-- Without values there is room for everything that fits at all. -/
theorem pairs_ne_nil (h : Weighed x) {length : Nat} (hlength : length ≤ x.byteBudget)
    (hover : ¬ x.residentBytes + length ≤ x.byteBudget) : x.map.toLru.pairs ≠ [] := by
  intro hpairs
  have hresident := h.resident
  rw [hpairs] at hresident
  have hzero : x.residentBytes = 0 := hresident
  omega

/-- While the bytes do not fit, the oldest value goes. -/
theorem makeRoom_succ (h : Weighed x) {length : Nat} (hlength : length ≤ x.byteBudget)
    (hover : ¬ x.residentBytes + length ≤ x.byteBudget) :
    ∃ p rest y, x.map.toLru.pairs = p :: rest ∧ Weighed y ∧
      y.map.toLru = { x.map.toLru with pairs := rest, evictions := x.map.toLru.evictions + 1 } ∧
      y.byteBudget = x.byteBudget ∧ y.maxEntry = x.maxEntry ∧ y.oversized = x.oversized ∧
      (∀ steps, x.makeRoom length (steps + 1) = y.makeRoom length steps) ∧
      ∀ steps, Guarded.makeRoom x length (steps + 1) = Guarded.makeRoom y length steps := by
  rcases h.popOldest with ⟨hnil, -⟩ | ⟨p, rest, hpairs, hpop, hlru, hle, hless⟩
  · exact absurd hnil (h.pairs_ne_nil hlength hover)
  · have heq : x.map.popOldest = (some p, x.map.popOldest.2) := Prod.ext hpop rfl
    refine ⟨p, rest, _, hpairs, hless, hlru, rfl, rfl, rfl, fun steps => ?_, fun steps => ?_⟩
    · rw [ContentCache.makeRoom, if_neg hover, heq]
    · rw [Guarded.makeRoom, if_neg hover, heq]
      simp only [Guarded.release_of_le hle]
      rfl

/-- Nothing goes where the bytes fit. -/
theorem madeRoom_self (h : Weighed x) {length : Nat}
    (hfits : x.residentBytes + length ≤ x.byteBudget) : MadeRoom x length x where
  weighed := h
  kept := .whole (h.resident ▸ hfits)
  evictions := rfl
  limits := rfl
  oversized := rfl

/-- By induction on the steps, which are enough to give up every value. -/
theorem madeRoom (h : Weighed x) {length steps : Nat} (hlength : length ≤ x.byteBudget)
    (hsteps : x.map.toLru.pairs.length ≤ steps) :
    MadeRoom x length (x.makeRoom length steps) ∧
      Guarded.makeRoom x length steps = some (x.makeRoom length steps) := by
  induction steps generalizing x with
  | zero =>
    have hnil : x.map.toLru.pairs = [] := List.length_eq_zero_iff.mp (Nat.le_zero.mp hsteps)
    have hfits : x.residentBytes + length ≤ x.byteBudget :=
      not_not.mp fun hover => h.pairs_ne_nil hlength hover hnil
    exact ⟨h.madeRoom_self hfits, if_pos hfits⟩
  | succ steps ih =>
    by_cases hfits : x.residentBytes + length ≤ x.byteBudget
    · rw [ContentCache.makeRoom, if_pos hfits, Guarded.makeRoom, if_pos hfits]
      exact ⟨h.madeRoom_self hfits, rfl⟩
    · obtain ⟨p, rest, y, hpairs, hy, hlru, hbudget, hmax, hoversized, hmodel, hguarded⟩ :=
        h.makeRoom_succ hlength hfits
      have hrest : y.map.toLru.pairs = rest := congrArg Lru.pairs hlru
      have hcount : y.map.evictions = x.map.evictions + 1 := congrArg Lru.evictions hlru
      have hcapacity : y.map.capacity = x.map.capacity := congrArg Lru.capacity hlru
      rw [hpairs, List.length_cons] at hsteps
      obtain ⟨hroom, hsome⟩ := ih hy (hbudget ▸ hlength) (by rw [hrest]; omega)
      rw [hmodel, hguarded]
      refine ⟨⟨hroom.weighed, ?_, ?_, ?_, hroom.oversized.trans hoversized⟩, hsome⟩
      · -- all the values do not fit, so the longest end that does is one of the rest
        have hover : ¬ weight (p :: rest) + length ≤ x.byteBudget := by
          rw [← hpairs, ← h.resident]
          exact hfits
        have hkept := hroom.kept
        rw [hrest, hbudget] at hkept
        rw [hpairs]
        exact hkept.cons hover
      · have hevictions := hroom.evictions
        rw [hrest, hcount] at hevictions
        rw [hpairs, List.length_cons]
        omega
      · rw [hroom.limits]
        unfold limits
        rw [hbudget, hmax, hcapacity]

end Weighed

/-! ## Caching a value -/

/-- Which of the other values can stay beside a value. -/
def Leaves (x : ContentCache) (value : Bytes) (others : List (ContentKey × Bytes)) : Prop :=
  weight others + value.size ≤ x.byteBudget ∧ others.length ≤ x.map.capacity - 1

/-- What caching a value leaves: of the other values, in their order, the longest end that can
stay, and then the value. The others that went are counted. -/
structure Stored (x : ContentCache) (others : List (ContentKey × Bytes)) (key : ContentKey)
    (value : Bytes) (y : ContentCache) : Prop where
  entries : ∃ kept, LongestEnd (x.Leaves value) others kept ∧
    y.map.toList = kept ++ [(key, value)] ∧
    y.map.evictions + kept.length = x.map.evictions + others.length
  oversized : y.oversized = x.oversized
  limits : y.limits = x.limits

namespace Weighed

variable {x : ContentCache}

theorem guarded_forget (h : Weighed x) (key : ContentKey) :
    Guarded.forget x key = some (x.forget key) := by
  have hsim := h.wellFormed.remove key
  have hwithout := Lru.weight_without h.wellFormed.distinct key
  have hanswer : (x.map.remove key).1 = x.map.toLru.peek? key := hsim.answer
  rw [← hanswer, ← h.resident] at hwithout
  unfold Guarded.forget ContentCache.forget
  cases hremove : x.map.remove key with
  | mk old map =>
    rw [hremove] at hwithout
    cases old with
    | none => rfl
    | some old =>
      have hle : old.size ≤ x.residentBytes := hwithout ▸ Nat.le_add_left _ _
      exact Guarded.release_of_le hle

theorem guarded_invalidate (h : Weighed x) (table : TableId) :
    Guarded.invalidate x table = some (x.invalidate table) := by
  have hle : totalSize ((x.map.retain fun key _ => key.table ≠ table).1.map (·.2)) ≤
      x.residentBytes := by
    have hsum := weight_filter (fun p => decide (p.1.table ≠ table)) x.map.toLru.pairs
    rw [(h.wellFormed.retain fun key _ => key.table ≠ table).answer, h.resident, ← hsum]
    exact Nat.le_add_left _ _
  unfold Guarded.invalidate ContentCache.invalidate
  simp only [Guarded.release_of_le hle]
  rfl

theorem guarded_store (h : Weighed x) (key : ContentKey) (value : Bytes) :
    Guarded.store x key value = some (x.store key value) := by
  obtain ⟨kept, hbefore, -⟩ := Lru.weight_insert h.wellFormed.distinct key value
  rw [← (h.wellFormed.insert key value).answer, ← h.resident] at hbefore
  unfold Guarded.store ContentCache.store
  cases hinsert : x.map.insert key value with
  | mk became map =>
    rw [hinsert] at hbefore
    have hlost : became.lost ≤ x.residentBytes := hbefore ▸ Nat.le_add_left _ _
    cases became with
    | inserted => rfl
    | replaced old =>
      have hle : old.size ≤ x.residentBytes := hlost
      simp only [Guarded.release_of_le hle]
      rfl
    | evicted oldKey old =>
      have hle : old.size ≤ x.residentBytes := hlost
      simp only [Guarded.release_of_le hle]
      rfl
    | rejected => rfl

/-- Storing a value whose key is not cached, in a cache that may be full. -/
theorem store_absent (h : Weighed x) {key : ContentKey} (value : Bytes)
    (hcapacity : x.map.capacity ≠ 0) (hnew : ∀ p ∈ x.map.toLru.pairs, p.1 ≠ key) :
    (x.store key value).1 = true ∧
    (x.store key value).2.map.toLru =
      { x.map.toLru with
        pairs := x.map.toLru.pairs.drop (x.map.toLru.pairs.length - (x.map.capacity - 1)) ++
          [(key, value)]
        evictions := x.map.evictions + (x.map.toLru.pairs.length - (x.map.capacity - 1)) } ∧
    (x.store key value).2.limits = x.limits ∧ (x.store key value).2.oversized = x.oversized := by
  have hsim := h.wellFormed.insert key value
  obtain ⟨order, vacant, hvalid⟩ := h.wellFormed
  have hlength : x.map.toLru.pairs.length ≤ x.map.toLru.capacity :=
    hvalid.length_pairs.trans_le hvalid.len_le
  obtain ⟨htaken, hlru⟩ := Lru.insert_absent value hcapacity hlength (Lru.peek?_eq_none hnew)
  have hcontents := hsim.contents.trans hlru
  have hsame : (x.map.insert key value).2.capacity = x.map.capacity :=
    congrArg Lru.capacity hcontents
  rw [← hsim.answer] at htaken
  unfold ContentCache.store limits
  cases hinsert : x.map.insert key value with
  | mk became map =>
    rw [hinsert] at htaken hcontents hsame
    cases became with
    | rejected => exact absurd rfl htaken
    | inserted | replaced | evicted =>
      exact ⟨rfl, hcontents, congrArg (·, x.byteBudget, x.maxEntry) hsame, rfl⟩

/-- A value that is short enough is taken. -/
theorem put_eq (h : Weighed x) (key : ContentKey) {value : Bytes} (hcapacity : x.map.capacity ≠ 0)
    (hmax : value.size ≤ x.maxEntry) (hbudget : value.size ≤ x.byteBudget) :
    ∃ y, MadeRoom (x.forget key) value.size y ∧ x.put key value = y.store key value ∧
      Guarded.put x key value = some (y.store key value) := by
  have hshort : ¬ (x.maxEntry < value.size ∨ x.byteBudget < value.size) := by omega
  have hlength : value.size ≤ (x.forget key).byteBudget := hbudget
  obtain ⟨hroom, hguarded⟩ :=
    (h.forget key).madeRoom hlength (h.forget key).wellFormed.length_pairs.le
  refine ⟨_, hroom, ?_, ?_⟩
  · rw [ContentCache.put, if_neg hcapacity, if_neg hshort]
  · rw [Guarded.put, if_neg hcapacity, if_neg hshort, h.guarded_forget key]
    simp only [Option.bind_eq_bind, Option.bind_some, hguarded]
    exact hroom.weighed.guarded_store key value

end Weighed

/-- First the bytes are made to fit, then the number. -/
theorem MadeRoom.store {x y : ContentCache} {value : Bytes} (h : MadeRoom x value.size y)
    (key : ContentKey) (hcapacity : x.map.capacity ≠ 0)
    (hnew : ∀ p ∈ x.map.toLru.pairs, p.1 ≠ key) :
    (y.store key value).1 = true ∧
      Stored x x.map.toLru.pairs key value (y.store key value).2 := by
  have hcap : y.map.capacity = x.map.capacity := congrArg (·.1) h.limits
  obtain ⟨htaken, hlru, hlimits, hoversized⟩ := h.weighed.store_absent value
    (hcap ▸ hcapacity) fun p hp => hnew p (h.kept.isEnd.subset hp)
  have hlongest : LongestEnd (x.Leaves value) x.map.toLru.pairs
      (y.map.toLru.pairs.drop (y.map.toLru.pairs.length - (x.map.capacity - 1))) := by
    refine h.kept.bounded (fun a b hab hb => ?_) (x.map.capacity - 1)
    exact Nat.le_trans (Nat.add_le_add_right (weight_le_of_suffix hab) _) hb
  have hpairs := congrArg Lru.pairs hlru
  have hgone : (y.store key value).2.map.evictions =
      y.map.evictions + (y.map.toLru.pairs.length - (y.map.capacity - 1)) :=
    congrArg Lru.evictions hlru
  have hevictions := h.evictions
  rw [hcap] at hpairs hgone
  refine ⟨htaken, ⟨_, hlongest, hpairs, ?_⟩, hoversized.trans h.oversized,
    hlimits.trans h.limits⟩
  rw [hgone, List.length_drop]
  omega

/-- The old value of the key is gone before anything else goes for the new one. -/
theorem Weighed.stored {x : ContentCache} (h : Weighed x) (key : ContentKey) {value : Bytes}
    (hcapacity : x.map.capacity ≠ 0) (hmax : value.size ≤ x.maxEntry)
    (hbudget : value.size ≤ x.byteBudget) :
    (x.put key value).1 = true ∧
    Stored x (x.map.toLru.without key) key value (x.put key value).2 ∧
    (x.put key value).2.residentBytes ≤ x.byteBudget ∧
    Guarded.put x key value = some (x.put key value) := by
  obtain ⟨y, hroom, hput, hguarded⟩ := h.put_eq key hcapacity hmax hbudget
  have hforget : (x.forget key).map.toLru =
      { x.map.toLru with pairs := x.map.toLru.without key } := (h.wellFormed.remove key).contents
  have hothers : (x.forget key).map.toLru.pairs = x.map.toLru.without key :=
    congrArg Lru.pairs hforget
  have hcap : (x.forget key).map.capacity = x.map.capacity := congrArg Lru.capacity hforget
  have hcount : (x.forget key).map.evictions = x.map.evictions := congrArg Lru.evictions hforget
  have hleaves : (x.forget key).Leaves value = x.Leaves value := by
    unfold Leaves
    rw [hcap]
    rfl
  obtain ⟨htaken, hstored⟩ := hroom.store key (hcap ▸ hcapacity) fun p hp =>
    (Lru.mem_without.mp (hothers ▸ hp)).2
  obtain ⟨kept, hlongest, hlist, hgone⟩ := hstored.entries
  rw [hothers, hleaves] at hlongest
  rw [hothers, hcount] at hgone
  have hweighed := h.put key value
  rw [hput] at hweighed ⊢
  refine ⟨htaken, ⟨⟨kept, hlongest, hlist, hgone⟩, hstored.oversized, ?_⟩, ?_, hguarded⟩
  · rw [hstored.limits]
    exact congrArg (·, x.byteBudget, x.maxEntry) hcap
  · have hpairs : (y.store key value).2.map.toLru.pairs = kept ++ [(key, value)] := hlist
    rw [hweighed.resident, hpairs, weight_concat]
    exact hlongest.fits.1

/-! ## Runs -/

/-- What holds in the course of a run from an empty cache. -/
structure Accounted (capacity byteBudget maxEntry : Nat) (x : ContentCache) : Prop where
  weighed : Weighed x
  within : x.residentBytes ≤ x.byteBudget
  limits : x.limits = (min capacity maxCapacity, byteBudget, maxEntry)

/-- The account of a content cache, and what caching any one value does to it. -/
structure ExactAccount (capacity byteBudget maxEntry : Nat) (x : ContentCache) : Prop where
  limits : x.limits = (min capacity maxCapacity, byteBudget, maxEntry)
  resident : x.residentBytes = weight x.map.toList
  withinBudget : x.residentBytes ≤ byteBudget
  counted : x.map.len = x.map.toList.length
  withinCapacity : x.map.len ≤ x.map.capacity
  takes : ∀ key value, (x.put key value).1 = true ↔
    0 < capacity ∧ value.size ≤ min maxEntry byteBudget
  taken : ∀ key value, (x.put key value).1 = true →
    Stored x (x.map.toLru.without key) key value (x.put key value).2
  refused : ∀ key value, (x.put key value).1 = false → (x.put key value).2 =
    { x with oversized := x.oversized + if capacity = 0 then 0 else 1 }

namespace Accounted

variable {capacity byteBudget maxEntry : Nat} {x : ContentCache}

theorem init (capacity byteBudget maxEntry : Nat) :
    Accounted capacity byteBudget maxEntry (new capacity byteBudget maxEntry) where
  weighed := weighed_new _ _ _
  within := Nat.zero_le _
  limits := rfl

theorem put_cases (h : Accounted capacity byteBudget maxEntry x) (key : ContentKey)
    (value : Bytes) :
    (0 < capacity ∧ value.size ≤ min maxEntry byteBudget ∧ x.map.capacity ≠ 0 ∧
      value.size ≤ x.maxEntry ∧ value.size ≤ x.byteBudget) ∨
    ¬ (0 < capacity ∧ value.size ≤ min maxEntry byteBudget) ∧
      x.put key value =
        (false, { x with oversized := x.oversized + if capacity = 0 then 0 else 1 }) ∧
      Guarded.put x key value =
        some (false, { x with oversized := x.oversized + if capacity = 0 then 0 else 1 }) := by
  obtain ⟨hcap, hrest⟩ := Prod.mk.inj h.limits
  obtain ⟨hbudget, hmax⟩ := Prod.mk.inj hrest
  have hzero : x.map.capacity = 0 ↔ capacity = 0 := by
    rw [hcap]
    unfold maxCapacity
    omega
  unfold ContentCache.put Guarded.put
  by_cases hnone : x.map.capacity = 0
  · have hcapacity := hzero.mp hnone
    rw [if_pos hnone, if_pos hnone, if_pos hcapacity]
    exact .inr ⟨fun hfits => by omega, rfl, rfl⟩
  · have hcapacity := mt hzero.mpr hnone
    by_cases hlong : x.maxEntry < value.size ∨ x.byteBudget < value.size
    · rw [if_neg hnone, if_pos hlong, if_neg hnone, if_pos hlong, if_neg hcapacity]
      exact .inr ⟨fun hfits => by omega, rfl, rfl⟩
    · exact .inl (by omega)

theorem get (h : Accounted capacity byteBudget maxEntry x) (key : ContentKey) :
    Accounted capacity byteBudget maxEntry (x.get key).2 := by
  have hcap : (x.get key).2.map.capacity = x.map.capacity :=
    (congrArg Lru.capacity (h.weighed.wellFormed.update key id).contents).trans
      (Lru.capacity_update x.map.toLru key id)
  refine ⟨h.weighed.get key, h.within, ?_⟩
  exact (congrArg (·, x.byteBudget, x.maxEntry) hcap).trans h.limits

theorem put (h : Accounted capacity byteBudget maxEntry x) (key : ContentKey) (value : Bytes) :
    Guarded.put x key value = some (x.put key value) ∧
      Accounted capacity byteBudget maxEntry (x.put key value).2 := by
  rcases h.put_cases key value with ⟨-, -, hcapacity, hmax, hbudget⟩ | ⟨-, hput, hguarded⟩
  · obtain ⟨-, hstored, hwithin, hguarded⟩ :=
      h.weighed.stored key hcapacity hmax hbudget
    have hsame : (x.put key value).2.byteBudget = x.byteBudget :=
      congrArg (·.2.1) hstored.limits
    exact ⟨hguarded, h.weighed.put key value, hsame ▸ hwithin, hstored.limits.trans h.limits⟩
  · rw [hput, hguarded]
    exact ⟨rfl, ⟨h.weighed.wellFormed, h.weighed.resident⟩, h.within, h.limits⟩

theorem invalidate (h : Accounted capacity byteBudget maxEntry x) (table : TableId) :
    Accounted capacity byteBudget maxEntry (x.invalidate table).2 := by
  obtain ⟨hweighed, hless⟩ := h.weighed.invalidate table
  have hsim := h.weighed.wellFormed.retain fun key _ => key.table ≠ table
  have hcap : (x.invalidate table).2.map.capacity = x.map.capacity :=
    congrArg Lru.capacity hsim.contents
  refine ⟨hweighed, ?_, ?_⟩
  · exact Nat.le_trans (Nat.le_add_right _ _) (hless.trans_le h.within)
  · exact (congrArg (·, x.byteBudget, x.maxEntry) hcap).trans h.limits

/-- One command. -/
theorem perform (h : Accounted capacity byteBudget maxEntry x) (command : ContentCommand) :
    Guarded.perform x command = some (x.perform command) ∧
      Accounted capacity byteBudget maxEntry (x.perform command) := by
  cases command with
  | get key => exact ⟨rfl, h.get key⟩
  | put key value =>
    obtain ⟨hguarded, hafter⟩ := h.put key value
    exact ⟨by rw [Guarded.perform, hguarded]; rfl, hafter⟩
  | invalidate table =>
    have hguarded := h.weighed.guarded_invalidate table
    exact ⟨by rw [Guarded.perform, hguarded]; rfl, h.invalidate table⟩

theorem run (h : Accounted capacity byteBudget maxEntry x) (commands : List ContentCommand) :
    Guarded.run x commands = some (commands.foldl ContentCache.perform x) ∧
      Accounted capacity byteBudget maxEntry (commands.foldl ContentCache.perform x) := by
  induction commands generalizing x with
  | nil => exact ⟨rfl, h⟩
  | cons command rest ih =>
    obtain ⟨hstep, hnext⟩ := h.perform command
    rw [Guarded.run, hstep]
    exact ih hnext

theorem account (h : Accounted capacity byteBudget maxEntry x) :
    ExactAccount capacity byteBudget maxEntry x where
  limits := h.limits
  resident := h.weighed.resident
  withinBudget := by
    have hbudget : x.byteBudget = byteBudget := congrArg (·.2.1) h.limits
    exact hbudget ▸ h.within
  counted := h.weighed.wellFormed.length_pairs.symm
  withinCapacity := by
    obtain ⟨order, vacant, hvalid⟩ := h.weighed.wellFormed
    exact hvalid.len.trans_le hvalid.len_le
  takes key value := by
    rcases h.put_cases key value with ⟨hsome, hfits, hcapacity, hmax, hbudget⟩ | ⟨hnot, hput, -⟩
    · exact iff_of_true (h.weighed.stored key hcapacity hmax hbudget).1 ⟨hsome, hfits⟩
    · rw [hput]
      exact iff_of_false Bool.false_ne_true hnot
  taken key value htaken := by
    rcases h.put_cases key value with ⟨-, -, hcapacity, hmax, hbudget⟩ | ⟨-, hput, -⟩
    · exact (h.weighed.stored key hcapacity hmax hbudget).2.1
    · rw [hput] at htaken
      cases htaken
  refused key value hrefused := by
    rcases h.put_cases key value with ⟨-, -, hcapacity, hmax, hbudget⟩ | ⟨-, hput, -⟩
    · rw [(h.weighed.stored key hcapacity hmax hbudget).1] at hrefused
      cases hrefused
    · rw [hput]

end Accounted

/-- Whatever is looked up, cached and forgotten, nothing is taken from the count of resident bytes
that is not in it, and the account is exact. -/
theorem accounts_exactly (capacity byteBudget maxEntry : Nat) (commands : List ContentCommand) :
    Guarded.run (new capacity byteBudget maxEntry) commands =
      some (commands.foldl perform (new capacity byteBudget maxEntry)) ∧
    ExactAccount capacity byteBudget maxEntry
      (commands.foldl perform (new capacity byteBudget maxEntry)) := by
  obtain ⟨hguarded, hafter⟩ := (Accounted.init capacity byteBudget maxEntry).run commands
  exact ⟨hguarded, hafter.account⟩

end ContentCache

end VersionChain
