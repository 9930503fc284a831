import VersionChain.Cache.Bounded.Operations

/-!
# Slots of a bounded cache

A slot is either live or free. What the operations do to slots is stated through the two views
`entry?` and `free?`, so that no later proof looks into the array of slots.

* `live_or_free` — every slot shows in one of the views;
* `entry?_modifyEntry` — changing an entry changes one live slot and no free one.
-/

namespace VersionChain

variable {κ ν : Type}

/-- The key of an entry and the bucket that leads to it. -/
def Entry.seat (e : Entry κ ν) : κ × Nat := (e.key, e.bucket)

/-- The key of an entry and its value. -/
def Entry.pair (e : Entry κ ν) : κ × ν := (e.key, e.value)

/-- The neighbours of an entry in the order of use. -/
def Entry.links (e : Entry κ ν) : Option Nat × Option Nat := (e.prev, e.next)

/-- The entry in a slot. -/
def Slot.entry? : Slot κ ν → Option (Entry κ ν)
  | live entry => some entry
  | free _ => none

/-- What a free slot names as the next free one. -/
def Slot.next? : Slot κ ν → Option (Option Nat)
  | live _ => none
  | free next => some next

namespace BoundedCache

/-! ## The two views of a slot -/

/-- What slot `i` names as the next free one, if it is free. -/
def free? (c : BoundedCache κ ν) (i : Nat) : Option (Option Nat) := c.slots[i]?.bind Slot.next?

theorem entry?_eq_bind (c : BoundedCache κ ν) (i : Nat) :
    c.entry? i = c.slots[i]?.bind Slot.entry? := by
  unfold entry?
  rcases c.slots[i]? with _ | _ | _ <;> rfl

theorem entry?_eq_some {c : BoundedCache κ ν} {i : Nat} {e : Entry κ ν} :
    c.entry? i = some e ↔ c.slots[i]? = some (.live e) := by
  rw [entry?_eq_bind]
  rcases c.slots[i]? with _ | _ | _ <;> simp [Slot.entry?]

theorem free?_eq_some {c : BoundedCache κ ν} {i : Nat} {next : Option Nat} :
    c.free? i = some next ↔ c.slots[i]? = some (.free next) := by
  unfold free?
  rcases c.slots[i]? with _ | _ | _ <;> simp [Slot.next?]

theorem lt_of_entry {c : BoundedCache κ ν} {i : Nat} {e : Entry κ ν} (h : c.entry? i = some e) :
    i < c.slots.size :=
  (Array.getElem?_eq_some_iff.mp (entry?_eq_some.mp h)).1

theorem lt_of_free? {c : BoundedCache κ ν} {i : Nat} {next : Option Nat}
    (h : c.free? i = some next) : i < c.slots.size :=
  (Array.getElem?_eq_some_iff.mp (free?_eq_some.mp h)).1

/-- Every slot is live or free. -/
theorem live_or_free (c : BoundedCache κ ν) {i : Nat} (h : i < c.slots.size) :
    (c.entry? i).isSome ∨ (c.free? i).isSome := by
  rw [entry?_eq_bind]
  unfold free?
  rw [Array.getElem?_eq_getElem h]
  cases c.slots[i] with
  | free next => exact .inr rfl
  | live entry => exact .inl rfl

/-- No slot is both live and free. -/
theorem entry?_eq_none_of_free? {c : BoundedCache κ ν} {i : Nat} {next : Option Nat}
    (h : c.free? i = some next) : c.entry? i = none := by
  unfold entry?
  rw [free?_eq_some.mp h]

/-! ## Changing one slot -/

theorem entry?_modifyEntry (c : BoundedCache κ ν) (i j : Nat) (f : Entry κ ν → Entry κ ν) :
    BoundedCache.entry? (c.modifyEntry i f) j = if j = i then (c.entry? j).map f else c.entry? j := by
  unfold entry? modifyEntry
  rw [Array.getElem?_modify]
  by_cases h : j = i
  · subst h
    rw [if_pos rfl, if_pos rfl]
    rcases c.slots[j]? with _ | _ | _ <;> rfl
  · rw [if_neg (Ne.symm h), if_neg h]

theorem entry?_modifyEntry_self {c : BoundedCache κ ν} {i : Nat} {e : Entry κ ν}
    (f : Entry κ ν → Entry κ ν) (h : c.entry? i = some e) :
    BoundedCache.entry? (c.modifyEntry i f) i = some (f e) := by
  rw [entry?_modifyEntry, if_pos rfl, h]
  rfl

theorem entry?_modifyEntry_ne (c : BoundedCache κ ν) {i j : Nat} (f : Entry κ ν → Entry κ ν)
    (h : j ≠ i) : BoundedCache.entry? (c.modifyEntry i f) j = c.entry? j := by
  rw [entry?_modifyEntry, if_neg h]

theorem free?_modifyEntry (c : BoundedCache κ ν) (i j : Nat) (f : Entry κ ν → Entry κ ν) :
    (c.modifyEntry i f).free? j = c.free? j := by
  unfold free? modifyEntry
  rw [Array.getElem?_modify]
  by_cases h : i = j
  · rw [if_pos h]
    rcases c.slots[j]? with _ | _ | _ <;> rfl
  · rw [if_neg h]

theorem size_modifyEntry (c : BoundedCache κ ν) (i : Nat) (f : Entry κ ν → Entry κ ν) :
    (c.modifyEntry i f).slots.size = c.slots.size :=
  Array.size_modify

/-! ## Replacing one slot -/

theorem bind_setIfInBounds {α β : Type} {xs : Array α} {i : Nat} (a : α) (hi : i < xs.size)
    (j : Nat) (f : α → Option β) :
    (xs.setIfInBounds i a)[j]?.bind f = if j = i then f a else xs[j]?.bind f := by
  by_cases hj : j = i
  · subst hj
    rw [Array.getElem?_setIfInBounds_self_of_lt hi, if_pos rfl]
    rfl
  · rw [Array.getElem?_setIfInBounds_ne (Ne.symm hj), if_neg hj]

theorem bind_push {α β : Type} (xs : Array α) (a : α) (j : Nat) (f : α → Option β) :
    (xs.push a)[j]?.bind f = if j = xs.size then f a else xs[j]?.bind f := by
  rw [Array.getElem?_push]
  by_cases hj : j = xs.size
  · rw [if_pos hj, if_pos hj]
    rfl
  · rw [if_neg hj, if_neg hj]

theorem entry?_set {c d : BoundedCache κ ν} {i : Nat} {slot : Slot κ ν}
    (h : d.slots = c.slots.setIfInBounds i slot) (hi : i < c.slots.size) (j : Nat) :
    d.entry? j = if j = i then slot.entry? else c.entry? j := by
  rw [entry?_eq_bind, entry?_eq_bind, h]
  exact bind_setIfInBounds slot hi j Slot.entry?

theorem free?_set {c d : BoundedCache κ ν} {i : Nat} {slot : Slot κ ν}
    (h : d.slots = c.slots.setIfInBounds i slot) (hi : i < c.slots.size) (j : Nat) :
    d.free? j = if j = i then slot.next? else c.free? j := by
  unfold free?
  rw [h]
  exact bind_setIfInBounds slot hi j Slot.next?

theorem entry?_push {c d : BoundedCache κ ν} {slot : Slot κ ν}
    (h : d.slots = c.slots.push slot) (j : Nat) :
    d.entry? j = if j = c.slots.size then slot.entry? else c.entry? j := by
  rw [entry?_eq_bind, entry?_eq_bind, h]
  exact bind_push c.slots slot j Slot.entry?

theorem free?_push {c d : BoundedCache κ ν} {slot : Slot κ ν}
    (h : d.slots = c.slots.push slot) (j : Nat) :
    d.free? j = if j = c.slots.size then slot.next? else c.free? j := by
  unfold free?
  rw [h]
  exact bind_push c.slots slot j Slot.next?

end BoundedCache

end VersionChain
