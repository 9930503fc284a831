import VersionChain.Cache.Bounded.Probe
import VersionChain.Cache.Bounded.Recency

/-!
# Bounded caches: operations

Looking a key up makes it the most recently used and is counted; peeking does neither.
Inserting into a full cache first gives up the least recently used entry. Once more than a
quarter of the buckets are tombstones, all buckets are filled anew.
-/

namespace VersionChain.BoundedCache

variable {κ ν : Type} [DecidableEq κ]

/-- Looks a key up and changes its value. Gives the value from before. -/
def update (c : BoundedCache κ ν) (key : κ) (f : ν → ν) : Option ν × BoundedCache κ ν :=
  match c.find? key with
  | some i =>
    let c := { c with hits := c.hits + 1 }.moveToBack i
    ((c.entry? i).map (·.value), c.modifyEntry i fun e => { e with value := f e.value })
  | none => (none, { c with misses := c.misses + 1 })

/-- Looks a key up. -/
def get (c : BoundedCache κ ν) (key : κ) : Option ν × BoundedCache κ ν := c.update key id

/-- The value of a key. Neither counted nor a use. -/
def peek? (c : BoundedCache κ ν) (key : κ) : Option ν :=
  (c.find? key).bind fun i => (c.entry? i).map (·.value)

/-- Whether a key is cached. Neither counted nor a use. -/
def contains (c : BoundedCache κ ν) (key : κ) : Bool := (c.find? key).isSome

/-- Puts an entry into a free slot, or into a new one while there are fewer slots than the
capacity. -/
def allocate (c : BoundedCache κ ν) (entry : Entry κ ν) : Option Nat × BoundedCache κ ν :=
  match c.freeHead with
  | some i =>
    let next := match c.slots[i]? with
      | some (.free next) => next
      | _ => some i
    (some i, { c with slots := c.slots.setIfInBounds i (.live entry), freeHead := next })
  | none =>
    if c.slots.size < c.capacity then
      (some c.slots.size, { c with slots := c.slots.push (.live entry) })
    else (none, c)

/-- Fills all buckets anew if more than a quarter of them are tombstones. -/
def sweep (c : BoundedCache κ ν) : BoundedCache κ ν :=
  if c.buckets.size / 4 < c.tombstones then c.rebuild else c

/-- Frees slot `i` and gives the entry that was in it. -/
def removeSlot (c : BoundedCache κ ν) (i : Nat) : Option (κ × ν) × BoundedCache κ ν :=
  match c.entry? i with
  | some entry =>
    let c := c.unlink i
    (some (entry.key, entry.value),
      { c with
        slots := c.slots.setIfInBounds i (.free c.freeHead)
        freeHead := some i
        len := c.len - 1
        buckets := c.buckets.setIfInBounds entry.bucket .tombstone
        tombstones := c.tombstones + 1 }.sweep)
  | none => (none, c)

/-- Removes the entry of a key. -/
def remove (c : BoundedCache κ ν) (key : κ) : Option ν × BoundedCache κ ν :=
  match c.find? key with
  | some i =>
    let (removed, c) := c.removeSlot i
    (removed.map (·.2), c)
  | none => (none, c)

/-- Gives up the least recently used entry. -/
def popOldest (c : BoundedCache κ ν) : Option (κ × ν) × BoundedCache κ ν :=
  match c.head with
  | some i => { c with evictions := c.evictions + 1 }.removeSlot i
  | none => (none, c)

/-- Puts a new entry into a bucket that leads nowhere. -/
def seat (c : BoundedCache κ ν) (pos : Nat) (key : κ) (value : ν) : Bool × BoundedCache κ ν :=
  match c.allocate { key, value, bucket := pos } with
  | (none, c) => (false, c)
  | (some i, c) =>
    let tombstones := if c.buckets[pos]? = some .tombstone then c.tombstones - 1 else c.tombstones
    (true, { ({ c with
      tombstones
      buckets := c.buckets.setIfInBounds pos (.occupied i) }.pushBack i) with
      len := c.len + 1 })

/-- Stores a value under a key and makes it the most recently used. -/
def insert (c : BoundedCache κ ν) (key : κ) (value : ν) : Insertion κ ν × BoundedCache κ ν :=
  if c.capacity = 0 then (.rejected, c)
  else match c.find? key with
    | some i =>
      let c := c.moveToBack i
      match c.entry? i with
      | some entry => (.replaced entry.value, c.modifyEntry i ({ · with value }))
      | none => (.rejected, c)
    | none =>
      let (evicted, c) := if c.capacity ≤ c.len then c.popOldest else (none, c)
      match c.vacantBucket? key with
      | none => (.rejected, c)
      | some pos =>
        match c.seat pos key value with
        | (false, c) => (.rejected, c)
        | (true, c) =>
          match evicted with
          | some (oldKey, oldValue) => (.evicted oldKey oldValue, c)
          | none => (.inserted, c)

/-- Frees slots one after the other. -/
def removeSlots (c : BoundedCache κ ν) : List Nat → BoundedCache κ ν
  | [] => c
  | i :: rest => (c.removeSlot i).2.removeSlots rest

/-- Keeps only the entries with a property. Gives the entries that went, the least recently
used first. -/
def retain (c : BoundedCache κ ν) (keep : κ → ν → Bool) : List (κ × ν) × BoundedCache κ ν :=
  let doomed := c.inOrder.filter fun (_, e) => !keep e.key e.value
  (doomed.map fun (_, e) => (e.key, e.value), c.removeSlots (doomed.map (·.1)))

/-- Removes every entry. The counters stay. -/
def clear (c : BoundedCache κ ν) : BoundedCache κ ν :=
  { c with
    buckets := .replicate c.buckets.size .empty
    slots := #[]
    freeHead := none, head := none, tail := none
    len := 0, tombstones := 0 }

end VersionChain.BoundedCache
