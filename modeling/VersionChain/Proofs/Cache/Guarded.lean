import VersionChain.Proofs.Cache.Tombstones

/-!
# Operations that can break off

Every operation of a bounded cache once more, with what can break it off: a bucket or a slot that
is looked up outside of its array, a slot that has to be live and is free, a count that is lowered
below zero, a mask of no buckets, and a search or a walk without end. Where this happens there is
no result.

* `Guarded.unlink`, `Guarded.pushBack` — a slot that is linked is live;
* `Guarded.probe`, `Guarded.probeVacant` — a bucket that is looked at is there, and so is the slot
  it leads to;
* `Guarded.removeSlot`, `Guarded.seat` — a count that is lowered is positive;
* `Guarded.perform` — one command.
-/

namespace VersionChain.BoundedCache.Guarded

variable {κ ν : Type}

/-! ## The order of use -/

/-- Changes the entry in slot `i`, which has to be live. -/
def modifyEntry (c : BoundedCache κ ν) (i : Nat) (f : Entry κ ν → Entry κ ν) :
    Option (BoundedCache κ ν) := do
  let _ ← c.entry? i
  some (c.modifyEntry i f)

def linkNext (c : BoundedCache κ ν) (i next : Option Nat) : Option (BoundedCache κ ν) :=
  match i with
  | some i => modifyEntry c i ({ · with next })
  | none => some { c with head := next }

def linkPrev (c : BoundedCache κ ν) (i prev : Option Nat) : Option (BoundedCache κ ν) :=
  match i with
  | some i => modifyEntry c i ({ · with prev })
  | none => some { c with tail := prev }

/-- Takes slot `i` out of the order. -/
def unlink (c : BoundedCache κ ν) (i : Nat) : Option (BoundedCache κ ν) := do
  let entry ← c.entry? i
  let c ← modifyEntry c i ({ · with prev := none, next := none })
  let c ← linkNext c entry.prev entry.next
  linkPrev c entry.next entry.prev

/-- Puts slot `i` behind the last. -/
def pushBack (c : BoundedCache κ ν) (i : Nat) : Option (BoundedCache κ ν) := do
  let last := c.tail
  let c ← modifyEntry c i ({ · with prev := last, next := none })
  let c ← linkNext c last (some i)
  some { c with tail := some i }

/-- Makes slot `i` the most recently used. -/
def moveToBack (c : BoundedCache κ ν) (i : Nat) : Option (BoundedCache κ ν) :=
  if c.tail = some i then some c
  else do
    let c ← unlink c i
    pushBack c i

/-- The live slots met on the way from slot `i` on. A way of more slots than there are has no
end. -/
def walk (c : BoundedCache κ ν) :
    (steps : Nat) → (i : Option Nat) → Option (List (Nat × Entry κ ν))
  | _, none => some []
  | 0, some _ => none
  | steps + 1, some i => do
    match ← c.slots[i]? with
    | .live entry => do
      let rest ← walk c steps entry.next
      some ((i, entry) :: rest)
    | .free _ => some []

/-- The live slots from the least to the most recently used. -/
def inOrder (c : BoundedCache κ ν) : Option (List (Nat × Entry κ ν)) :=
  walk c c.slots.size c.head

/-! ## Probing -/

/-- Searches `steps` buckets from `pos` on for one that leads nowhere. -/
def probeVacant (c : BoundedCache κ ν) : (steps : Nat) → (pos : Nat) → Option (Option Nat)
  | 0, _ => some none
  | steps + 1, pos => do
    match ← c.buckets[pos]? with
    | .occupied _ => probeVacant c steps (c.bucketAfter pos)
    | _ => some (some pos)

/-- The first bucket on the way of a key that leads nowhere. -/
def vacantBucket (c : BoundedCache κ ν) (key : κ) : Option (Option Nat) :=
  if c.buckets.size = 0 then none else probeVacant c c.buckets.size (c.home key)

/-- Leads the live slot `i` from the first empty bucket on the way of its key. The search for that
bucket goes on until there is one. -/
def reseat (c : BoundedCache κ ν) (i : Nat) (key : κ) : Option (BoundedCache κ ν) := do
  match ← vacantBucket c key with
  | some pos =>
    modifyEntry { c with buckets := c.buckets.setIfInBounds pos (.occupied i) } i
      ({ · with bucket := pos })
  | none => none

/-- Reseats the live ones of `n` slots from slot `i` on. -/
def reseatFrom (c : BoundedCache κ ν) : (n : Nat) → (i : Nat) → Option (BoundedCache κ ν)
  | 0, _ => some c
  | n + 1, i => do
    match ← c.slots[i]? with
    | .live entry => do
      let c ← reseat c i entry.key
      reseatFrom c n (i + 1)
    | .free _ => reseatFrom c n (i + 1)

/-- Fills all buckets anew if more than a quarter of them are tombstones. -/
def sweep (c : BoundedCache κ ν) : Option (BoundedCache κ ν) :=
  if c.buckets.size / 4 < c.tombstones then
    if c.buckets.size = 0 then none
    else
      reseatFrom { c with buckets := .replicate c.buckets.size .empty, tombstones := 0 }
        c.slots.size 0
  else some c

/-! ## Entries that go and entries that come -/

/-- Frees slot `i`, which has to be live, with its bucket. -/
def removeSlot (c : BoundedCache κ ν) (i : Nat) :
    Option (Option (κ × ν) × BoundedCache κ ν) := do
  let c ← unlink c i
  let entry ← c.entry? i
  if c.len = 0 ∨ c.buckets.size ≤ entry.bucket then none
  else
    let c ← sweep { c with
      slots := c.slots.setIfInBounds i (.free c.freeHead)
      freeHead := some i
      len := c.len - 1
      buckets := c.buckets.setIfInBounds entry.bucket .tombstone
      tombstones := c.tombstones + 1 }
    some (some (entry.key, entry.value), c)

/-- Gives up the least recently used entry. -/
def popOldest (c : BoundedCache κ ν) : Option (Option (κ × ν) × BoundedCache κ ν) :=
  match c.head with
  | some i => removeSlot { c with evictions := c.evictions + 1 } i
  | none => some (none, c)

/-- Gives up the least recently used entry of a full cache. -/
def makeRoom (c : BoundedCache κ ν) : Option (Option (κ × ν) × BoundedCache κ ν) :=
  if c.capacity ≤ c.len then popOldest c else some (none, c)

/-- Frees slots one after the other. -/
def removeSlots (c : BoundedCache κ ν) : List Nat → Option (BoundedCache κ ν)
  | [] => some c
  | i :: rest => do
    let (_, c) ← removeSlot c i
    removeSlots c rest

/-- Keeps only the entries with a property. -/
def retain (c : BoundedCache κ ν) (keep : κ → ν → Bool) :
    Option (List (κ × ν) × BoundedCache κ ν) := do
  let order ← inOrder c
  let doomed := order.filter fun (_, e) => !keep e.key e.value
  let c ← removeSlots c (doomed.map (·.1))
  some (doomed.map fun (_, e) => (e.key, e.value), c)

/-- Puts an entry into a slot. The first free slot has to be there. -/
def allocate (c : BoundedCache κ ν) (entry : Entry κ ν) :
    Option (Option Nat × BoundedCache κ ν) :=
  match c.freeHead with
  | some i => do
    let _ ← c.slots[i]?
    some (c.allocate entry)
  | none => some (c.allocate entry)

/-- Puts a new entry into bucket `pos`. A tombstone that is taken has to be counted. -/
def seat (c : BoundedCache κ ν) (pos : Nat) (key : κ) (value : ν) :
    Option (Bool × BoundedCache κ ν) := do
  match ← allocate c { key, value, bucket := pos } with
  | (none, c) => some (false, c)
  | (some i, c) => do
    let old ← c.buckets[pos]?
    if old = .tombstone ∧ c.tombstones = 0 then none
    else
      let tombstones :=
        if c.buckets[pos]? = some .tombstone then c.tombstones - 1 else c.tombstones
      let d ← pushBack
        { c with tombstones, buckets := c.buckets.setIfInBounds pos (.occupied i) } i
      some (true, { d with len := c.len + 1 })

/-! ## Commands -/

variable [DecidableEq κ]

/-- Searches `steps` buckets from `pos` on for the slot of a key. -/
def probe (c : BoundedCache κ ν) (key : κ) :
    (steps : Nat) → (pos : Nat) → Option (Option Nat)
  | 0, _ => some none
  | steps + 1, pos => do
    match ← c.buckets[pos]? with
    | .empty => some none
    | .tombstone => probe c key steps (c.bucketAfter pos)
    | .occupied slot => do
      match ← c.slots[slot]? with
      | .live entry =>
        if entry.key = key then some (some slot) else probe c key steps (c.bucketAfter pos)
      | .free _ => probe c key steps (c.bucketAfter pos)

/-- The slot that holds a key. Without buckets there is nothing to search. -/
def find (c : BoundedCache κ ν) (key : κ) : Option (Option Nat) :=
  if c.buckets.size = 0 then some none else probe c key c.buckets.size (c.home key)

/-- Looks a key up and changes its value. -/
def update (c : BoundedCache κ ν) (key : κ) (f : ν → ν) :
    Option (Option ν × BoundedCache κ ν) := do
  match ← find c key with
  | some i => do
    let c ← moveToBack { c with hits := c.hits + 1 } i
    let _ ← c.slots[i]?
    some ((c.entry? i).map (·.value), c.modifyEntry i fun e => { e with value := f e.value })
  | none => some (none, { c with misses := c.misses + 1 })

/-- The value of a key. -/
def peek (c : BoundedCache κ ν) (key : κ) : Option (Option ν) := do
  match ← find c key with
  | some i => do
    let _ ← c.slots[i]?
    some ((c.entry? i).map (·.value))
  | none => some none

/-- Removes the entry of a key. -/
def remove (c : BoundedCache κ ν) (key : κ) : Option (Option ν × BoundedCache κ ν) := do
  match ← find c key with
  | some i => do
    let (removed, c) ← removeSlot c i
    some (removed.map (·.2), c)
  | none => some (none, c)

/-- Stores a value under a key and makes it the most recently used. -/
def insert (c : BoundedCache κ ν) (key : κ) (value : ν) :
    Option (Insertion κ ν × BoundedCache κ ν) :=
  if c.capacity = 0 then some (.rejected, c)
  else do
    match ← find c key with
    | some i => do
      let c ← moveToBack c i
      match ← c.slots[i]? with
      | .live entry => some (.replaced entry.value, c.modifyEntry i ({ · with value }))
      | .free _ => some (.rejected, c)
    | none => do
      let (evicted, c) ← makeRoom c
      match ← vacantBucket c key with
      | none => some (.rejected, c)
      | some pos => do
        match ← seat c pos key value with
        | (false, c) => some (.rejected, c)
        | (true, c) =>
          match evicted with
          | some (oldKey, oldValue) => some (.evicted oldKey oldValue, c)
          | none => some (.inserted, c)

/-- Carries out a command. -/
def perform (c : BoundedCache κ ν) :
    CacheCommand κ ν → Option (CacheAnswer κ ν × BoundedCache κ ν)
  | .get key => (update c key id).map fun r => (.value r.1, r.2)
  | .update key f => (update c key f).map fun r => (.value r.1, r.2)
  | .peek key => (peek c key).map fun found => (.value found, c)
  | .contains key => (find c key).map fun found => (.present found.isSome, c)
  | .insert key value => (insert c key value).map fun r => (.insertion r.1, r.2)
  | .remove key => (remove c key).map fun r => (.value r.1, r.2)
  | .popOldest => (popOldest c).map fun r => (.oldest r.1, r.2)
  | .retain keep => (retain c keep).map fun r => (.gone r.1, r.2)
  | .clear => some (.done, c.clear)

end VersionChain.BoundedCache.Guarded
