import VersionChain.Cache.Bounded.Basic

/-!
# Bounded caches: probing

The search for a key starts at its home bucket and goes around the array. It ends at the
key or at an empty bucket, and in any case after one round.
-/

namespace VersionChain.BoundedCache

variable {κ ν : Type}

/-- The bucket where the search for a key starts. -/
def home (c : BoundedCache κ ν) (key : κ) : Nat := (c.hash key).toNat % c.buckets.size

/-- The bucket after another one, around the array. -/
def bucketAfter (c : BoundedCache κ ν) (pos : Nat) : Nat := (pos + 1) % c.buckets.size

/-- Searches `steps` buckets from `pos` on for the slot of a key. -/
def probe [DecidableEq κ] (c : BoundedCache κ ν) (key : κ) : (steps : Nat) → (pos : Nat) → Option Nat
  | 0, _ => none
  | steps + 1, pos =>
    match c.buckets[pos]? with
    | none | some .empty => none
    | some .tombstone => probe c key steps (c.bucketAfter pos)
    | some (.occupied slot) =>
      if (c.entry? slot).any (·.key = key) then some slot
      else probe c key steps (c.bucketAfter pos)

/-- The slot that holds a key. -/
def find? [DecidableEq κ] (c : BoundedCache κ ν) (key : κ) : Option Nat :=
  c.probe key c.buckets.size (c.home key)

/-- Searches `steps` buckets from `pos` on for one that leads nowhere. -/
def probeVacant (c : BoundedCache κ ν) : (steps : Nat) → (pos : Nat) → Option Nat
  | 0, _ => none
  | steps + 1, pos =>
    match c.buckets[pos]? with
    | none => none
    | some (.occupied _) => probeVacant c steps (c.bucketAfter pos)
    | some _ => some pos

/-- The first bucket on the way of a key that leads nowhere. -/
def vacantBucket? (c : BoundedCache κ ν) (key : κ) : Option Nat :=
  c.probeVacant c.buckets.size (c.home key)

/-- Leads the live slot `i` with this key from the first empty bucket on the key's way. -/
def reseat (c : BoundedCache κ ν) (i : Nat) (key : κ) : BoundedCache κ ν :=
  match c.vacantBucket? key with
  | some pos =>
    { c with buckets := c.buckets.setIfInBounds pos (.occupied i) }.modifyEntry i
      ({ · with bucket := pos })
  | none => c

/-- Reseats the live ones of `n` slots from slot `i` on. -/
def reseatFrom (c : BoundedCache κ ν) : (n : Nat) → (i : Nat) → BoundedCache κ ν
  | 0, _ => c
  | n + 1, i =>
    match c.entry? i with
    | some entry => (c.reseat i entry.key).reseatFrom n (i + 1)
    | none => c.reseatFrom n (i + 1)

/-- Seats every live slot anew among empty buckets. Slots and their links stay. -/
def rebuild (c : BoundedCache κ ν) : BoundedCache κ ν :=
  { c with buckets := .replicate c.buckets.size .empty, tombstones := 0 }.reseatFrom
    c.slots.size 0

end VersionChain.BoundedCache
