import VersionChain.Cache.Bounded.Basic

/-!
# Plain lists as caches

What a bounded cache is, said without slots and buckets: a list of pairs from the least to the
most recently used, with a capacity and the counters. Looking a key up or storing a value moves
the pair to the end; a full list gives up its front pair for a new key.
-/

namespace VersionChain

/-- A cache as a plain list, the least recently used pair first. -/
structure Lru (κ ν : Type) where
  capacity : Nat
  pairs : List (κ × ν) := []
  hits : Nat := 0
  misses : Nat := 0
  evictions : Nat := 0
  deriving DecidableEq, Repr

namespace Lru

variable {κ ν : Type} [DecidableEq κ]

/-- The counters. -/
def stats (l : Lru κ ν) : CacheStats :=
  ⟨l.capacity, l.pairs.length, l.hits, l.misses, l.evictions⟩

/-- The keys, the least recently used first. -/
def keys (l : Lru κ ν) : List κ := l.pairs.map (·.1)

/-- The value of a key. -/
def peek? (l : Lru κ ν) (key : κ) : Option ν := (l.pairs.find? (·.1 = key)).map (·.2)

/-- Whether the list has a pair for a key. -/
def contains (l : Lru κ ν) (key : κ) : Bool := (l.peek? key).isSome

/-- The pairs of all other keys. -/
def without (l : Lru κ ν) (key : κ) : List (κ × ν) := l.pairs.filter (·.1 ≠ key)

/-- Looks a key up, changes its value and moves it to the end. Gives the value from before. -/
def update (l : Lru κ ν) (key : κ) (f : ν → ν) : Option ν × Lru κ ν :=
  match l.peek? key with
  | some value =>
    (some value, { l with pairs := l.without key ++ [(key, f value)], hits := l.hits + 1 })
  | none => (none, { l with misses := l.misses + 1 })

/-- Looks a key up and moves it to the end. -/
def get (l : Lru κ ν) (key : κ) : Option ν × Lru κ ν := l.update key id

/-- Gives up the front pair. -/
def popOldest (l : Lru κ ν) : Option (κ × ν) × Lru κ ν :=
  match l.pairs with
  | [] => (none, l)
  | oldest :: rest => (some oldest, { l with pairs := rest, evictions := l.evictions + 1 })

/-- Puts a pair at the end. -/
def append (l : Lru κ ν) (key : κ) (value : ν) : Lru κ ν :=
  { l with pairs := l.pairs ++ [(key, value)] }

/-- Stores a value under a key, at the end. A full list first gives up its front pair for a key
that it does not have. -/
def insert (l : Lru κ ν) (key : κ) (value : ν) : Insertion κ ν × Lru κ ν :=
  if l.capacity = 0 then (.rejected, l)
  else match l.peek? key with
    | some old => (.replaced old, { l with pairs := l.without key }.append key value)
    | none =>
      if l.pairs.length < l.capacity then (.inserted, l.append key value)
      else match l.popOldest with
        | (some (oldKey, oldValue), l) => (.evicted oldKey oldValue, l.append key value)
        | (none, l) => (.inserted, l.append key value)

/-- Removes the pair of a key. -/
def remove (l : Lru κ ν) (key : κ) : Option ν × Lru κ ν :=
  (l.peek? key, { l with pairs := l.without key })

/-- Keeps the pairs with a property. Gives the others. -/
def retain (l : Lru κ ν) (keep : κ → ν → Bool) : List (κ × ν) × Lru κ ν :=
  (l.pairs.filter fun p => !keep p.1 p.2, { l with pairs := l.pairs.filter fun p => keep p.1 p.2 })

/-- Removes every pair. -/
def clear (l : Lru κ ν) : Lru κ ν := { l with pairs := [] }

end Lru

end VersionChain
