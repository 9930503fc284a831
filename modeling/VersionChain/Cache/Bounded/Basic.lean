/-!
# Bounded caches: representation

A bounded cache holds at most a fixed number of entries and gives up the one that was used
least recently when it is full. Entries live in *slots*. An array of *buckets*, at least
twice as long as the capacity, leads from a key to its slot by linear probing; a removed
entry leaves a tombstone in its bucket, so that keys seated behind it are still found.
The live slots form a doubly linked list from the least to the most recently used, the
free slots a singly linked one.
-/

namespace VersionChain

/-- Where probing looks for a key. -/
inductive Bucket where
  | empty
  | tombstone
  | occupied (slot : Nat)
  deriving DecidableEq, Repr, Inhabited

/-- A cached value with its key, the bucket that leads to it and its neighbours in order of
use. -/
structure Entry (κ ν : Type) where
  key : κ
  value : ν
  bucket : Nat
  prev : Option Nat := none
  next : Option Nat := none
  deriving DecidableEq, Repr

/-- A place for an entry. -/
inductive Slot (κ ν : Type) where
  | free (next : Option Nat)
  | live (entry : Entry κ ν)
  deriving DecidableEq, Repr

/-- What became of an insertion. -/
inductive Insertion (κ ν : Type) where
  /-- The entry is new and nothing had to go. -/
  | inserted
  /-- The key was there; this was its value. -/
  | replaced (old : ν)
  /-- The entry is new and this one had to go. -/
  | evicted (key : κ) (value : ν)
  /-- Nothing was stored. -/
  | rejected
  deriving DecidableEq, Repr

/-- The counters of a cache. -/
structure CacheStats where
  capacity : Nat
  live : Nat
  hits : Nat
  misses : Nat
  evictions : Nat
  deriving DecidableEq, Repr, Inhabited

/-- Share of the lookups that hit; zero before the first. -/
def CacheStats.hitRatio (s : CacheStats) : Float :=
  if s.hits + s.misses = 0 then 0 else s.hits.toFloat / (s.hits + s.misses).toFloat

/-- A cache of at most `capacity` entries. -/
structure BoundedCache (κ ν : Type) where
  /-- Places the keys. -/
  hash : κ → UInt64
  buckets : Array Bucket
  slots : Array (Slot κ ν)
  /-- First free slot. -/
  freeHead : Option Nat
  /-- Least recently used slot. -/
  head : Option Nat
  /-- Most recently used slot. -/
  tail : Option Nat
  capacity : Nat
  len : Nat
  tombstones : Nat
  hits : Nat
  misses : Nat
  evictions : Nat

namespace BoundedCache

variable {κ ν : Type}

/-- Largest capacity of a cache. -/
def maxCapacity : Nat := 0x3FFFFFFF

/-- The first of the numbers `power`, `2 * power`, `4 * power`, … that is at least `n`. -/
def doubledUpTo (n power : Nat) : Nat :=
  if power = 0 ∨ n ≤ power then power else doubledUpTo n (2 * power)
termination_by n - power

/-- Number of buckets for a capacity: a power of two, at least eight and at least twice the
capacity; none for the capacity zero. -/
def bucketCount (capacity : Nat) : Nat :=
  if capacity = 0 then 0 else max (doubledUpTo (2 * capacity) 1) 8

/-- An empty cache. With the capacity zero it never holds anything. -/
def new (hash : κ → UInt64) (capacity : Nat) : BoundedCache κ ν :=
  let capacity := min capacity maxCapacity
  { hash, capacity
    buckets := .replicate (bucketCount capacity) .empty
    slots := #[]
    freeHead := none, head := none, tail := none
    len := 0, tombstones := 0, hits := 0, misses := 0, evictions := 0 }

instance : Inhabited (BoundedCache κ ν) := ⟨new (fun _ => 0) 0⟩

/-- The counters. -/
def stats (c : BoundedCache κ ν) : CacheStats :=
  ⟨c.capacity, c.len, c.hits, c.misses, c.evictions⟩

/-- The size of the cache in words. -/
def describe (c : BoundedCache κ ν) : String :=
  s!"BoundedCache \x7b capacity: {c.capacity}, len: {c.len}, " ++
    s!"buckets: {c.buckets.size}, tombstones: {c.tombstones} \x7d"

/-- Whether nothing is cached. -/
def isEmpty (c : BoundedCache κ ν) : Bool := c.len = 0

/-- The live entry in slot `i`. -/
def entry? (c : BoundedCache κ ν) (i : Nat) : Option (Entry κ ν) :=
  match c.slots[i]? with
  | some (.live entry) => some entry
  | _ => none

/-- Changes the live entry in slot `i`; a free slot stays as it is. -/
def modifyEntry (c : BoundedCache κ ν) (i : Nat) (f : Entry κ ν → Entry κ ν) :
    BoundedCache κ ν :=
  { c with slots := c.slots.modify i fun
      | .live entry => .live (f entry)
      | slot => slot }

/-- The live slots met on the way from slot `i` along the order of use, over at most `steps`
slots. -/
def walk (c : BoundedCache κ ν) : (steps : Nat) → (i : Option Nat) → List (Nat × Entry κ ν)
  | 0, _ => []
  | _, none => []
  | steps + 1, some i =>
    match c.entry? i with
    | some entry => (i, entry) :: walk c steps entry.next
    | none => []

/-- The live slots from the least to the most recently used. -/
def inOrder (c : BoundedCache κ ν) : List (Nat × Entry κ ν) := c.walk c.slots.size c.head

/-- The keys from the least to the most recently used. -/
def keys (c : BoundedCache κ ν) : List κ := c.inOrder.map (·.2.key)

/-- The cached pairs from the least to the most recently used. -/
def toList (c : BoundedCache κ ν) : List (κ × ν) := c.inOrder.map fun (_, e) => (e.key, e.value)

end BoundedCache

end VersionChain
