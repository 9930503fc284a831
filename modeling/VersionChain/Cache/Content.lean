import VersionChain.Cache.Location

/-!
# The content cache

Decoded column values are cached by table, group, version and column. The cache is bounded
by the number of its entries and by the sum of their lengths, and takes no value longer
than a ceiling; such values are counted.
-/

namespace VersionChain

/-- A column of a version. -/
structure ContentKey extends VersionId where
  column : UInt16
  deriving DecidableEq, Hashable, Repr, Inhabited

/-- Places a column of a version in a cache. -/
def ContentKey.hash (k : ContentKey) : UInt64 :=
  Digest.narrow (k.toVersionId.bytes ++ littleEndian 2 k.column.toNat).toArray

/-- The counters of the content cache. -/
structure ContentStats where
  cache : CacheStats
  residentBytes : Nat
  byteBudget : Nat
  maxEntry : Nat
  /-- How many values were refused for their length. -/
  oversized : Nat
  deriving DecidableEq, Repr, Inhabited

/-- Decoded values, the least recently used given up first. -/
structure ContentCache where
  map : BoundedCache ContentKey Bytes
  /-- Sum of the lengths of the cached values. -/
  residentBytes : Nat
  /-- Largest sum of lengths. -/
  byteBudget : Nat
  /-- Largest length of a value. -/
  maxEntry : Nat
  oversized : Nat
  deriving Inhabited

namespace ContentCache

/-- Bytes that a budget counts for one value: its entry and an average value. -/
def entryBytes : Nat := 88 + 256

/-- An empty cache with these bounds. -/
def new (capacity byteBudget maxEntry : Nat) : ContentCache :=
  ⟨.new ContentKey.hash capacity, 0, byteBudget, maxEntry, 0⟩

/-- A cache for a budget in mebibytes. -/
def ofBudget (mb maxEntry : Nat) : ContentCache :=
  new (capacityForBudget mb entryBytes) (min (mb * mebibyte) maxCount) maxEntry

/-- The cached value of a key. -/
def get (x : ContentCache) (key : ContentKey) : Option Bytes × ContentCache :=
  let (value, map) := x.map.get key
  (value, { x with map })

/-- Gives up values until `length` more bytes fit into the budget, over at most `steps`
values. -/
def makeRoom (x : ContentCache) (length : Nat) : (steps : Nat) → ContentCache
  | 0 => x
  | steps + 1 =>
    if x.residentBytes + length ≤ x.byteBudget then x
    else match x.map.popOldest with
      | (some (_, old), map) =>
        makeRoom { x with map, residentBytes := x.residentBytes - old.size } length steps
      | (none, map) => { x with map }

/-- Drops the value of a key. -/
def forget (x : ContentCache) (key : ContentKey) : ContentCache :=
  let (old, map) := x.map.remove key
  { x with map, residentBytes := x.residentBytes - (old.getD #[]).size }

/-- Stores a value for which there is room. -/
def store (x : ContentCache) (key : ContentKey) (value : Bytes) : Bool × ContentCache :=
  let length := value.size
  match x.map.insert key value with
  | (.inserted, map) => (true, { x with map, residentBytes := x.residentBytes + length })
  | (.evicted _ old, map) =>
    (true, { x with map, residentBytes := x.residentBytes - old.size + length })
  | (.replaced old, map) =>
    (true, { x with map, residentBytes := x.residentBytes - old.size + length })
  | (.rejected, map) => (false, { x with map })

/-- Caches a value. Tells whether it was taken. -/
def put (x : ContentCache) (key : ContentKey) (value : Bytes) : Bool × ContentCache :=
  if x.map.capacity = 0 then (false, x)
  else if x.maxEntry < value.size ∨ x.byteBudget < value.size then
    (false, { x with oversized := x.oversized + 1 })
  else
    let x := x.forget key
    (x.makeRoom value.size x.map.len).store key value

/-- Forgets the values of a table. Gives their number. -/
def invalidate (x : ContentCache) (table : TableId) : Nat × ContentCache :=
  let (removed, map) := x.map.retain fun key _ => key.table ≠ table
  let freed := totalSize (removed.map (·.2))
  (removed.length, { x with map, residentBytes := x.residentBytes - freed })

/-- The counters. -/
def stats (x : ContentCache) : ContentStats :=
  ⟨x.map.stats, x.residentBytes, x.byteBudget, x.maxEntry, x.oversized⟩

/-- The size of the cache in words. -/
def describe (x : ContentCache) : String :=
  s!"ContentCache \x7b live_entries: {x.map.len}, resident_bytes: {x.residentBytes}, " ++
    s!"byte_budget: {x.byteBudget} \x7d"

end ContentCache

end VersionChain
