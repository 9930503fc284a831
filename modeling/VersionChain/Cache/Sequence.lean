import VersionChain.Cache.Bounded.Operations
import VersionChain.Digest.Narrow
import VersionChain.Fingerprint
import VersionChain.Settings.Basic

/-!
# The sequence allocator

For each group the number of its latest version is cached, so that the next one can be
given out without looking through the table. The cache only advises: the number of a group
that is not cached has to be read from the rows. Each operation is one atomic step.
-/

namespace VersionChain

/-- A group of a table. -/
structure GroupId where
  table : TableId
  group : Fingerprint
  deriving DecidableEq, Hashable, Repr, Inhabited

namespace GroupId

/-- The bytes by which a group is placed in a cache. -/
def bytes (g : GroupId) : List UInt8 :=
  littleEndian 4 g.table.toNat ++ littleEndian 8 g.group.high.toNat ++
    littleEndian 8 g.group.low.toNat

/-- Places a group in a cache. -/
def hash (g : GroupId) : UInt64 := Digest.narrow g.bytes.toArray

end GroupId

/-- The latest version number of each cached group. -/
structure SequenceAllocator where
  map : BoundedCache GroupId Nat
  deriving Inhabited

namespace SequenceAllocator

/-- Bytes that a budget counts for one group. -/
def entryBytes : Nat := 72

/-- An allocator that caches at most `capacity` groups. -/
def new (capacity : Nat) : SequenceAllocator := ⟨.new GroupId.hash capacity⟩

/-- An allocator for a budget in mebibytes. -/
def ofBudget (mb : Nat) : SequenceAllocator := new (capacityForBudget mb entryBytes)

/-- The cached number of a group. -/
def get (a : SequenceAllocator) (g : GroupId) : Option Nat × SequenceAllocator :=
  let (seq, map) := a.map.get g
  (seq, ⟨map⟩)

/-- Caches a number for a group. A cache that takes nothing drops it. -/
def set (a : SequenceAllocator) (g : GroupId) (seq : Nat) : SequenceAllocator :=
  ⟨(a.map.insert g seq).2⟩

/-- Caches a number for a group unless a larger one is cached. -/
def raise (a : SequenceAllocator) (g : GroupId) (seq : Nat) : SequenceAllocator :=
  match a.map.update g (max · seq) with
  | (some _, map) => ⟨map⟩
  | (none, map) => set ⟨map⟩ g seq

/-- Gives out the number after `stored`, the largest one that the caller found in the rows,
or after the cached one if that is larger. -/
def allocateAfter (a : SequenceAllocator) (g : GroupId) (stored : Nat) :
    Nat × SequenceAllocator :=
  match a.map.update g (max · stored + 1) with
  | (some cached, map) => (max cached stored + 1, ⟨map⟩)
  | (none, map) => (stored + 1, set ⟨map⟩ g (stored + 1))

/-- Gives out the next number of a group; 0 if the group is not cached. -/
def next (a : SequenceAllocator) (g : GroupId) : Nat × SequenceAllocator :=
  match a.map.update g (· + 1) with
  | (some cached, map) => (cached + 1, ⟨map⟩)
  | (none, map) => (0, ⟨map⟩)

/-- Takes back `expected` if it is still the latest number. Tells whether it was. -/
def rollback (a : SequenceAllocator) (g : GroupId) (expected : Nat) : Bool × SequenceAllocator :=
  match a.map.update g (fun cached => if cached = expected then cached - 1 else cached) with
  | (some cached, map) => (cached = expected ∧ 0 < expected, ⟨map⟩)
  | (none, map) => (false, ⟨map⟩)

/-- Forgets the groups of a table. Gives their number. -/
def invalidate (a : SequenceAllocator) (table : TableId) : Nat × SequenceAllocator :=
  let (removed, map) := a.map.retain fun g _ => g.table ≠ table
  (removed.length, ⟨map⟩)

/-- The counters. -/
def stats (a : SequenceAllocator) : CacheStats := a.map.stats

end SequenceAllocator

end VersionChain
