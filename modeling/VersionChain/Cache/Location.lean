import VersionChain.Cache.Sequence
import VersionChain.Text.Hex

/-!
# The location index

Two caches connect the place of a row with its version: one leads from a location to a
version number, the other from a version to its location. Rows can move, so whoever uses a
location looks whether the row is still there.
-/

namespace VersionChain

/-- The place of a row, as given out by the row storage. -/
structure Location where
  address : Nat
  deriving DecidableEq, Hashable, Repr, Inhabited

namespace Location

/-- A location as it is shown. -/
def display (l : Location) : String := Hex.marked l.address

/-- A location with the name of the type around it. -/
def describe (l : Location) : String := "Location(" ++ l.display ++ ")"

end Location

/-- A location in a table. -/
structure PlaceId where
  table : TableId
  location : Location
  deriving DecidableEq, Hashable, Repr

/-- Places a location in a cache. -/
def PlaceId.hash (p : PlaceId) : UInt64 :=
  Digest.narrow (littleEndian 4 p.table.toNat ++ littleEndian 8 p.location.address).toArray

/-- A version of a group. -/
structure VersionId extends GroupId where
  seq : Nat
  deriving DecidableEq, Hashable, Repr, Inhabited

namespace VersionId

/-- The bytes by which a version is placed in a cache. -/
def bytes (v : VersionId) : List UInt8 := v.toGroupId.bytes ++ littleEndian 8 v.seq

/-- Places a version in a cache. -/
def hash (v : VersionId) : UInt64 := Digest.narrow v.bytes.toArray

end VersionId

/-- The counters of both directions. -/
structure LocationStats where
  forward : CacheStats
  reverse : CacheStats
  deriving DecidableEq, Repr, Inhabited

/-- Locations and versions, each by the other. -/
structure LocationIndex where
  /-- Version numbers by location. -/
  forward : BoundedCache PlaceId Nat
  /-- Locations by version. -/
  reverse : BoundedCache VersionId Location
  deriving Inhabited

namespace LocationIndex

/-- Bytes that a budget counts for one row in both directions. -/
def entryBytes : Nat := 144

/-- An index of at most `capacity` rows in each direction. -/
def new (capacity : Nat) : LocationIndex :=
  ⟨.new PlaceId.hash capacity, .new VersionId.hash capacity⟩

/-- An index for a budget in mebibytes. -/
def ofBudget (mb : Nat) : LocationIndex := new (capacityForBudget mb entryBytes)

/-- Notes that a version lies at a location. -/
def record (x : LocationIndex) (location : Location) (v : VersionId) : LocationIndex :=
  ⟨(x.forward.insert ⟨v.table, location⟩ v.seq).2, (x.reverse.insert v location).2⟩

/-- The cached number of the version at a location. -/
def seqAt (x : LocationIndex) (p : PlaceId) : Option Nat × LocationIndex :=
  let (seq, forward) := x.forward.get p
  (seq, { x with forward })

/-- The cached location of a version. -/
def locationOf (x : LocationIndex) (v : VersionId) : Option Location × LocationIndex :=
  let (location, reverse) := x.reverse.get v
  (location, { x with reverse })

/-- Forgets where a version lies. -/
def forgetReverse (x : LocationIndex) (v : VersionId) : LocationIndex :=
  { x with reverse := (x.reverse.remove v).2 }

/-- Forgets what lies at a location. -/
def forgetForward (x : LocationIndex) (p : PlaceId) : LocationIndex :=
  { x with forward := (x.forward.remove p).2 }

/-- Forgets a table in both directions. Gives the number of entries that went. -/
def invalidate (x : LocationIndex) (table : TableId) : Nat × LocationIndex :=
  let (places, forward) := x.forward.retain fun p _ => p.table ≠ table
  let (versions, reverse) := x.reverse.retain fun v _ => v.table ≠ table
  (places.length + versions.length, ⟨forward, reverse⟩)

/-- The counters of both directions. -/
def stats (x : LocationIndex) : LocationStats := ⟨x.forward.stats, x.reverse.stats⟩

end LocationIndex

end VersionChain
