import VersionChain.Store.Basic

/-!
# Rebuilding versions

The content of a column is rebuilt along its chain: from the wanted version back from base
to base until a cached version or a keyframe is met, and then forwards again, record by
record. Every version that is rebuilt on the way is cached. If a row is missing on the
chain there is no content; if a record cannot be read that is an error.

The way back ends because a base is always an earlier version.
-/

namespace VersionChain.StoreM

variable {ρ : Type} [RowStore ρ]

/-! ## Finding the row of a version -/

/-- Notes the locations of rows that were met, and gives the last row of version `seq` among
them. -/
def recordAll (table : TableId) (seq : Nat) (found : Option StoredRow) :
    List (Location × StoredRow) → StoreM ρ (Option StoredRow)
  | [] => return found
  | (location, row) :: rest => do
    recordLocation location ⟨⟨table, row.group⟩, row.seq⟩
    recordAll table seq (if row.seq = seq then some row else found) rest

/-- The row of a version by the index of the row store, or else among all rows of the
group. -/
def findRow (v : VersionId) : StoreM ρ (Option StoredRow) := do
  match ← onRows .reading (RowStore.find v) with
  | some (location, row) =>
    recordLocation location v
    return some row
  | none =>
    recordAll v.table v.seq none (← onRows .reading (RowStore.scan v.toGroupId))

/-- The row of a version. A cached location is tried first; if another row or none lies
there, the location is forgotten in both directions. -/
def locate (v : VersionId) : StoreM ρ (Option StoredRow) := do
  match ← locations (·.locationOf v) with
  | none => findRow v
  | some location =>
    match ← onRows .reading (RowStore.fetch ⟨v.table, location⟩) with
    | some row =>
      if row.group = v.group ∧ row.seq = v.seq then return some row
      else
        locations fun x => ((), (x.forgetReverse v).forgetForward ⟨v.table, location⟩)
        findRow v
    | none =>
      locations fun x => ((), (x.forgetReverse v).forgetForward ⟨v.table, location⟩)
      findRow v

/-! ## Following a chain -/

/-- The cache key of a column of a version. -/
def contentKey (v : VersionId) (column : Nat) : ContentKey := ⟨v, UInt16.ofNat column⟩

/-- The chain of a version: the content of a version to start from, if one was cached, and
the records behind it with their version numbers, the earliest first. -/
structure Chain where
  base : Option Bytes
  records : List (Nat × Bytes)
  deriving DecidableEq, Repr, Inhabited

/-- Follows the chain of a column from version `seq` back, with the records of the later
versions at hand. There is no chain if a row is missing. -/
def descend (group : GroupId) (column seq : Nat) (later : List (Nat × Bytes)) :
    StoreM ρ (Option Chain) := do
  let version : VersionId := ⟨group, seq⟩
  match ← content (·.get (contentKey version column)) with
  | some cached => return some ⟨some cached, later⟩
  | none =>
    match (← locate version).bind (·.columns[column]?) with
    | none => return none
    | some record =>
      match (← get).codec.tagOf record with
      | .error cause => throw (.corrupt version column cause)
      | .ok tag =>
        let records := (seq, record) :: later
        if tag.isKeyframe then return some ⟨none, records⟩
        else
          match _h : tag.baseSeq seq with
          | some base => descend group column base records
          | none => return none
  termination_by seq
  decreasing_by exact (Tag.baseSeq_lt _h).1

/-- Rebuilds the versions of a chain one after the other and caches each. Gives the last. -/
def ascend (group : GroupId) (column : Nat) (current : Option Bytes) :
    List (Nat × Bytes) → StoreM ρ (Option Bytes)
  | [] => return current
  | (seq, record) :: later => do
    let version : VersionId := ⟨group, seq⟩
    match (← get).codec.decode (current.getD #[]) record with
    | .error cause => throw (.corrupt version column cause)
    | .ok decoded =>
      let _ ← content (·.put (contentKey version column) decoded)
      ascend group column (some decoded) later

/-- The content of a column of a version; `none` if the version, or one that it was written
against, is not stored. -/
def resolve (v : VersionId) (column : Nat) : StoreM ρ (Option Bytes) := do
  if v.seq = 0 then return none
  else
    match ← descend v.toGroupId column v.seq [] with
    | some chain => ascend v.toGroupId column chain.base chain.records
    | none => return none

end VersionChain.StoreM
