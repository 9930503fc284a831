import VersionChain.Cache.Location

/-!
# Rows and row stores

A version is stored as one row with a delta record for each column. Where rows are kept is
up to a row store: it gives out a location for each row and finds rows by location, by
version, or by group. Any of its operations may fail.
-/

namespace VersionChain

/-- One stored version. -/
structure StoredRow where
  group : Fingerprint
  seq : Nat
  /-- The delta record of each column. -/
  columns : Array Bytes
  deriving DecidableEq, Repr, Inhabited

/-- The operations of a row store that can be made to fail. -/
inductive RowOperation where
  | fetch | find | scan | maxSeq | truncate | drop
  deriving DecidableEq, Repr, Inhabited

/-- The name of an operation. -/
def RowOperation.name : RowOperation → String
  | fetch => "fetch"
  | find => "find"
  | scan => "scan"
  | maxSeq => "max_seq"
  | truncate => "truncate"
  | drop => "drop_table"

/-- Why a row store failed. -/
inductive RowError where
  /-- The store would not take the row. -/
  | rejected (table : TableId)
  /-- The table has as many places as it can have. -/
  | full (table : TableId)
  /-- The operation was made to fail. -/
  | injected (operation : RowOperation)
  deriving DecidableEq, Repr

/-- Wording of a row store error. -/
def RowError.message : RowError → String
  | rejected table => s!"row store rejected append to table {table}"
  | full table => s!"table {table} is full"
  | injected operation => s!"injected {operation.name} failure"

/-- Computations on a row store of type `ρ`. What was changed before a failure stays. -/
abbrev RowM (ρ : Type) := ExceptT RowError (StateM ρ)

/-- Places where rows are kept. -/
class RowStore (ρ : Type) where
  /-- Stores a row and gives its location. -/
  append : TableId → StoredRow → RowM ρ Location
  /-- The row at a location, if there is one. -/
  fetch : PlaceId → RowM ρ (Option StoredRow)
  /-- The row of a version by way of an index. A store without an index finds nothing. -/
  find : VersionId → RowM ρ (Option (Location × StoredRow))
  /-- Every row of a group. -/
  scan : GroupId → RowM ρ (List (Location × StoredRow))
  /-- The largest version number of a group; 0 if it has no rows. -/
  maxSeq : GroupId → RowM ρ Nat
  /-- Removes every row of a table. -/
  truncate : TableId → RowM ρ Unit
  /-- Removes a table. -/
  drop : TableId → RowM ρ Unit

end VersionChain
