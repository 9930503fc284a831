import Std.Data.HashMap
import VersionChain.Store.Row

/-!
# Rows in memory

The rows of a table are numbered in the order in which they came; a row that is moved gets
a new number, and the old one stays vacant. A location is the number of the table and the
number of the row in one. An index leads from a version to the number of its row; a store
may be told to do without.
-/

namespace VersionChain

/-- The rows of one table. -/
structure TableRows where
  rows : Array (Option StoredRow) := #[]
  /-- The number of the row of each version. -/
  index : Std.HashMap (Fingerprint × Nat) Nat := ∅

namespace TableRows

instance : Inhabited TableRows := ⟨{}⟩

/-- Puts a row behind the others. -/
def push (t : TableRows) (row : StoredRow) : TableRows :=
  let slot := t.rows.size
  { index := t.index.insert (row.group, row.seq) slot
    rows := t.rows.push (some row) }

/-- The row with a number. -/
def row? (t : TableRows) (slot : Nat) : Option StoredRow := t.rows[slot]?.join

/-- Makes the place with a number vacant. The index stays. -/
def vacate (t : TableRows) (slot : Nat) : TableRows :=
  { t with rows := t.rows.setIfInBounds slot none }

/-- The rows with their numbers. -/
def live (t : TableRows) : List (Nat × StoredRow) :=
  t.rows.toList.zipIdx.filterMap fun (row, slot) => row.map (slot, ·)

/-- The rows of a group with their numbers. -/
def ofGroup (t : TableRows) (group : Fingerprint) : List (Nat × StoredRow) :=
  t.live.filter fun (_, row) => row.group = group

/-- The larger of a version number and that of the row at a place, if the row is one of the
group. -/
def raise (group : Fingerprint) (largest : Nat) : Option StoredRow → Nat
  | some row => if row.group = group then max largest row.seq else largest
  | none => largest

/-- The largest version number of a group; 0 if it has no rows. -/
def maxSeq (t : TableRows) (group : Fingerprint) : Nat := t.rows.foldl (raise group) 0

end TableRows

/-- How often a store was asked. -/
structure RowCounters where
  appends : Nat := 0
  fetches : Nat := 0
  finds : Nat := 0
  scans : Nat := 0
  deriving DecidableEq, Repr, Inhabited

/-- A row store in memory. -/
structure MemoryRows where
  tables : Std.HashMap TableId TableRows := ∅
  /-- Whether versions are found by the index. -/
  indexed : Bool := true
  /-- How many of the next appends are rejected. -/
  rejecting : Nat := 0
  counters : RowCounters := {}

namespace MemoryRows

instance : Inhabited MemoryRows := ⟨{}⟩

/-- Row numbers in a location. -/
def slotLimit : Nat := 0x100000000

/-- The location of a row. -/
def locationOf (table : TableId) (slot : Nat) : Location := ⟨table.toNat * slotLimit + slot⟩

/-- The number of the row at a location, if it is a location of the table. -/
def slotOf (p : PlaceId) : Option Nat :=
  if p.location.address / slotLimit % slotLimit = p.table.toNat then
    some (p.location.address % slotLimit)
  else none

/-- The rows of a table; none if there is no such table. -/
def rowsOf (m : MemoryRows) (table : TableId) : TableRows := m.tables.getD table {}

/-- The row at a location. -/
def row? (m : MemoryRows) (p : PlaceId) : Option StoredRow :=
  (slotOf p).bind (m.rowsOf p.table).row?

/-- The rows of a group with their locations, in the order of their numbers. -/
def ofGroup (m : MemoryRows) (g : GroupId) : List (Location × StoredRow) :=
  ((m.rowsOf g.table).ofGroup g.group).map fun (slot, row) => (locationOf g.table slot, row)

/-- Changes the rows of a table. -/
def modifyTable (m : MemoryRows) (table : TableId) (f : TableRows → TableRows) : MemoryRows :=
  { m with tables := m.tables.modify table f }

/-! ## Operations of a row store -/

/-- Stores a row behind the others of its table. -/
def append (table : TableId) (row : StoredRow) (m : MemoryRows) :
    Except RowError Location × MemoryRows :=
  if 0 < m.rejecting then (.error (.rejected table), { m with rejecting := m.rejecting - 1 })
  else
    let m := { m with counters.appends := m.counters.appends + 1 }
    let slot := (m.rowsOf table).rows.size
    let tables := m.tables.insertIfNew table {}
    if slotLimit ≤ slot then (.error (.full table), { m with tables })
    else (.ok (locationOf table slot), { m with tables }.modifyTable table (·.push row))

/-- The row at a location. -/
def fetch (p : PlaceId) (m : MemoryRows) : Option StoredRow × MemoryRows :=
  (m.row? p, { m with counters.fetches := m.counters.fetches + 1 })

/-- The row of a version by way of the index. -/
def find (v : VersionId) (m : MemoryRows) : Option (Location × StoredRow) × MemoryRows :=
  if m.indexed then
    let t := m.rowsOf v.table
    let found := t.index[(v.group, v.seq)]?.bind fun slot =>
      (t.row? slot).map fun row => (locationOf v.table slot, row)
    (found, { m with counters.finds := m.counters.finds + 1 })
  else (none, m)

/-- The rows of a group. -/
def scan (g : GroupId) (m : MemoryRows) : List (Location × StoredRow) × MemoryRows :=
  (m.ofGroup g, { m with counters.scans := m.counters.scans + 1 })

/-- The largest version number of a group; 0 if it has no rows. -/
def maxSeq (g : GroupId) (m : MemoryRows) : Nat × MemoryRows :=
  ((m.rowsOf g.table).maxSeq g.group, { m with counters.scans := m.counters.scans + 1 })

/-- Removes every row of a table. -/
def truncate (table : TableId) (m : MemoryRows) : MemoryRows := m.modifyTable table fun _ => {}

/-- Removes a table. -/
def drop (table : TableId) (m : MemoryRows) : MemoryRows :=
  { m with tables := m.tables.erase table }

instance : RowStore MemoryRows where
  append table row := append table row
  fetch p := fun m => (.ok (m.row? p), (m.fetch p).2)
  find v := fun m => let (found, m) := m.find v; (.ok found, m)
  scan g := fun m => let (found, m) := m.scan g; (.ok found, m)
  maxSeq g := fun m => let (seq, m) := m.maxSeq g; (.ok seq, m)
  truncate table := fun m => (.ok (), m.truncate table)
  drop table := fun m => (.ok (), m.drop table)

/-! ## Changes behind the back of the store above -/

/-- Moves a row to a new location. -/
def relocate (p : PlaceId) (m : MemoryRows) : Option Location × MemoryRows :=
  match slotOf p, m.row? p with
  | some slot, some row =>
    (some (locationOf p.table (m.rowsOf p.table).rows.size),
      m.modifyTable p.table fun t => (t.vacate slot).push row)
  | _, _ => (none, m)

/-- Deletes a row. -/
def remove (p : PlaceId) (m : MemoryRows) : Option StoredRow × MemoryRows :=
  match slotOf p, m.row? p with
  | some slot, some row =>
    (some row, m.modifyTable p.table fun t =>
      { t.vacate slot with index := t.index.erase (row.group, row.seq) })
  | _, _ => (none, m)

/-- Puts another record into a column of a row. Tells whether there is such a column. -/
def overwrite (p : PlaceId) (column : Nat) (record : Bytes) (m : MemoryRows) :
    Bool × MemoryRows :=
  match slotOf p, m.row? p with
  | some slot, some row =>
    if column < row.columns.size then
      let changed := { row with columns := row.columns.setIfInBounds column record }
      (true, m.modifyTable p.table fun t =>
        { t with rows := t.rows.setIfInBounds slot (some changed) })
    else (false, m)
  | _, _ => (false, m)

/-- Number of rows of a table. -/
def rowCount (m : MemoryRows) (table : TableId) : Nat := (m.rowsOf table).live.length

/-- Bytes in all records of a table. -/
def storedBytes (m : MemoryRows) (table : TableId) : Nat :=
  totalSize ((m.rowsOf table).live.flatMap fun (_, row) => row.columns.toList)

end MemoryRows

end VersionChain
