import VersionChain.Store.Resolve

/-!
# Reading versions

Reads rebuild contents, and find version numbers and locations by the caches first and by
the row store otherwise. What is found in the row store is cached.
-/

namespace VersionChain.StoreM

variable {ρ : Type} [RowStore ρ]

/-- The contents of columns from `column` on, `count` of them, behind those in `done`;
`none` if one is missing. -/
def readColumns (v : VersionId) (column : Nat) (done : Array Bytes) :
    (count : Nat) → StoreM ρ (Option (Array Bytes))
  | 0 => return some done
  | count + 1 => do
    match ← resolve v column with
    | some value => readColumns v (column + 1) (done.push value) count
    | none => return none

/-- The contents of every column of a version; `none` if the version is not stored or its
chain is broken. -/
def getVersion (table : TableId) (key : Key) (seq : Nat) : StoreM ρ (Option (Array Bytes)) := do
  let state ← tableState table
  let group ← fingerprint key
  readColumns ⟨⟨table, group⟩, seq⟩ 0 #[] state.columns

/-- The content of one column of a version. -/
def getColumn (table : TableId) (key : Key) (seq column : Nat) : StoreM ρ (Option Bytes) := do
  let state ← tableState table
  if column < state.columns then
    let group ← fingerprint key
    resolve ⟨⟨table, group⟩, seq⟩ column
  else throw (.noColumn table state.columns column)

/-- The number of the latest version of a group; `none` if it has none. -/
def latestSeq (table : TableId) (key : Key) : StoreM ρ (Option Nat) := do
  let _ ← tableState table
  let id : GroupId := ⟨table, ← fingerprint key⟩
  match ← sequences (·.get id) with
  | some seq => return if 0 < seq then some seq else none
  | none =>
    let stored ← onRows .reading (RowStore.maxSeq id)
    if stored = 0 then return none
    else
      sequences fun a => ((), a.raise id stored)
      return some stored

/-- Notes the locations of rows and gives their version numbers. -/
def recordSeqs (table : TableId) : List (Location × StoredRow) → StoreM ρ (List Nat)
  | [] => return []
  | (location, row) :: rest => do
    recordLocation location ⟨⟨table, row.group⟩, row.seq⟩
    return row.seq :: (← recordSeqs table rest)

/-- The numbers of all stored versions of a group, in ascending order. -/
def history (table : TableId) (key : Key) : StoreM ρ (List Nat) := do
  let _ ← tableState table
  let id : GroupId := ⟨table, ← fingerprint key⟩
  let seqs ← recordSeqs table (← onRows .reading (RowStore.scan id))
  return seqs.mergeSort

/-- The number of the version at a location. A cached number counts only if the row at the
location bears it. -/
def seqAt (table : TableId) (location : Location) : StoreM ρ (Option Nat) := do
  let _ ← tableState table
  let place : PlaceId := ⟨table, location⟩
  let cached ← locations (·.seqAt place)
  let row ← onRows .reading (RowStore.fetch place)
  if cached.isSome ∧ cached = row.map (·.seq) then return cached
  else
    if cached.isSome then locations fun x => ((), x.forgetForward place)
    match row with
    | some row =>
      recordLocation location ⟨⟨table, row.group⟩, row.seq⟩
      return some row.seq
    | none => return none

/-- The published statistics of a group. -/
def groupStats (table : TableId) (key : Key) : StoreM ρ (Option GroupStats) := do
  let group ← fingerprint key
  return (← getThe (Store ρ)).statistics.get? ⟨table, group⟩

end VersionChain.StoreM
