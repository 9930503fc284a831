import VersionChain.Store.Resolve

/-!
# Inserting versions

A new version gets the number after the latest one of its group. Each of its columns is
written against up to `depth` versions before it, and the shortest record is kept; the
contents of those versions come from the staging buffer or are rebuilt. Once the row is
stored, its contents are staged and cached and its location is noted. An insert that fails
gives its number back.
-/

namespace VersionChain.StoreM

variable {ρ : Type} [RowStore ρ]

/-- The contents of columns `column`, `column + 1`, … of a version, `count` of them. -/
def resolveColumns (v : VersionId) (column : Nat) : (count : Nat) → StoreM ρ (List (Option Bytes))
  | 0 => return []
  | count + 1 => do
    let first ← resolve v column
    return first :: (← resolveColumns v (column + 1) count)

/-- The stored ones among `count` versions from `seq` on, with the contents of their
columns. -/
def warmRows (group : GroupId) (columns seq : Nat) : (count : Nat) → StoreM ρ (List StagedRow)
  | 0 => return []
  | count + 1 => do
    let contents ← resolveColumns ⟨group, seq⟩ 0 columns
    let rest ← warmRows group columns (seq + 1) count
    return if contents.any Option.isSome then ⟨seq, contents⟩ :: rest else rest

/-- Fills a newly claimed slot with the last `depth` versions before `v`. -/
def warmSlot (v : VersionId) (depth columns : Nat) (token : Token) : StoreM ρ Unit := do
  let first := max (v.seq - depth) 1
  let rows ← warmRows v.toGroupId columns first (v.seq - first)
  let _ ← staging (·.populate token rows)

/-- The token of a slot for version `v`. A slot that is claimed anew is filled first. -/
def claimSlot (v : VersionId) (depth columns : Nat) : StoreM ρ Token := do
  let (token, isNew) ← staging fun b =>
    let (token, isNew, b) := b.acquire v.toGroupId depth columns
    ((token, isNew), b)
  if isNew ∧ 1 < v.seq then warmSlot v depth columns token
  return token

/-- Bases for version `v` at the distances from `distance` on, `count` of them, that are not
among `bases` yet and are stored. -/
def missingBases (v : VersionId) (column : Nat) (bases : List RecentBase) (distance : Nat) :
    (count : Nat) → StoreM ρ (List RecentBase)
  | 0 => return []
  | count + 1 => do
    let seq := v.seq - distance
    if bases.any (·.seq = seq) then missingBases v column bases (distance + 1) count
    else
      match ← resolve ⟨v.toGroupId, seq⟩ column with
      | some content =>
        return ⟨seq, distance, content⟩ :: (← missingBases v column bases (distance + 1) count)
      | none => missingBases v column bases (distance + 1) count

/-- The bases for version `v` in a column, nearest first: those that are staged, and the
others rebuilt. -/
def collectBases (v : VersionId) (column depth : Nat) (token : Token) :
    StoreM ρ (List RecentBase) := do
  let wanted := min depth (v.seq - 1)
  let staged ← staging (·.recentBases token v.seq column wanted)
  if staged.length = wanted then return staged
  else
    let missing ← missingBases v column staged 1 wanted
    return RecentBase.sortByDistance (staged ++ missing)

/-- The record of a column of version `v`. -/
def encodeColumn (v : VersionId) (column : Nat) (settings : TableSettings) (token : Token)
    (value : Bytes) : StoreM ρ TaggedRecord := do
  let codec := (← get).codec
  match TaggedRecord.keyframe? codec value settings.extraPass with
  | none => throw .noKeyframe
  | some keyframe =>
    if settings.forcesKeyframe v.seq then return keyframe
    else
      let bases ← collectBases v column settings.depth token
      let candidates := bases.map fun b : RecentBase =>
        (⟨.back (.ofNat b.distance), b.content⟩ : Candidate)
      scheduler (·.execute codec value candidates keyframe settings.extraPass)

/-- The records of columns from `column` on, behind those in `done`. -/
def encodeColumns (v : VersionId) (column : Nat) (settings : TableSettings) (token : Token)
    (done : Array TaggedRecord) : List Bytes → StoreM ρ (Array TaggedRecord)
  | [] => return done
  | value :: rest => do
    let record ← encodeColumn v column settings token value
    encodeColumns v (column + 1) settings token (done.push record) rest

/-- Stages the contents of columns from `column` on. -/
def stageColumns (token : Token) (seq column : Nat) : List Bytes → StoreM ρ Unit
  | [] => return
  | value :: rest => do
    let _ ← staging (·.push token seq column value)
    stageColumns token seq (column + 1) rest

/-- Caches the contents of columns from `column` on. -/
def cacheColumns (v : VersionId) (column : Nat) : List Bytes → StoreM ρ Unit
  | [] => return
  | value :: rest => do
    let _ ← content (·.put (contentKey v column) value)
    cacheColumns v (column + 1) rest

/-- Stores version `v` with these contents. -/
def storeVersion (v : VersionId) (settings : TableSettings) (values : List Bytes) :
    StoreM ρ Outcome := do
  let token ← claimSlot v settings.depth values.length
  let records ← encodeColumns v 0 settings token #[] values
  let row : StoredRow := ⟨v.group, v.seq, records.map (·.bytes)⟩
  let location ← onRows (.appending v.seq v.table) (RowStore.append v.table row)
  stageColumns token v.seq 0 values
  let _ ← staging (·.commit token v.seq)
  recordLocation location v
  cacheColumns v 0 values
  return {
    group := v.group
    seq := v.seq
    location
    tags := records.toList.map (·.tag)
    rawBytes := totalSize values
    storedBytes := totalSize row.columns.toList }

/-- Gives out the number of the next version of a group: by the cache, or else after the
largest number among the rows. -/
def allocateSeq (group : GroupId) : StoreM ρ Nat := do
  let seq ← sequences (·.next group)
  if seq ≠ 0 then return seq
  else
    let stored ← onRows (.readingMaxSeq group.table) (RowStore.maxSeq group)
    sequences (·.allocateAfter group stored)

/-- Stores a new version of the group of a key, without publishing statistics. -/
def insertRow (table : TableId) (key : Key) (values : List Bytes) : StoreM ρ Outcome := do
  let group ← fingerprint key
  let state ← tableState table
  if values.length ≠ state.columns then
    throw (.columnCount table state.columns values.length)
  else
    let id : GroupId := ⟨table, group⟩
    let seq ← allocateSeq id
    tryCatch (storeVersion ⟨id, seq⟩ state.settings values) fun error => do
      let _ ← sequences (·.rollback id seq)
      throw error

/-- Stores a new version of the group of a key. -/
def insert (table : TableId) (key : Key) (values : List Bytes) : StoreM ρ Outcome := do
  let outcome ← insertRow table key values
  modify fun s => { s with statistics := s.statistics.record table outcome }
  return outcome

end VersionChain.StoreM
