import VersionChain.Key
import VersionChain.Store.Row
import VersionChain.Store.Service
import VersionChain.Store.Statistics

/-!
# Stores

A store keeps versions of groups in tables. It puts a row store, a codec and the way to
resolve indirect keys together with a service, knows the settings of its tables, and
publishes statistics. Its operations are computations on the store that may fail; what was
changed before a failure stays changed.
-/

namespace VersionChain

/-- What is known of a table. -/
structure TableState where
  settings : TableSettings
  columns : Nat
  deriving DecidableEq, Repr, Inhabited

/-- What was being done with the row store when it failed. -/
inductive RowActivity where
  | reading
  | readingMaxSeq (table : TableId)
  | appending (seq : Nat) (table : TableId)
  | truncating (table : TableId)
  | dropping (table : TableId)
  deriving DecidableEq, Repr

/-- Why an operation of a store failed. -/
inductive StoreError where
  | key (cause : KeyError)
  | noTable (table : TableId)
  | columnCount (table : TableId) (columns given : Nat)
  | noColumn (table : TableId) (columns column : Nat)
  | tableExists (table : TableId)
  | tooManyColumns (table : TableId)
  | tableSettings (table : TableId) (cause : SettingsError)
  | serviceSettings (cause : SettingsError)
  /-- The codec did not write a keyframe. -/
  | noKeyframe
  | rows (activity : RowActivity) (cause : RowError)
  /-- A stored record cannot be read. -/
  | corrupt (version : VersionId) (column : Nat) (cause : RecordError)
  deriving DecidableEq, Repr

/-- Largest number of columns of a table. -/
def maxColumns : Nat := 65535

/-- What an activity puts in front of its failure. -/
def RowActivity.context : RowActivity → String
  | reading => ""
  | readingMaxSeq table => s!"reading max sequence of table {table}: "
  | appending seq table => s!"appending seq {seq} to table {table}: "
  | truncating table => s!"truncating table {table}: "
  | dropping table => s!"dropping table {table}: "

/-- Wording of a store error with all that led to it. -/
def StoreError.message : StoreError → String
  | key cause => s!"could not hash group key: {cause.chain}"
  | noTable table => s!"table {table} does not exist"
  | columnCount table columns given => s!"table {table} has {columns} delta columns, got {given}"
  | noColumn table columns column =>
    s!"table {table} has {columns} delta columns, asked for column {column}"
  | tableExists table => s!"table {table} already exists"
  | tooManyColumns table => s!"table {table}: at most {maxColumns} delta columns are supported"
  | tableSettings table cause => s!"invalid settings for table {table}: {cause.message}"
  | serviceSettings cause => s!"invalid cache configuration: {cause.message}"
  | noKeyframe => "codec failed to encode a keyframe"
  | rows activity cause => activity.context ++ cause.message
  | corrupt version column cause =>
    s!"corrupt delta record: table {version.table}, group {version.group.display}, " ++
      s!"seq {version.seq}, column {column}: {cause.message}"

/-- A version store over rows of type `ρ`. -/
structure Store (ρ : Type) where
  service : Service
  rows : ρ
  codec : Codec
  unpacker : Unpacker
  tables : Std.HashMap TableId TableState
  statistics : Statistics

/-- Computations on a store. -/
abbrev StoreM (ρ : Type) := ExceptT StoreError (StateM (Store ρ))

namespace Store

variable {ρ : Type}

/-- A store without tables. -/
def new (service : Service) (rows : ρ) (codec : Codec) (unpacker : Unpacker := .inRowOnly) :
    Store ρ :=
  { service, rows, codec, unpacker, tables := ∅, statistics := {} }

/-- The settings of a table, if it exists. -/
def tableSettings (s : Store ρ) (table : TableId) : Option TableSettings :=
  s.tables[table]?.map (·.settings)

/-- The number of columns of a table, if it exists. -/
def tableColumns (s : Store ρ) (table : TableId) : Option Nat :=
  s.tables[table]?.map (·.columns)

/-- The store in words. -/
def describe (s : Store ρ) : String :=
  s!"DeltaStore \x7b service: {s.service.describe}, tables: {s.tables.size}, .. \x7d"

end Store

namespace StoreM

variable {ρ : Type}

/-! ## Access to the parts -/

/-- A step of the sequence allocator. -/
def sequences (f : SequenceAllocator → α × SequenceAllocator) : StoreM ρ α :=
  modifyGet fun s =>
    let (result, sequences) := f s.service.sequences
    (result, { s with service.sequences := sequences })

/-- A step of the location index. -/
def locations (f : LocationIndex → α × LocationIndex) : StoreM ρ α :=
  modifyGet fun s =>
    let (result, locations) := f s.service.locations
    (result, { s with service.locations := locations })

/-- A step of the content cache. -/
def content (f : ContentCache → α × ContentCache) : StoreM ρ α :=
  modifyGet fun s =>
    let (result, content) := f s.service.content
    (result, { s with service.content := content })

/-- A step of the staging buffer. -/
def staging (f : StagingBuffer → α × StagingBuffer) : StoreM ρ α :=
  modifyGet fun s =>
    let (result, staging) := f s.service.staging
    (result, { s with service.staging := staging })

/-- A step of the scheduler. -/
def scheduler (f : Scheduler → α × Scheduler) : StoreM ρ α :=
  modifyGet fun s =>
    let (result, scheduler) := f s.service.scheduler
    (result, { s with service.scheduler := scheduler })

/-- An operation of the row store. -/
def onRows (activity : RowActivity) (action : RowM ρ α) : StoreM ρ α := fun s =>
  let (result, rows) := action s.rows
  (result.mapError (.rows activity), { s with rows })

/-- Notes that a version lies at a location. -/
def recordLocation (location : Location) (v : VersionId) : StoreM ρ Unit :=
  locations fun x => ((), x.record location v)

/-! ## What most operations start with -/

/-- The fingerprint of a key. -/
def fingerprint (key : Key) : StoreM ρ Fingerprint := do
  match key.fingerprint (← get).unpacker with
  | .ok group => return group
  | .error cause => throw (.key cause)

/-- What is known of a table that has to exist. -/
def tableState (table : TableId) : StoreM ρ TableState := do
  match (← get).tables[table]? with
  | some state => return state
  | none => throw (.noTable table)

/-- The advisory lock of the group of a key. -/
def lockOf (table : TableId) (key : Key) : StoreM ρ UInt64 :=
  return lockId table (← fingerprint key)

end StoreM

end VersionChain
