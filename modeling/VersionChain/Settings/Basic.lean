import VersionChain.Text.Quoted

/-!
# Settings

A table is set up with the number of earlier versions that a new one may be written
against, the interval of forced keyframes, and whether an encoder may look harder for a
small record. The shared service is set up with the budgets of its caches, the number of
staging slots and the number of encoding threads.
-/

namespace VersionChain

/-- Largest depth of a table. -/
def maxDepth : Nat := 32

/-- Largest number of encoding threads. -/
def maxThreads : Nat := 64

/-- Bytes in a mebibyte. -/
def mebibyte : Nat := 1024 * 1024

/-- The largest 64-bit count; budgets beyond it count as this much. -/
def maxCount : Nat := 0xFFFFFFFFFFFFFFFF

/-- What can be wrong with settings. -/
inductive SettingsError where
  | invalidDepth (depth : Nat)
  | tooManyThreads (threads : Nat)
  | noStagingSlots
  /-- The text of a variable does not write a value. -/
  | unreadable (name : String) (text : String)
  deriving DecidableEq, Repr

/-- Wording of a settings error. -/
def SettingsError.message : SettingsError → String
  | invalidDepth depth => s!"depth must be in 1..={maxDepth}, got {depth}"
  | tooManyThreads threads => s!"num_encode_threads must be <= {maxThreads}, got {threads}"
  | noStagingSlots => "staging_slots must be > 0"
  | unreadable name text => s!"invalid value for {name}: {Text.quoted text}"

/-! ## Tables -/

/-- Settings of one table. -/
structure TableSettings where
  /-- How many of the latest versions a new one is tried against. -/
  depth : Nat := 3
  /-- Every version whose number is one past a multiple of this is a keyframe; with 0 only
  the first. -/
  keyframeEvery : Nat := 0
  /-- Whether encoders may take an extra pass for a smaller record. -/
  extraPass : Bool := false
  deriving DecidableEq, Repr, Inhabited

namespace TableSettings

/-- Whether version `seq` has to be a keyframe. -/
def forcesKeyframe (s : TableSettings) (seq : Nat) : Bool :=
  seq ≤ 1 ∨ (s.keyframeEvery > 0 ∧ (seq - 1) % s.keyframeEvery = 0)

/-- Checks that the depth is in range. -/
def validate (s : TableSettings) : Except SettingsError Unit :=
  if s.depth = 0 ∨ s.depth > maxDepth then .error (.invalidDepth s.depth) else .ok ()

/-- The settings with the names of their fields. -/
def describe (s : TableSettings) : String :=
  s!"DeltaConfig \x7b depth: {s.depth}, keyframe_every: {s.keyframeEvery}, " ++
    s!"enable_extra_pass: {s.extraPass} \x7d"

end TableSettings

/-! ## The shared service -/

/-- Settings of the shared service. -/
structure ServiceSettings where
  /-- Budget of the sequence cache in mebibytes. -/
  sequenceMb : Nat := 4
  /-- Budget of the location index, both directions together, in mebibytes. -/
  locationMb : Nat := 8
  /-- Budget of the content cache in mebibytes. -/
  contentMb : Nat := 64
  /-- Length of the longest value that is cached. -/
  contentMaxEntry : Nat := mebibyte
  /-- Number of staging slots. -/
  stagingSlots : Nat := 1024
  /-- Number of encoding threads; with 0 the caller encodes alone. -/
  threads : Nat := 4
  deriving DecidableEq, Repr, Inhabited

namespace ServiceSettings

/-- Budget of the content cache in bytes. -/
def contentBytes (s : ServiceSettings) : Nat := min (s.contentMb * mebibyte) maxCount

/-- Checks the number of slots, then the number of threads. -/
def validate (s : ServiceSettings) : Except SettingsError Unit :=
  if s.stagingSlots = 0 then .error .noStagingSlots
  else if s.threads > maxThreads then .error (.tooManyThreads s.threads)
  else .ok ()

/-- The settings with the names of their fields. -/
def describe (s : ServiceSettings) : String :=
  s!"CacheConfig \x7b sequence_cache_mb: {s.sequenceMb}, location_cache_mb: {s.locationMb}, " ++
    s!"content_cache_mb: {s.contentMb}, content_max_entry_bytes: {s.contentMaxEntry}, " ++
    s!"staging_slots: {s.stagingSlots}, num_encode_threads: {s.threads} \x7d"

end ServiceSettings

/-- How many entries of `entryBytes` bytes fit into a budget in mebibytes. -/
def capacityForBudget (mb entryBytes : Nat) : Nat :=
  min (mb * mebibyte) maxCount / max entryBytes 1

end VersionChain
