import VersionChain.Cache.Content
import VersionChain.Selection.Scheduler
import VersionChain.Staging.Buffer

/-!
# The shared service

One service holds the caches, the staging buffer and the scheduler, sized from its
settings. Any number of stores can share it.
-/

namespace VersionChain

/-- What an invalidation dropped. -/
structure Invalidated where
  sequences : Nat
  locations : Nat
  contents : Nat
  stagingSlots : Nat
  deriving DecidableEq, Repr, Inhabited

/-- Everything that was dropped. -/
def Invalidated.total (d : Invalidated) : Nat :=
  d.sequences + d.locations + d.contents + d.stagingSlots

/-- All counters of a service. -/
structure Metrics where
  sequence : CacheStats
  location : LocationStats
  content : ContentStats
  staging : StagingStats
  scheduler : SchedulerStats
  deriving DecidableEq, Repr, Inhabited

namespace Metrics

/-- The label at the start of a line, filled up to ten characters. -/
def label (name : String) : String := name.pushn ' ' (10 - name.length)

/-- The line of a cache. -/
def cacheLine (name : String) (s : CacheStats) : String :=
  s!"{label name} capacity={s.capacity} live={s.live} hits={s.hits} " ++
    s!"misses={s.misses} evictions={s.evictions}\n"

/-- The counters as text, one part a line. -/
def text (m : Metrics) : String :=
  cacheLine "sequence" m.sequence
  ++ cacheLine "loc.fwd" m.location.forward
  ++ cacheLine "loc.rev" m.location.reverse
  ++ cacheLine "content" m.content.cache
  ++ label "" ++ s!" resident={m.content.residentBytes}B budget={m.content.byteBudget}B " ++
    s!"oversized={m.content.oversized}\n"
  ++ label "staging" ++ s!" slots={m.staging.slots} claimed={m.staging.claimed} " ++
    s!"evicted_while_owned={m.staging.evictedWhileOwned} " ++
    s!"ownership_mismatches={m.staging.mismatches}\n"
  ++ label "encoder" ++ s!" threads={m.scheduler.threads} " ++
    s!"parallel={m.scheduler.parallelBatches} inline={m.scheduler.inlineBatches} " ++
    s!"failed={m.scheduler.failed}"

end Metrics

/-- The caches, the staging buffer and the scheduler. -/
structure Service where
  settings : ServiceSettings
  sequences : SequenceAllocator
  locations : LocationIndex
  content : ContentCache
  staging : StagingBuffer
  scheduler : Scheduler
  deriving Inhabited

namespace Service

/-- A service sized by settings that have been checked. -/
def ofSettings (s : ServiceSettings) : Service where
  settings := s
  sequences := .ofBudget s.sequenceMb
  locations := .ofBudget s.locationMb
  content := .ofBudget s.contentMb s.contentMaxEntry
  staging := .new s.stagingSlots
  scheduler := { threads := s.threads }

/-- Checks settings and sizes a service by them. -/
def new (s : ServiceSettings) : Except SettingsError Service := do
  s.validate
  return ofSettings s

/-- Stops the pool of the scheduler. Everything stays usable. -/
def detach (s : Service) : Service := { s with scheduler := s.scheduler.shutdown }

/-- Forgets a table in every part. -/
def invalidate (s : Service) (table : TableId) : Invalidated × Service :=
  let (sequenceCount, sequences) := s.sequences.invalidate table
  let (locationCount, locations) := s.locations.invalidate table
  let (contentCount, content) := s.content.invalidate table
  let (slotCount, staging) := s.staging.invalidate table
  (⟨sequenceCount, locationCount, contentCount, slotCount⟩,
    { s with sequences, locations, content, staging })

/-- All counters. -/
def metrics (s : Service) : Metrics :=
  ⟨s.sequences.stats, s.locations.stats, s.content.stats, s.staging.stats, s.scheduler.stats⟩

/-- The service in words. -/
def describe (s : Service) : String :=
  s!"CacheService \x7b config: {s.settings.describe}, encoder: {s.scheduler.describe}, .. \x7d"

end Service

end VersionChain
