import VersionChain.Proofs.Staging.Rings
import VersionChain.Proofs.Store.Ledger

/-!
# Stores that agree with a ledger

A store agrees with a ledger if its rows stand for the histories and nothing in its caches
contradicts them. What is cached, and what is not, makes no difference.

* `Mirrors` — the rows and the settings are those of the ledger, and so is all cached content;
* `Stages` — the rings of the staging buffer have right contents;
* `Agrees` — both, and the cached numbers are those of the latest versions;
* `agrees_empty` — a store over empty rows agrees with an empty ledger.
-/

namespace VersionChain

open StoreM MemoryRows

/-- The rows and the settings of a store are those of a ledger, and no cached content contradicts
it. -/
structure Mirrors (s : Store MemoryRows) (l : Ledger) : Prop where
  sound : l.Sound
  legible : Legible s l.histories
  codec : s.codec = l.coder.codec
  unpacker : s.unpacker = l.unpacker
  tables : ∀ table, s.tables[table]? = l.tables table
  places : ∀ table, s.rows.places table = l.places table
  rejecting : s.rows.rejecting = l.rejecting

/-- The rings of a staging buffer have right contents only. -/
structure Stages (b : StagingBuffer) (contents : Histories) : Prop where
  valid : b.Valid
  rings : ∀ g ring, b.ringFor g = some ring →
    ring.Records (contentAt (contents g)) (contents g).length

/-- Nothing in a store contradicts a ledger. The number of the latest version of a group may have
been given out before the version is stored. -/
structure Agrees (s : Store MemoryRows) (l : Ledger) (latest : GroupId → Nat) : Prop where
  mirrors : Mirrors s l
  advises : s.service.sequences.Advises latest
  stages : Stages s.service.staging l.histories

variable {s s' : Store MemoryRows} {l : Ledger} {latest : GroupId → Nat}

theorem stages_iff {b : StagingBuffer} {contents : Histories} : Stages b contents ↔
    b.Rings (fun g => contentAt (contents g)) fun g => (contents g).length :=
  ⟨fun h => ⟨h.valid, h.rings⟩, fun h => ⟨h.valid, h.records⟩⟩

/-! ## What makes no difference -/

/-- Sequences, staging, scheduler and statistics do not matter for the rows. -/
theorem Mirrors.of_rest (h : Mirrors s l)
    (hrest : { s' with
      service := { s'.service with
        sequences := s.service.sequences
        staging := s.service.staging
        scheduler := s.service.scheduler }
      statistics := s.statistics } = s) : Mirrors s' l := by
  have hcodec : s'.codec = s.codec := (congrArg Store.codec hrest :)
  have hunpacker : s'.unpacker = s.unpacker := (congrArg Store.unpacker hrest :)
  have htables : s'.tables = s.tables := (congrArg Store.tables hrest :)
  have hrows : s'.rows = s.rows := (congrArg Store.rows hrest :)
  have hcontent : s'.service.content = s.service.content :=
    (congrArg (fun x : Store MemoryRows => x.service.content) hrest :)
  have hlocations : s'.service.locations = s.service.locations :=
    (congrArg (fun x : Store MemoryRows => x.service.locations) hrest :)
  obtain ⟨hsound, ⟨hdecode, htagOf, hvalid, hfiled, hserves, hindex⟩, hcoder, hkeys, hstates,
    hplaces, hrejecting⟩ := h
  rw [← hcodec] at hdecode htagOf hcoder
  rw [← hrows] at hvalid hfiled hplaces hrejecting
  rw [← hcontent] at hserves
  rw [← hlocations] at hindex
  rw [← hunpacker] at hkeys
  rw [← htables] at hstates
  exact ⟨hsound, ⟨hdecode, htagOf, hvalid, hfiled, hserves, hindex⟩, hcoder, hkeys, hstates,
    hplaces, hrejecting⟩

theorem Mirrors.calm (h : Mirrors s l) (hcalm : Calm l.histories s s') : Mirrors s' l where
  sound := h.sound
  legible := hcalm.legible h.legible
  codec := hcalm.codec.trans h.codec
  unpacker := hcalm.unpacker.trans h.unpacker
  tables table := by
    rw [hcalm.tables]
    exact h.tables table
  places table := (hcalm.rows.places table).trans (h.places table)
  rejecting := hcalm.rows.rejecting.trans h.rejecting

theorem Agrees.calm (h : Agrees s l latest) (hcalm : Calm l.histories s s') :
    Agrees s' l latest where
  mirrors := h.mirrors.calm hcalm
  advises := by
    rw [hcalm.sequences]
    exact h.advises
  stages := by
    rw [hcalm.staging]
    exact h.stages

/-- The rows may be put away and counted differently, and take appends again or no longer. -/
theorem Mirrors.with_rows (h : Mirrors s l) {rows : MemoryRows} (hvalid : rows.Valid)
    (hstored : ∀ v, rows.stored v = s.rows.stored v)
    {places : TableId → Array (Option StoredRow)} (hplaces : ∀ table, rows.places table = places table)
    {rejecting : Nat} (hrejecting : rows.rejecting = rejecting) :
    Mirrors { s with rows } { l with places, rejecting } where
  sound := ⟨h.sound.valid, h.sound.narrow, h.sound.full, h.sound.absent⟩
  legible := {
    decode := h.legible.decode
    tagOf := h.legible.tagOf
    valid := hvalid
    filed := fun g => (h.legible.filed g).congr fun seq => hstored ⟨g, seq⟩
    serves := h.legible.serves
    sound := h.legible.sound }
  codec := h.codec
  unpacker := h.unpacker
  tables := h.tables
  places := hplaces
  rejecting := hrejecting

/-- The places after the rows of one table were replaced. -/
theorem Mirrors.places_replaced (h : Mirrors s l) {rows : MemoryRows} {table : TableId}
    {t : TableRows} (hrows : Replaced s.rows rows table t) {replaced : Array (Option StoredRow)}
    (ht : t.rows = replaced) (other : TableId) :
    rows.places other = Function.update l.places table replaced other := by
  unfold MemoryRows.places
  rw [hrows.rowsOf]
  by_cases hother : other = table
  · rw [if_pos hother, hother, Function.update_self]
    exact ht
  · rw [if_neg hother, Function.update_of_ne hother]
    exact h.places other

/-- Rows that stay where they are. -/
theorem Agrees.with_rows (h : Agrees s l latest) {rows : MemoryRows} {rejecting : Nat}
    (hrows : ∀ table, rows.rowsOf table = s.rows.rowsOf table)
    (hrejecting : rows.rejecting = rejecting) :
    Agrees { s with rows } { l with rejecting } latest := by
  have hplaces : ∀ table, rows.places table = l.places table := by
    intro table
    unfold MemoryRows.places
    rw [hrows]
    exact h.mirrors.places table
  exact ⟨h.mirrors.with_rows (h.mirrors.legible.valid.congr hrows) (stored_congr hrows) hplaces
    hrejecting, h.advises, h.stages⟩

/-- Publishing statistics makes no difference. -/
theorem Agrees.with_statistics (h : Agrees s l latest) (statistics : Statistics) :
    Agrees { s with statistics } l latest :=
  ⟨h.mirrors.of_rest rfl, h.advises, h.stages⟩

/-- Tables may be set up differently, if the histories still fit them. -/
theorem Mirrors.with_tables (h : Mirrors s l) {tables : Std.HashMap TableId TableState}
    {states : TableId → Option TableState} (htables : ∀ table, tables[table]? = states table)
    (hsound : Ledger.Sound { l with tables := states }) :
    Mirrors { s with tables } { l with tables := states } where
  sound := hsound
  legible := {
    decode := h.legible.decode
    tagOf := h.legible.tagOf
    valid := h.legible.valid
    filed := h.legible.filed
    serves := h.legible.serves
    sound := h.legible.sound }
  codec := h.codec
  unpacker := h.unpacker
  tables := htables
  places := h.places
  rejecting := h.rejecting

/-! ## A new store -/

/-- A ledger without tables. -/
def Ledger.empty (coder : DiffCoder) (unpacker : Unpacker) : Ledger where
  coder := coder
  unpacker := unpacker
  tables := fun _ => none
  histories := fun _ => []
  places := fun _ => #[]
  rejecting := 0

theorem stages_new (slots : Nat) (contents : Histories) : Stages (.new slots) contents :=
  stages_iff.mpr (StagingBuffer.rings_new slots _ _)

/-- A store without tables over rows that are empty, indexed or not. -/
theorem agrees_empty (settings : ServiceSettings) (indexed : Bool) (coder : DiffCoder)
    (unpacker : Unpacker) :
    Agrees (.new (.ofSettings settings) { indexed } coder.codec unpacker)
      (.empty coder unpacker) (Ledger.empty coder unpacker).latest := by
  refine ⟨⟨⟨?_, ?_, ?_, fun _ _ => rfl⟩, ⟨rfl, rfl, ?_, ?_, ?_, ?_⟩, rfl, rfl, ?_, ?_, rfl⟩, ?_, ?_⟩
  · exact fun table state hstate => nomatch hstate
  · exact fun table state hstate => nomatch hstate
  · exact fun g state hstate => nomatch hstate
  · exact valid_empty indexed
  · exact fun g => filed_nil fun seq => stored_empty indexed ⟨g, seq⟩
  · exact ContentCache.serves_ofBudget _ _ _
  · exact LocationIndex.sound_ofBudget _
  · exact fun table => Std.HashMap.getElem?_empty
  · intro table
    show (rowsOf { indexed } table).rows = #[]
    rw [rowsOf_empty]
  · exact SequenceAllocator.advises_ofBudget _ _
  · exact stages_new _ _

end VersionChain
