import VersionChain.Proofs.Store.Coherence
import VersionChain.Proofs.Store.Totals

/-!
# Forgetting a table is complete

When a table is invalidated, nothing of it is left in any part of the service, and nothing of the
other tables is touched. Truncating and dropping a table remove its rows and its statistics as well.
So a later table of the same number cannot come upon anything of an earlier one.

* `Service.Forgets` — what becomes of a service;
* `Service.Coherent.forgets` — invalidating a table does this to every service that is in order;
* `Empties` — what becomes of a store whose table is truncated or dropped;
* `Forgetful` — all four ways to forget a table, in one store;
* `Run.invalidation_complete` — every store over a service forgets, however the service was used.
-/

namespace VersionChain

open BoundedCache StoreM MemoryRows

variable {x : Service} {table : TableId}

/-! ## The service -/

/-- A service with nothing of a table left and everything else as it was. What went is counted. -/
structure Service.Forgets (x : Service) (table : TableId) (dropped : Invalidated) (y : Service) :
    Prop where
  sequences : Purged GroupId.table table dropped.sequences x.sequences.map y.sequences.map
  locations : ∃ places versions, dropped.locations = places + versions ∧
    Purged PlaceId.table table places x.locations.forward y.locations.forward ∧
    Purged (fun v : VersionId => v.table) table versions x.locations.reverse y.locations.reverse
  contents : Purged (fun key : ContentKey => key.table) table dropped.contents
    x.content.map y.content.map
  /-- The values of the table are subtracted, all others stay in the sum. -/
  resident : y.content.residentBytes +
    weight (x.content.map.toLru.pairs.filter (·.1.table = table)) = x.content.residentBytes
  limits : y.content =
    { x.content with map := y.content.map, residentBytes := y.content.residentBytes }
  /-- Whenever a token of the table was given out, it is out of date now. -/
  stale : ∀ t : Token, t.owner.table = table → y.staging.isCurrent t = false
  current : ∀ t : Token, t.owner.table ≠ table →
    y.staging.isCurrent t = x.staging.isCurrent t ∧ y.staging.ring? t = x.staging.ring? t
  /-- Other slots are not even noticed to be used. -/
  slots : ∀ i, i ∉ x.staging.slotsOf table → y.staging.slots[i]? = x.staging.slots[i]?
  claims : x.staging.stats = { y.staging.stats with
    claimed := dropped.stagingSlots + y.staging.stats.claimed
    regions := dropped.stagingSlots + y.staging.stats.regions }
  counters : ∃ slots owners arena, y.staging = { x.staging with slots, owners, arena }
  rest : y = { x with
    sequences := y.sequences, locations := y.locations, content := y.content
    staging := y.staging }

/-- Every part forgets the table. -/
theorem Service.Coherent.forgets (h : x.Coherent) (table : TableId) :
    x.Forgets table (x.invalidate table).1 (x.invalidate table).2 where
  sequences := h.sequences.purged GroupId.table table
  locations := ⟨_, _, rfl, h.locations.forward.purged PlaceId.table table,
    h.locations.reverse.purged (fun v : VersionId => v.table) table⟩
  contents := h.content.wellFormed.purged (fun key : ContentKey => key.table) table
  resident := (h.content.invalidate table).2
  limits := rfl
  stale t ht := by
    show (x.staging.invalidate table).2.isCurrent t = false
    rw [StagingBuffer.isCurrent_invalidate, decide_eq_false fun hne => hne ht, Bool.false_and]
  current t ht := by
    refine ⟨?_, h.staging.valid.ring?_invalidate ht⟩
    show (x.staging.invalidate table).2.isCurrent t = x.staging.isCurrent t
    rw [StagingBuffer.isCurrent_invalidate, decide_eq_true ht, Bool.true_and]
  slots i hi := (x.staging.slots_freeSlots _ i).trans (if_neg hi)
  claims := (h.staging.invalidate table).2
  counters := x.staging.freeSlots_frame (x.staging.slotsOf table)
  rest := rfl

/-! ## Stores -/

/-- A store without the rows, the statistics and the cached data of a table. The other tables keep
theirs. -/
structure Empties (table : TableId) (s : Store MemoryRows) (dropped : Invalidated)
    (s' : Store MemoryRows) : Prop where
  service : s.service.Forgets table dropped s'.service
  rows : ∀ other, s'.rows.rowsOf other = if other = table then {} else s.rows.rowsOf other
  vacant : ∀ p : PlaceId, p.table = table → s'.rows.row? p = none
  statistics : ∀ g, s'.statistics.get? g = if g.table = table then none else s.statistics.get? g
  rest : s' = { s with
    service := s'.service, rows := s'.rows, tables := s'.tables, statistics := s'.statistics }

/-- All that forgets a table of a store does so completely. If the table is not there, or there when
it is to be created, nothing happens. -/
structure Forgetful (s : Store MemoryRows) (table : TableId) : Prop where
  invalidate : ∃ dropped service, StoreM.invalidate table s = (.ok dropped, { s with service }) ∧
    s.service.Forgets table dropped service
  truncate : if s.tables.contains table then
      ∃ dropped s', StoreM.truncate table s = (.ok dropped, s') ∧ Empties table s dropped s' ∧
        s'.tables = s.tables
    else StoreM.truncate table s = (.error (.noTable table), s)
  dropTable : if s.tables.contains table then
      ∃ dropped s', StoreM.dropTable table s = (.ok dropped, s') ∧ Empties table s dropped s' ∧
        ∀ other : TableId, s'.tables[other]? = if other = table then none else s.tables[other]?
    else StoreM.dropTable table s = (.error (.noTable table), s)
  createTable : ∀ columns settings,
    if settings.validate = .ok () ∧ columns ≤ maxColumns ∧ ¬ s.tables.contains table then
      ∃ dropped service tables,
        StoreM.createTable table columns settings s = (.ok (), { s with service, tables }) ∧
        s.service.Forgets table dropped service ∧
        ∀ other : TableId, tables[other]? =
          if other = table then some ⟨settings, columns⟩ else s.tables[other]?
    else ∃ cause, StoreM.createTable table columns settings s = (.error cause, s)

namespace StoreM

variable {s : Store MemoryRows}

/-- The rows, the statistics and the service without the table, whatever becomes of the table
itself. -/
theorem Ordered.empties (h : Ordered s) {rows : MemoryRows}
    (hrows : Replaced s.rows rows table {}) (tables : Std.HashMap TableId TableState) :
    Empties table s (s.service.invalidate table).1 { s with
      service := (s.service.invalidate table).2
      rows, tables
      statistics := s.statistics.forgetTable table } where
  service := h.forgets table
  rows := hrows.rowsOf
  vacant p hp := by
    refine Option.eq_none_iff_forall_ne_some.mpr fun row hrow => ?_
    obtain ⟨slot, -, hslot⟩ := row?_eq_some hrow
    have hempty : rows.rowsOf p.table = {} := (hrows.rowsOf p.table).trans (if_pos hp)
    rw [hempty, TableRows.row?_eq_some] at hslot
    simp at hslot
  statistics := s.statistics.get?_forgetTable table
  rest := rfl

theorem Ordered.forgetful (h : Ordered s) (table : TableId) : Forgetful s table where
  invalidate := ⟨_, _, rfl, h.forgets table⟩
  truncate := by
    rw [Std.HashMap.contains_eq_isSome_getElem?]
    cases htable : s.tables[table]? with
    | none => exact truncate_eq_error htable
    | some state =>
      exact ⟨_, _, truncate_eq htable, h.empties (replaced_truncate table) s.tables, rfl⟩
  dropTable := by
    rw [Std.HashMap.contains_eq_isSome_getElem?]
    cases htable : s.tables[table]? with
    | none => exact dropTable_eq_error htable
    | some state =>
      exact ⟨_, _, dropTable_eq htable, h.empties (replaced_drop table) (s.tables.erase table),
        getElem?_erase_table s.tables table⟩
  createTable columns settings := by
    have hnew : ¬ s.tables.contains table = true ↔ s.tables[table]? = none := by
      rw [Std.HashMap.contains_eq_isSome_getElem?, Option.not_isSome_iff_eq_none]
    split
    · rename_i hallowed
      obtain ⟨hvalid, hnarrow, hfree⟩ := hallowed
      obtain ⟨_, hcreated, rfl⟩ :=
        runs_createTable_ok (Q := (· = _)) hvalid hnarrow (hnew.mp hfree) rfl
      exact ⟨_, _, _, hcreated, h.forgets table, getElem?_insert_table s.tables table _⟩
    · rename_i hnot
      rw [hnew] at hnot
      exact createTable_eq_error hnot

end StoreM

/-- However a service was used, by its stores and by whoever else shares it, a table that is
invalidated, truncated, dropped or created in any store over it is forgotten by it, completely and
alone. -/
theorem Run.invalidation_complete (services : Nat → ServiceSettings) (rows : MemoryRows)
    (codec : Codec) (unpacker : Unpacker) (usages : List Usage) (s : Store MemoryRows)
    (table : TableId) :
    Forgetful { s with service := (used services rows codec unpacker usages).store.service }
      table := by
  have hordered : Ordered (used services rows codec unpacker usages).store :=
    ordered_used services rows codec unpacker usages
  have hshared : Ordered { s with
      service := (used services rows codec unpacker usages).store.service } := hordered
  exact hshared.forgetful table

end VersionChain
