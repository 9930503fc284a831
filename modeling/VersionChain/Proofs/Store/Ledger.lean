import Mathlib.Logic.Function.Basic
import VersionChain.Proofs.Store.Records
import VersionChain.Proofs.Store.Resolve

/-!
# Ledgers

A ledger is what a store would be without caches: the tables, the history of each group, and the
places of the rows. What an operation does to it is fixed by the ledger alone.

* `Ledger` — tables, histories and places, with the operations that change them;
* `Ledger.Sound` — the tables are set up well, and the histories fit them.
-/

namespace VersionChain

open StoreM MemoryRows

/-- What a store would be without caches. -/
structure Ledger where
  coder : DiffCoder
  unpacker : Unpacker
  tables : TableId → Option TableState
  histories : Histories
  places : TableId → Array (Option StoredRow)
  /-- How many of the next appends are rejected. -/
  rejecting : Nat

namespace Ledger

/-! ## Operations -/

/-- The records of the next version of a group. -/
def records (l : Ledger) (g : GroupId) (settings : TableSettings) (values : List Bytes) :
    List TaggedRecord := recordsFor l.coder settings (l.histories g) 0 values

/-- The row of the next version of a group. -/
def row (l : Ledger) (g : GroupId) (settings : TableSettings) (values : List Bytes) : StoredRow :=
  ⟨g.group, (l.histories g).length + 1,
    ((l.records g settings values).map (·.bytes)).toArray⟩

/-- What the insert of the next version of a group gives. -/
def outcome (l : Ledger) (g : GroupId) (settings : TableSettings) (values : List Bytes) :
    Outcome where
  group := g.group
  seq := (l.histories g).length + 1
  location := locationOf g.table (l.places g.table).size
  tags := (l.records g settings values).map (·.tag)
  rawBytes := totalSize values
  storedBytes := totalSize ((l.records g settings values).map (·.bytes))

/-- The ledger with the next version of a group. -/
def append (l : Ledger) (g : GroupId) (settings : TableSettings) (values : List Bytes) : Ledger :=
  { l with
    histories := Function.update l.histories g (l.histories g ++ [values])
    places := Function.update l.places g.table
      ((l.places g.table).push (some (l.row g settings values))) }

/-- Stores the next version of a group, if there are records of its values and the row is
taken. -/
def store (l : Ledger) (g : GroupId) (settings : TableSettings) (values : List Bytes) :
    Except StoreError Outcome × Ledger :=
  let activity : RowActivity := .appending ((l.histories g).length + 1) g.table
  if ∀ value ∈ values, value.size < Diff.lengthLimit then
    if 0 < l.rejecting then
      (.error (.rows activity (.rejected g.table)), { l with rejecting := l.rejecting - 1 })
    else if slotLimit ≤ (l.places g.table).size then (.error (.rows activity (.full g.table)), l)
    else (.ok (l.outcome g settings values), l.append g settings values)
  else (.error .noKeyframe, l)

/-- Inserts a new version of the group of a key. -/
def insert (l : Ledger) (table : TableId) (key : Key) (values : List Bytes) :
    Except StoreError Outcome × Ledger :=
  match key.fingerprint l.unpacker with
  | .error cause => (.error (.key cause), l)
  | .ok group =>
    match l.tables table with
    | none => (.error (.noTable table), l)
    | some state =>
      if values.length ≠ state.columns then
        (.error (.columnCount table state.columns values.length), l)
      else l.store ⟨table, group⟩ state.settings values

/-- Forgets the versions of a table. -/
def clear (l : Ledger) (table : TableId) : Ledger :=
  { l with
    histories := fun g => if g.table = table then [] else l.histories g
    places := Function.update l.places table #[] }

/-- Creates a table, unless there is one or the setup is not allowed. -/
def createTable (l : Ledger) (table : TableId) (columns : Nat) (settings : TableSettings) :
    Ledger :=
  if settings.validate = .ok () ∧ columns ≤ maxColumns ∧ l.tables table = none then
    { l with tables := Function.update l.tables table (some ⟨settings, columns⟩) }
  else l

/-- Empties a table. -/
def truncate (l : Ledger) (table : TableId) : Ledger :=
  if (l.tables table).isSome then l.clear table else l

/-- Removes a table. -/
def dropTable (l : Ledger) (table : TableId) : Ledger :=
  if (l.tables table).isSome then
    { l.clear table with tables := Function.update l.tables table none }
  else l

/-- Moves the row at a place behind the others, if there is one. -/
def relocate (l : Ledger) (p : PlaceId) : Ledger :=
  match slotOf p with
  | none => l
  | some slot =>
    match (l.places p.table)[slot]?.join with
    | none => l
    | some row =>
      let moved := ((l.places p.table).setIfInBounds slot none).push (some row)
      { l with places := Function.update l.places p.table moved }

/-- The ledger of a new store over the same rows, with the same tables set up anew. -/
def restart (l : Ledger) (coder : DiffCoder) (unpacker : Unpacker)
    (settings : TableId → TableSettings) : Ledger :=
  { l with
    coder
    unpacker
    tables := fun table => (l.tables table).map fun state => ⟨settings table, state.columns⟩ }

/-- The number of the latest version of a group. -/
def latest (l : Ledger) (g : GroupId) : Nat := (l.histories g).length

/-! ## Sound ledgers -/

/-- The tables are set up well, and the histories fit them. -/
structure Sound (l : Ledger) : Prop where
  valid : ∀ table state, l.tables table = some state → state.settings.validate = .ok ()
  narrow : ∀ table state, l.tables table = some state → state.columns ≤ maxColumns
  full : ∀ g state, l.tables g.table = some state → Full (l.histories g) state.columns
  absent : ∀ g, l.tables g.table = none → l.histories g = []

variable {l : Ledger} {table : TableId} {g : GroupId}

theorem depth_of_validate {settings : TableSettings} (h : settings.validate = .ok ()) :
    1 ≤ settings.depth ∧ settings.depth ≤ maxDepth := by
  unfold TableSettings.validate at h
  split at h
  · cases h
  · omega

theorem Sound.append (h : l.Sound) {state : TableState} (hstate : l.tables g.table = some state)
    {settings : TableSettings} {values : List Bytes} (hlength : values.length = state.columns)
    (hshort : ∀ value ∈ values, value.size < Diff.lengthLimit) :
    (l.append g settings values).Sound where
  valid := h.valid
  narrow := h.narrow
  full other state' hother := by
    show Full (Function.update l.histories g _ other) _
    by_cases heq : other = g
    · subst heq
      have hother' : l.tables other.table = some state' := hother
      rw [hstate] at hother'
      cases hother'
      rw [Function.update_self]
      exact (h.full other state hstate).append hlength hshort
    · rw [Function.update_of_ne heq]
      exact h.full other state' hother
  absent other hother := by
    show Function.update l.histories g _ other = _
    -- the group that is appended to belongs to a table
    have hne : other ≠ g := by
      rintro rfl
      rw [show l.tables other.table = none from hother] at hstate
      cases hstate
    rw [Function.update_of_ne hne]
    exact h.absent other hother

theorem full_nil (columns : Nat) : Full [] columns := fun _ hmem => (List.not_mem_nil hmem).elim

theorem Sound.clear (h : l.Sound) (table : TableId) : (l.clear table).Sound where
  valid := h.valid
  narrow := h.narrow
  full g state hstate := by
    show Full (if g.table = table then [] else l.histories g) _
    split
    · exact full_nil _
    · exact h.full g state hstate
  absent g hg := by
    show (if g.table = table then [] else l.histories g) = []
    split
    · rfl
    · exact h.absent g hg

theorem Sound.createTable (h : l.Sound) (table : TableId) (columns : Nat)
    (settings : TableSettings) : (l.createTable table columns settings).Sound := by
  unfold Ledger.createTable
  split
  · rename_i hcond
    obtain ⟨hvalid, hnarrow, hnew⟩ := hcond
    have htables : ∀ other state,
        Function.update l.tables table (some ⟨settings, columns⟩) other = some state →
          other = table ∧ state = ⟨settings, columns⟩ ∨ l.tables other = some state := by
      intro other state hstate
      by_cases hother : other = table
      · subst hother
        rw [Function.update_self] at hstate
        exact .inl ⟨rfl, (Option.some.inj hstate).symm⟩
      · rw [Function.update_of_ne hother] at hstate
        exact .inr hstate
    refine ⟨fun other state hstate => ?_, fun other state hstate => ?_,
      fun g state hstate => ?_, fun g hg => ?_⟩
    · rcases htables other state hstate with ⟨-, rfl⟩ | hold
      · exact hvalid
      · exact h.valid other state hold
    · rcases htables other state hstate with ⟨-, rfl⟩ | hold
      · exact hnarrow
      · exact h.narrow other state hold
    · rcases htables g.table state hstate with ⟨htable, -⟩ | hold
      · -- nothing was stored for the table before it was created
        rw [← htable] at hnew
        show Full (l.histories g) _
        rw [h.absent g hnew]
        exact full_nil _
      · exact h.full g state hold
    · refine h.absent g ?_
      have hg' : Function.update l.tables table (some ⟨settings, columns⟩) g.table = none := hg
      by_cases htable : g.table = table
      · rw [htable, Function.update_self] at hg'
        cases hg'
      · rwa [Function.update_of_ne htable] at hg'
  · exact h

theorem Sound.dropTable (h : l.Sound) (table : TableId) : (l.dropTable table).Sound := by
  unfold Ledger.dropTable
  split
  · have hclear := h.clear table
    have htables : ∀ other state, Function.update l.tables table none other = some state →
        l.tables other = some state := by
      intro other state hstate
      by_cases hother : other = table
      · rw [hother, Function.update_self] at hstate
        cases hstate
      · rwa [Function.update_of_ne hother] at hstate
    refine ⟨fun other state hstate => h.valid other state (htables other state hstate),
      fun other state hstate => h.narrow other state (htables other state hstate),
      fun g state hstate => hclear.full g state (htables g.table state hstate), fun g hg => ?_⟩
    by_cases htable : g.table = table
    · exact if_pos htable
    · refine hclear.absent g ?_
      have hg' : Function.update l.tables table none g.table = none := hg
      rwa [Function.update_of_ne htable] at hg'
  · exact h

theorem Sound.restart (h : l.Sound) (coder : DiffCoder) (unpacker : Unpacker)
    {settings : TableId → TableSettings} (hsettings : ∀ table, (settings table).validate = .ok ()) :
    (l.restart coder unpacker settings).Sound where
  valid table state hstate := by
    obtain ⟨old, -, rfl⟩ := Option.map_eq_some_iff.mp hstate
    exact hsettings table
  narrow table state hstate := by
    obtain ⟨old, hold, rfl⟩ := Option.map_eq_some_iff.mp hstate
    exact h.narrow table old hold
  full g state hstate := by
    obtain ⟨old, hold, rfl⟩ := Option.map_eq_some_iff.mp hstate
    exact h.full g old hold
  absent g hg := h.absent g (Option.map_eq_none_iff.mp hg)

end Ledger

end VersionChain
