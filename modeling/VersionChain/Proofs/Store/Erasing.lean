import VersionChain.Proofs.Store.Removals
import VersionChain.Proofs.Store.Runs

/-!
# Runs in which rows are deleted

In the course of a run, single rows may be deleted at any moment, and no cache is told. If the rows
with the largest numbers of a group are deleted, these numbers are given out again. As long as
nothing is left in the caches of a version when its number is given out again, deleting rows makes
versions disappear and does nothing else: what is still read is what its number was last given out
for, and no record is found damaged.

* `ErasingRun`, `ErasingRun.step` — a run in which rows are deleted, and what the numbers stand for;
* `ErasingRun.Clean` — no number is given out again while something is left of its version;
* `ErasingRun.Remembering.step`, `ErasingRun.remembering_after` — one event, and a whole run;
* `ErasingRun.reads_assigned` — what is read.
-/

namespace VersionChain

open StoreM MemoryRows

/-- What can happen to a store whose rows may be deleted. -/
inductive Event where
  | command (command : Command)
  /-- The row at a place is deleted, and no cache is told. -/
  | delete (place : PlaceId)

/-- A run in which rows may be deleted. -/
structure ErasingRun extends Run where
  /-- The contents that each number was last given out for. -/
  assigned : Assigned := fun _ => none

namespace ErasingRun

/-- What the numbers stand for once an insert has given this. -/
def assignedAfter (assigned : Assigned) (table : TableId) (values : List Bytes) :
    Except StoreError Outcome → Assigned
  | .ok outcome => Function.update assigned ⟨⟨table, outcome.group⟩, outcome.seq⟩ (some values)
  | .error _ => assigned

/-- What the numbers stand for once a command is carried out. -/
def reassigned (r : ErasingRun) : Command → Assigned
  | .insert transaction table key values =>
    assignedAfter r.assigned table values (r.insert transaction table key values).1
  | .truncate table =>
    if (StoreM.truncate table r.store).1.toBool then unassigned r.assigned table else r.assigned
  | .dropTable table =>
    if (StoreM.dropTable table r.store).1.toBool then unassigned r.assigned table else r.assigned
  | _ => r.assigned

/-- What happens to a store in a run. -/
def step (services : Nat → ServiceSettings) (r : ErasingRun) : Event → ErasingRun
  | .command command => { toRun := r.toRun.step services command, assigned := r.reassigned command }
  | .delete place => { r with store.rows := (r.store.rows.remove place).2 }

/-- A run from the start. -/
def after (services : Nat → ServiceSettings) (indexed : Bool) (coder : DiffCoder)
    (unpacker : Unpacker) (events : List Event) : ErasingRun :=
  events.foldl (step services) { toRun := .start services indexed coder unpacker }

/-- If an insert gets a number that was given out before, the caches know nothing of the version
that had it. -/
def Renews (r : ErasingRun) : Event → Prop
  | .command (.insert transaction table key values) =>
    ∀ outcome, (r.insert transaction table key values).1 = .ok outcome →
      let v : VersionId := ⟨⟨table, outcome.group⟩, outcome.seq⟩
      r.assigned v ≠ none → Forgotten r.store v
  | _ => True

/-- No number is given out again while anything is left in the caches of the version that had it. -/
def Clean (services : Nat → ServiceSettings) (r : ErasingRun) : List Event → Prop
  | [] => True
  | event :: later => r.Renews event ∧ Clean services (r.step services event) later

/-- All that the store remembers goes by what the numbers stand for. -/
def Remembering (r : ErasingRun) : Prop := ∃ issued, Remembers r.assigned issued r.store

variable {r : ErasingRun} {services : Nat → ServiceSettings} {table : TableId}

/-! ## One event -/

theorem Remembering.insert (h : r.Remembering) {transaction : Option Nat} {key : Key}
    {values : List Bytes} (hrenews : r.Renews (.command (.insert transaction table key values))) :
    (r.step services (.command (.insert transaction table key values))).Remembering := by
  obtain ⟨issued, h⟩ := h
  have hstatistics : ∀ result s statistics,
      Inserted r.assigned issued r.store table values result s →
      Inserted r.assigned issued r.store table values result { s with statistics } := by
    intro result s statistics hs
    cases result with
    | error cause => exact Remembers.with_statistics hs statistics
    | ok outcome => exact fun hforgotten => (hs hforgotten).with_statistics statistics
  have hinserted :=
    (Run.insert_spec (h.ends_insertRow table key values) hstatistics transaction).1
  show ∃ issued', Remembers
    (assignedAfter r.assigned table values (r.insert transaction table key values).1) issued'
    (r.insert transaction table key values).2.store
  cases hresult : (r.insert transaction table key values).1 with
  | error cause =>
    rw [hresult] at hinserted
    exact ⟨issued, hinserted⟩
  | ok outcome =>
    rw [hresult] at hinserted
    exact ⟨_, hinserted (hrenews outcome hresult)⟩

/-- Removing the rows of a table, if that succeeds. -/
theorem Remembering.remove {issued : GroupId → Nat} {α : Type} {action : StoreM MemoryRows α}
    (haction : Ends action r.store (Cleared r.assigned issued table)) :
    ∃ issued', Remembers
      (if (action r.store).1.toBool then unassigned r.assigned table else r.assigned) issued'
      (r.toRun.remove table action).store := by
  unfold Ends at haction
  unfold Run.remove
  cases hpair : action r.store with
  | mk result store =>
    rw [hpair] at haction
    cases result with
    | error cause => exact ⟨issued, haction⟩
    | ok a => exact ⟨_, haction⟩

theorem Remembering.command (h : r.Remembering) {command : Command}
    (hrenews : r.Renews (.command command)) :
    (r.step services (.command command)).Remembering := by
  have ⟨issued, hs⟩ := h
  have hstable := readStable_remembers r.assigned issued
  cases command with
  | createTable table columns settings =>
    exact ⟨issued, keeps_createTable_remembers table columns settings r.store hs⟩
  | insert transaction table key values => exact h.insert hrenews
  | commit id => exact ⟨issued, hs.with_statistics _⟩
  | abort id => exact ⟨issued, hs⟩
  | getVersion table key seq => exact ⟨issued, keeps_getVersion_remembers table key seq r.store hs⟩
  | getColumn table key seq column =>
    exact ⟨issued, keeps_getColumn_remembers table key seq column r.store hs⟩
  | latestSeq table key => exact ⟨issued, keeps_latestSeq_remembers table key r.store hs⟩
  | history table key => exact ⟨issued, hstable.keeps_history table key r.store hs⟩
  | seqAt table location => exact ⟨issued, hstable.keeps_seqAt table location r.store hs⟩
  | groupStats table key => exact ⟨issued, keeps_groupStats table key r.store hs⟩
  | truncate table => exact Remembering.remove (hs.ends_truncate table)
  | dropTable table => exact Remembering.remove (hs.ends_dropTable table)
  | relocate place => exact ⟨issued, hs.relocate place⟩
  | rejectAppends count =>
    have hrows : ∀ table, rowsOf { r.store.rows with rejecting := count } table =
        r.store.rows.rowsOf table := fun _ => rfl
    refine ⟨issued, hs.with_rows (hs.numbered.valid.congr hrows) fun v _ hrow => ?_⟩
    exact (stored_congr hrows v).symm.trans hrow
  | invalidate table => exact ⟨issued, hs.invalidate table⟩
  | invalidatePart part table =>
    exact ⟨issued, keeps_invalidatePart_remembers r.assigned issued part table r.store hs⟩
  | detach =>
    exact ⟨issued, hs.with_service r.store.service.detach hs.honors.serves hs.rings
      hs.numbered.cached r.store.statistics⟩
  | restart coder unpacker settings =>
    exact ⟨issued, hs.restart _ coder unpacker fun table => (settings table).2⟩

/-- Whatever happens, what the store remembers goes by what the numbers stand for. -/
theorem Remembering.step (h : r.Remembering) {event : Event} (hrenews : r.Renews event) :
    (r.step services event).Remembering := by
  cases event with
  | command command => exact h.command hrenews
  | delete place =>
    obtain ⟨issued, hs⟩ := h
    obtain ⟨hvalid, hstored⟩ := stored_remove hs.numbered.valid place
    exact ⟨issued, hs.with_rows hvalid hstored⟩

/-- It is enough to forget a table for its numbers to be given out again. -/
theorem Remembering.renews (h : r.Remembering) (services : Nat → ServiceSettings)
    (transaction : Option Nat) (table : TableId) (key : Key) (values : List Bytes) :
    (r.step services (.command (.invalidate table))).Renews
      (.command (.insert transaction table key values)) := by
  obtain ⟨issued, hs⟩ := h
  exact fun outcome _ _ => hs.forgotten_invalidate rfl

/-- After an insert, a number stands for what it stood for, or for what was inserted. -/
theorem assigned_insert (r : ErasingRun) (services : Nat → ServiceSettings)
    (transaction : Option Nat) (table : TableId) (key : Key) (values : List Bytes)
    (v : VersionId) :
    let r' := r.step services (.command (.insert transaction table key values))
    r'.assigned v = r.assigned v ∨ r'.assigned v = some values := by
  show assignedAfter r.assigned table values (r.insert transaction table key values).1 v = _ ∨
    assignedAfter r.assigned table values (r.insert transaction table key values).1 v = _
  cases (r.insert transaction table key values).1 with
  | error cause => exact .inl rfl
  | ok outcome =>
    by_cases hsame : v = ⟨⟨table, outcome.group⟩, outcome.seq⟩
    · rw [hsame]
      exact .inr (Function.update_self _ _ _)
    · exact .inl (Function.update_of_ne hsame _ _)

/-! ## Whole runs -/

theorem Remembering.foldl (h : r.Remembering) {events : List Event}
    (hclean : r.Clean services events) :
    (events.foldl (ErasingRun.step services) r).Remembering := by
  induction events generalizing r with
  | nil => exact h
  | cons event later ih => exact ih (h.step hclean.1) hclean.2

theorem remembering_start (services : Nat → ServiceSettings) (indexed : Bool) (coder : DiffCoder)
    (unpacker : Unpacker) :
    Remembering { toRun := .start services indexed coder unpacker } := by
  have hblank := blank_ofSettings (services 0)
  have hnumbered := hblank.numbered indexed coder.codec unpacker
  refine ⟨fun _ => 0, ⟨⟨coder, rfl⟩, hnumbered.valid, fun v row hrow => ?_, hblank.content _, nofun⟩,
    hblank.rings _ _, hnumbered, fun v => ?_, fun table state hstate => ?_, nofun⟩
  · cases (stored_empty indexed v).symm.trans hrow
  · simp only [Option.isSome_none, Bool.false_eq_true, false_iff]
    omega
  · cases (Std.HashMap.getElem?_empty (a := table)).symm.trans hstate

theorem remembering_after {indexed : Bool} {coder : DiffCoder} {unpacker : Unpacker}
    {events : List Event}
    (hclean : Clean services { toRun := .start services indexed coder unpacker } events) :
    (after services indexed coder unpacker events).Remembering :=
  (remembering_start services indexed coder unpacker).foldl hclean

/-- If no number is given out again while anything is left of the version that had it, then whatever
rows are deleted and whatever the caches hold: a version is read as its number was last given out,
or not at all, and so is each of its columns. No read fails. -/
theorem reads_assigned (services : Nat → ServiceSettings) (indexed : Bool) (coder : DiffCoder)
    (unpacker : Unpacker) (events : List Event)
    (hclean : Clean services { toRun := .start services indexed coder unpacker } events)
    {table : TableId} {state : TableState} {key : Key} {group : Fingerprint}
    (htable : (after services indexed coder unpacker events).store.tables[table]? = some state)
    (hcolumns : 0 < state.columns)
    (hkey : key.fingerprint (after services indexed coder unpacker events).store.unpacker =
      .ok group) (seq : Nat) :
    let r := after services indexed coder unpacker events
    ((StoreM.getVersion table key seq r.store).1 = .ok none ∨
      ∃ values, r.assigned ⟨⟨table, group⟩, seq⟩ = some values ∧
        (StoreM.getVersion table key seq r.store).1 = .ok (some values.toArray)) ∧
    ∀ column, column < state.columns →
      (StoreM.getColumn table key seq column r.store).1 = .ok none ∨
      ∃ value, contentOf r.assigned ⟨table, group⟩ seq column = some value ∧
        (StoreM.getColumn table key seq column r.store).1 = .ok (some value) := by
  intro r
  obtain ⟨issued, hs⟩ := remembering_after hclean
  exact ⟨hs.runs_getVersion htable hcolumns hkey seq,
    fun column hcolumn => hs.runs_getColumn htable hkey seq hcolumn⟩

/-- The only row of a table is deleted, the table is forgotten, and the next version is stored. -/
theorem reads_assigned_row_deleted :
    let services : Nat → ServiceSettings := fun _ => {}
    let start : ErasingRun := { toRun := .start services true {} .inRowOnly }
    let events : List Event :=
      [.command (.createTable 1 1 {}), .command (.insert none 1 .null [#[1, 2, 3]]),
        .delete ⟨1, locationOf 1 0⟩, .command (.invalidate 1),
        .command (.insert none 1 .null [#[1, 2, 4]])]
    let r := after services true {} .inRowOnly events
    (Clean services start events ∧
      (∃ state, r.store.tables[(1 : TableId)]? = some state ∧ 0 < state.columns) ∧
      Key.null.fingerprint r.store.unpacker = .ok .zero) ∧
    ((StoreM.getVersion 1 .null 1 r.store).1 = .ok none ∨
      ∃ values, r.assigned ⟨⟨1, .zero⟩, 1⟩ = some values ∧
        (StoreM.getVersion 1 .null 1 r.store).1 = .ok (some values.toArray)) := by
  intro services start events r
  let r₁ := start.step services (.command (.createTable 1 1 {}))
  let r₂ := r₁.step services (.command (.insert none 1 .null [#[1, 2, 3]]))
  let r₃ := r₂.step services (.delete ⟨1, locationOf 1 0⟩)
  let r₄ := r₃.step services (.command (.invalidate 1))
  let v : VersionId := ⟨⟨1, .zero⟩, 1⟩
  have h₁ : r₁.Remembering := (remembering_start services true {} .inRowOnly).step trivial
  have hfirst : r₁.Renews (.command (.insert none 1 .null [#[1, 2, 3]])) :=
    fun outcome _ hsome => absurd rfl hsome
  have h₃ : r₃.Remembering := (h₁.step hfirst).step trivial
  have hagain := h₃.renews services none 1 .null [#[1, 2, 4]]
  have hclean : Clean services start events := ⟨trivial, hfirst, trivial, trivial, hagain, trivial⟩
  -- the first version was stored, and its number stands for something ever since
  have hsecond : r₂.assigned v = some [#[1, 2, 3]] := by
    let l : Ledger := .createTable (.empty {} .inRowOnly) 1 1 {}
    have hresult : (r₁.insert none 1 .null [#[1, 2, 3]]).1 =
        .ok (l.outcome ⟨1, .zero⟩ {} [#[1, 2, 3]]) :=
      ((follows_after services true {} .inRowOnly [.createTable 1 1 {}]).insert _ _ _ _).1.trans rfl
    show assignedAfter r₁.assigned 1 [#[1, 2, 3]] (r₁.insert none 1 .null [#[1, 2, 3]]).1 v = _
    rw [hresult]
    show Function.update r₁.assigned v (some [#[1, 2, 3]]) v = _
    exact Function.update_self _ _ _
  have hkept : ∀ (r : ErasingRun) (place : PlaceId),
      ((r.step services (.delete place)).step services (.command (.invalidate 1))).assigned =
        r.assigned := fun _ _ => rfl
  have hfourth : r₄.assigned v = some [#[1, 2, 3]] := (congrFun (hkept r₂ _) v).trans hsecond
  have hr : r = r₄.step services (.command (.insert none 1 .null [#[1, 2, 4]])) := rfl
  have hvalues : ∃ values, r.assigned v = some values ∧ values.length = 1 := by
    rw [hr]
    rcases r₄.assigned_insert services none 1 .null [#[1, 2, 4]] v with hsame | hnew
    · exact ⟨_, hsame.trans hfourth, rfl⟩
    · exact ⟨_, hnew, rfl⟩
  obtain ⟨values, hassigned, hone⟩ := hvalues
  have hremembering : r.Remembering := remembering_after hclean
  obtain ⟨issued, hs⟩ := hremembering
  obtain ⟨state, htable, hlength⟩ : ∃ state, r.store.tables[(1 : TableId)]? = some state ∧
      values.length = state.columns := hs.fits v values hassigned
  have hcolumns : 0 < state.columns := by omega
  have hnull : ∀ unpacker, Key.null.fingerprint unpacker = .ok .zero := fun _ => rfl
  have hkey : Key.null.fingerprint r.store.unpacker = .ok .zero := hnull _
  refine ⟨⟨hclean, ⟨state, htable, hcolumns⟩, hkey⟩, ?_⟩
  exact (reads_assigned services true {} .inRowOnly events hclean htable hcolumns hkey 1).1

end ErasingRun

end VersionChain
