import Mathlib.Logic.Function.Basic
import VersionChain.Proofs.Store.Computations
import VersionChain.Record.Diff
import VersionChain.Store.Memory
import VersionChain.Store.Read
import VersionChain.Store.Tables
import VersionChain.Store.Transaction

/-!
# Commands and runs

A run carries out commands on a store: its own operations, transactions, and what happens around it,
short of rows that are removed or overwritten. Caches may be forgotten at any time, and the whole
service may be replaced. The run logs what the inserts stored.

* `Command` — what can happen;
* `Run.step` — one command;
* `Run.after` — a run from the start.
-/

namespace VersionChain

/-- The parts of a service that remember. -/
inductive ServicePart where
  | sequences
  | locations
  | content
  | staging
  deriving DecidableEq, Repr

/-- What can happen to a store. -/
inductive Command where
  | createTable (table : TableId) (columns : Nat) (settings : TableSettings)
  /-- An insert, by itself or as part of a transaction. -/
  | insert (transaction : Option Nat) (table : TableId) (key : Key) (values : List Bytes)
  | commit (transaction : Nat)
  | abort (transaction : Nat)
  | getVersion (table : TableId) (key : Key) (seq : Nat)
  | getColumn (table : TableId) (key : Key) (seq column : Nat)
  | latestSeq (table : TableId) (key : Key)
  | history (table : TableId) (key : Key)
  | seqAt (table : TableId) (location : Location)
  | groupStats (table : TableId) (key : Key)
  | truncate (table : TableId)
  | dropTable (table : TableId)
  | relocate (place : PlaceId)
  /-- The row store will reject the next appends. -/
  | rejectAppends (count : Nat)
  | invalidate (table : TableId)
  /-- Forgets a table in one part only. -/
  | invalidatePart (part : ServicePart) (table : TableId)
  | detach
  /-- A new store and a new service over the same rows, with the same tables. -/
  | restart (coder : DiffCoder) (unpacker : Unpacker)
      (settings : TableId → { settings : TableSettings // settings.validate = .ok () })

/-- A store in the course of a run. -/
structure Run where
  store : Store MemoryRows
  transactions : Nat → Transaction := fun _ => {}
  /-- How many services have been replaced. -/
  restarts : Nat := 0
  /-- The contents that were stored for each group, the first version first. -/
  log : GroupId → List (List Bytes) := fun _ => []

/-- Forgets a table in one part of the service. -/
def StoreM.invalidatePart (part : ServicePart) (table : TableId) : StoreM MemoryRows Nat :=
  match part with
  | .sequences => sequences (·.invalidate table)
  | .locations => locations (·.invalidate table)
  | .content => content (·.invalidate table)
  | .staging => staging (·.invalidate table)

/-- Creates tables one after the other, with these settings. -/
def createTables (settings : TableId → TableSettings) (s : Store MemoryRows) :
    List (TableId × TableState) → Store MemoryRows
  | [] => s
  | (table, state) :: rest =>
    createTables settings (StoreM.createTable table state.columns (settings table) s).2 rest

namespace Run

/-- Carries out an operation of the store that stores and removes nothing. -/
def perform {α : Type} (r : Run) (action : StoreM MemoryRows α) : Run :=
  { r with store := (action r.store).2 }

/-- Logs an insert. -/
def logged (r : Run) (table : TableId) (outcome : Outcome) (values : List Bytes) : Run :=
  let g : GroupId := ⟨table, outcome.group⟩
  { r with log := Function.update r.log g (r.log g ++ [values]) }

/-- An insert, by itself or as part of a transaction. It is logged if it succeeds. -/
def insert (r : Run) (transaction : Option Nat) (table : TableId) (key : Key)
    (values : List Bytes) : Except StoreError Outcome × Run :=
  match transaction with
  | none =>
    match StoreM.insert table key values r.store with
    | (.ok outcome, store) => (.ok outcome, { r with store }.logged table outcome values)
    | (.error cause, store) => (.error cause, { r with store })
  | some id =>
    match (r.transactions id).insert table key values r.store with
    | (.ok (outcome, pending), store) =>
      let transactions := Function.update r.transactions id pending
      (.ok outcome, { r with store, transactions }.logged table outcome values)
    | (.error cause, store) => (.error cause, { r with store })

/-- An operation that removes the rows of a table. The log of the table is forgotten if it
succeeds. -/
def remove {α : Type} (r : Run) (table : TableId) (action : StoreM MemoryRows α) : Run :=
  match action r.store with
  | (.ok _, store) =>
    { r with store, log := fun g => if g.table = table then [] else r.log g }
  | (.error _, store) => { r with store }

/-- Carries out a command. The services of the run are sized by `services`, one after the
other. -/
def step (services : Nat → ServiceSettings) (r : Run) : Command → Run
  | .createTable table columns settings => r.perform (StoreM.createTable table columns settings)
  | .insert transaction table key values => (r.insert transaction table key values).2
  | .commit id =>
    { r with
      store := ((r.transactions id).commit r.store).2
      transactions := Function.update r.transactions id {} }
  | .abort id => { r with transactions := Function.update r.transactions id {} }
  | .getVersion table key seq => r.perform (StoreM.getVersion table key seq)
  | .getColumn table key seq column => r.perform (StoreM.getColumn table key seq column)
  | .latestSeq table key => r.perform (StoreM.latestSeq table key)
  | .history table key => r.perform (StoreM.history table key)
  | .seqAt table location => r.perform (StoreM.seqAt table location)
  | .groupStats table key => r.perform (StoreM.groupStats table key)
  | .truncate table => r.remove table (StoreM.truncate table)
  | .dropTable table => r.remove table (StoreM.dropTable table)
  | .relocate place => { r with store.rows := (r.store.rows.relocate place).2 }
  | .rejectAppends count => { r with store.rows.rejecting := count }
  | .invalidate table => r.perform (StoreM.invalidate table)
  | .invalidatePart part table => r.perform (StoreM.invalidatePart part table)
  | .detach => { r with store.service := r.store.service.detach }
  | .restart coder unpacker settings =>
    let service := Service.ofSettings (services (r.restarts + 1))
    { r with
      store := createTables (fun table => (settings table).1)
        (.new service r.store.rows coder.codec unpacker) r.store.tables.toList
      restarts := r.restarts + 1 }

/-- A store without tables over rows in memory. -/
def start (services : Nat → ServiceSettings) (indexed : Bool) (coder : DiffCoder)
    (unpacker : Unpacker) : Run where
  store := .new (.ofSettings (services 0)) { indexed } coder.codec unpacker

/-- A run from the start. -/
def after (services : Nat → ServiceSettings) (indexed : Bool) (coder : DiffCoder)
    (unpacker : Unpacker) (commands : List Command) : Run :=
  commands.foldl (step services) (start services indexed coder unpacker)

/-! ## Inserts -/

/-- Adds what an insert stored to the statistics that are published, or to those of a
transaction. -/
def noted (r : Run) (transaction : Option Nat) (table : TableId) (outcome : Outcome) : Run :=
  match transaction with
  | none => { r with store.statistics := r.store.statistics.record table outcome }
  | some id =>
    let pending := (r.transactions id).pending.record table outcome
    { r with transactions := Function.update r.transactions id ⟨pending⟩ }

section Insert

variable {r : Run} {table : TableId} {key : Key} {values : List Bytes} {store : Store MemoryRows}

/-- Storing the row fails, and so does the insert. -/
theorem insert_of_error {cause : StoreError}
    (h : StoreM.insertRow table key values r.store = (.error cause, store))
    (transaction : Option Nat) :
    r.insert transaction table key values = (.error cause, { r with store }) := by
  unfold Run.insert
  cases transaction with
  | none =>
    have hfailed : StoreM.insert table key values r.store = (.error cause, store) := by
      unfold StoreM.insert
      rw [StoreM.bind_eq_error h]
    simp only [hfailed]
  | some id =>
    have hfailed : (r.transactions id).insert table key values r.store = (.error cause, store) := by
      unfold Transaction.insert
      rw [StoreM.bind_eq_error h]
    simp only [hfailed]

/-- The row is stored, and all that is left to do is to note it. -/
theorem insert_of_ok {outcome : Outcome}
    (h : StoreM.insertRow table key values r.store = (.ok outcome, store))
    (transaction : Option Nat) :
    r.insert transaction table key values = (.ok outcome,
      ({ r with store }.noted transaction table outcome).logged table outcome values) := by
  unfold Run.insert
  cases transaction with
  | none =>
    have hstored : StoreM.insert table key values r.store = (.ok outcome,
        { store with statistics := store.statistics.record table outcome }) := by
      unfold StoreM.insert
      rw [StoreM.bind_eq h]
      rfl
    simp only [hstored]
    rfl
  | some id =>
    have hstored : (r.transactions id).insert table key values r.store =
        (.ok (outcome, ⟨(r.transactions id).pending.record table outcome⟩), store) := by
      unfold Transaction.insert
      rw [StoreM.bind_eq h]
      rfl
    simp only [hstored]
    rfl

/-- What is logged after an insert. -/
def logAfter (r : Run) (table : TableId) (values : List Bytes) :
    Except StoreError Outcome → GroupId → List (List Bytes)
  | .ok outcome => (r.logged table outcome values).log
  | .error _ => r.log

/-- An insert does to the store what storing the row does, whether it is part of a transaction or
not; only the statistics are published at different times. -/
theorem insert_spec {R : Except StoreError Outcome → Store MemoryRows → Prop}
    (hinsert : StoreM.Ends (StoreM.insertRow table key values) r.store R)
    (hstatistics : ∀ result s statistics, R result s → R result { s with statistics })
    (transaction : Option Nat) :
    R (r.insert transaction table key values).1 (r.insert transaction table key values).2.store ∧
    (r.insert transaction table key values).2.log =
      r.logAfter table values (r.insert transaction table key values).1 := by
  unfold StoreM.Ends at hinsert
  cases hpair : StoreM.insertRow table key values r.store with
  | mk result store =>
    rw [hpair] at hinsert
    cases result with
    | error cause =>
      rw [insert_of_error hpair]
      exact ⟨hinsert, rfl⟩
    | ok outcome =>
      rw [insert_of_ok hpair]
      cases transaction with
      | none => exact ⟨hstatistics _ _ _ hinsert, rfl⟩
      | some id => exact ⟨hinsert, rfl⟩

end Insert

end Run

end VersionChain
