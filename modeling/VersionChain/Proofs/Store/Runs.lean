import VersionChain.Proofs.Store.Changes
import VersionChain.Proofs.Store.Reads

/-!
# What runs store and read

Throughout a run the store follows a ledger that knows nothing of caches, and the log of the run is
the history in that ledger. So what is read is what was logged, and what is stored is fixed by the
log, whatever the sizes of the caches and whatever they have forgotten.

* `Follows` — a run and its ledger;
* `Follows.step`, `follows_after` — one command, and a whole run;
* `Run.reads_log` — reads give what was logged;
* `Run.stores_least` — inserts store the least records, and the caches make no difference.
-/

namespace VersionChain

open MemoryRows

/-- The store of a run agrees with a ledger, and the histories in it were logged. -/
structure Follows (r : Run) (l : Ledger) : Prop where
  agrees : Agrees r.store l l.latest
  log : r.log = l.histories

/-- What a command does to a ledger. -/
def Ledger.step (l : Ledger) : Command → Ledger
  | .createTable table columns settings => l.createTable table columns settings
  | .insert _ table key values => (l.insert table key values).2
  | .truncate table => l.truncate table
  | .dropTable table => l.dropTable table
  | .relocate place => l.relocate place
  | .rejectAppends count => { l with rejecting := count }
  | .restart coder unpacker settings => l.restart coder unpacker fun table => (settings table).1
  | _ => l

variable {r : Run} {l : Ledger} {services : Nat → ServiceSettings}

/-! ## Inserts -/

/-- An insert into a ledger fails and stores nothing, or stores the next version. -/
theorem Ledger.insert_cases (l : Ledger) (table : TableId) (key : Key) (values : List Bytes) :
    (∃ cause rejecting,
      l.insert table key values = (.error cause, { l with rejecting })) ∨
    ∃ group state, key.fingerprint l.unpacker = .ok group ∧ l.tables table = some state ∧
      values.length = state.columns ∧ (∀ value ∈ values, value.size < Diff.lengthLimit) ∧
      (l.places table).size < slotLimit ∧
      l.insert table key values = (.ok (l.outcome ⟨table, group⟩ state.settings values),
        l.append ⟨table, group⟩ state.settings values) := by
  unfold Ledger.insert
  cases hkey : key.fingerprint l.unpacker with
  | error cause => exact .inl ⟨_, _, rfl⟩
  | ok group =>
    cases htable : l.tables table with
    | none => exact .inl ⟨_, _, rfl⟩
    | some state =>
      simp only
      split
      · exact .inl ⟨_, _, rfl⟩
      · rename_i hlength
        rw [ne_eq, Decidable.not_not] at hlength
        unfold Ledger.store
        simp only
        split
        · rename_i hshort
          split
          · exact .inl ⟨_, _, rfl⟩
          · split
            · exact .inl ⟨_, _, rfl⟩
            · rename_i hroom
              exact .inr ⟨group, state, rfl, rfl, hlength, hshort, Nat.not_le.mp hroom, rfl⟩
        · exact .inl ⟨_, _, rfl⟩

/-- What is logged for an insert is what the ledger notes. -/
theorem histories_insert {table : TableId} {key : Key} {values : List Bytes} {outcome : Outcome}
    (h : (l.insert table key values).1 = .ok outcome) :
    (l.insert table key values).2.histories = Function.update l.histories ⟨table, outcome.group⟩
      (l.histories ⟨table, outcome.group⟩ ++ [values]) := by
  rcases l.insert_cases table key values with ⟨cause, rejecting, heq⟩ |
    ⟨group, state, -, -, -, -, -, heq⟩
  · rw [heq] at h
    cases h
  · rw [heq] at h ⊢
    cases h
    rfl

theorem histories_insert_error {table : TableId} {key : Key} {values : List Bytes}
    {cause : StoreError} (h : (l.insert table key values).1 = .error cause) :
    (l.insert table key values).2.histories = l.histories := by
  rcases l.insert_cases table key values with ⟨other, rejecting, heq⟩ |
    ⟨group, state, -, -, -, -, -, heq⟩
  · rw [heq]
  · rw [heq] at h
    cases h

theorem Follows.insert (h : Follows r l) (transaction : Option Nat) (table : TableId) (key : Key)
    (values : List Bytes) :
    (r.insert transaction table key values).1 = (l.insert table key values).1 ∧
    Follows (r.insert transaction table key values).2 (l.insert table key values).2 := by
  have hrow := (h.agrees.runs_insertRow table key values).ends
    (R := fun result s => result = (l.insert table key values).1 ∧
      Agrees s (l.insert table key values).2 (l.insert table key values).2.latest)
    fun s hs => ⟨rfl, hs⟩
  obtain ⟨⟨hresult, hagrees⟩, hlog⟩ := Run.insert_spec hrow (fun _ _ _ hs =>
    ⟨hs.1, hs.2.with_statistics _⟩) transaction
  refine ⟨hresult, hagrees, hlog.trans ?_⟩
  rw [hresult]
  cases hinsert : (l.insert table key values).1 with
  | error cause => exact h.log.trans (histories_insert_error hinsert).symm
  | ok outcome =>
    rw [histories_insert hinsert, ← h.log]
    rfl

/-! ## Other commands -/

/-- An operation that keeps the agreement. -/
theorem Follows.perform (h : Follows r l) {α : Type} {action : StoreM MemoryRows α}
    (haction : StoreM.Keeps action (Agreeing l)) : Follows (r.perform action) l :=
  ⟨haction r.store h.agrees, h.log⟩

/-- An operation that succeeds exactly if there is such a table, and then empties it. -/
theorem Follows.remove (h : Follows r l) {α : Type} {action : StoreM MemoryRows α}
    {table : TableId} {l' : Ledger}
    (haction : ∃ result, StoreM.Runs action r.store result (fun s => Agrees s l' l'.latest) ∧
      (result.toBool = true ↔ (l.tables table).isSome))
    (hhistories : l'.histories =
      if (l.tables table).isSome then (l.clear table).histories else l.histories) :
    Follows (r.remove table action) l' := by
  obtain ⟨result, ⟨store, hrun, hagrees⟩, hsome⟩ := haction
  unfold Run.remove
  rw [hrun]
  cases result with
  | error cause =>
    refine ⟨hagrees, ?_⟩
    rw [hhistories, if_neg (fun htable => nomatch hsome.mpr htable)]
    exact h.log
  | ok a =>
    refine ⟨hagrees, ?_⟩
    rw [hhistories, if_pos (hsome.mp rfl)]
    funext g
    show (if g.table = table then [] else r.log g) = if g.table = table then [] else _
    rw [h.log]

theorem histories_truncate (l : Ledger) (table : TableId) : (l.truncate table).histories =
    if (l.tables table).isSome then (l.clear table).histories else l.histories := by
  unfold Ledger.truncate
  split <;> rfl

theorem histories_dropTable (l : Ledger) (table : TableId) : (l.dropTable table).histories =
    if (l.tables table).isSome then (l.clear table).histories else l.histories := by
  unfold Ledger.dropTable
  split <;> rfl

theorem histories_relocate (l : Ledger) (p : PlaceId) :
    (l.relocate p).histories = l.histories := by
  unfold Ledger.relocate
  split
  · rfl
  · split <;> rfl

theorem histories_createTable (l : Ledger) (table : TableId) (columns : Nat)
    (settings : TableSettings) : (l.createTable table columns settings).histories = l.histories := by
  unfold Ledger.createTable
  split <;> rfl

theorem Follows.invalidatePart (h : Follows r l) (part : ServicePart) (table : TableId) :
    Follows (r.perform (StoreM.invalidatePart part table)) l := by
  cases part with
  | sequences => exact ⟨h.agrees.invalidate_sequences table, h.log⟩
  | locations => exact ⟨h.agrees.invalidate_locations table, h.log⟩
  | content => exact ⟨h.agrees.invalidate_content table, h.log⟩
  | staging => exact ⟨h.agrees.invalidate_staging table, h.log⟩

/-- One command does to the store what it does to the ledger. -/
theorem Follows.step (h : Follows r l) (services : Nat → ServiceSettings) (command : Command) :
    Follows (r.step services command) (l.step command) := by
  cases command with
  | createTable table columns settings =>
    obtain ⟨result, store, hrun, hagrees⟩ := h.agrees.runs_createTable table columns settings
    refine ⟨?_, h.log.trans (histories_createTable l table columns settings).symm⟩
    show Agrees (StoreM.createTable table columns settings r.store).2 _ _
    rw [hrun]
    exact hagrees
  | insert transaction table key values => exact (h.insert transaction table key values).2
  | commit id => exact ⟨h.agrees.with_statistics _, h.log⟩
  | abort id => exact ⟨h.agrees, h.log⟩
  | getVersion table key seq => exact h.perform (keeps_getVersion l table key seq)
  | getColumn table key seq column => exact h.perform (keeps_getColumn l table key seq column)
  | latestSeq table key => exact h.perform (keeps_latestSeq l table key)
  | history table key => exact h.perform ((readStable_agreeing l).keeps_history table key)
  | seqAt table location => exact h.perform ((readStable_agreeing l).keeps_seqAt table location)
  | groupStats table key => exact h.perform (StoreM.keeps_groupStats table key)
  | truncate table => exact h.remove (h.agrees.runs_truncate table) (histories_truncate l table)
  | dropTable table => exact h.remove (h.agrees.runs_dropTable table) (histories_dropTable l table)
  | relocate place =>
    exact ⟨h.agrees.relocate place, h.log.trans (histories_relocate l place).symm⟩
  | rejectAppends count => exact ⟨h.agrees.with_rows (fun _ => rfl) rfl, h.log⟩
  | invalidate table => exact ⟨h.agrees.invalidate table, h.log⟩
  | invalidatePart part table => exact h.invalidatePart part table
  | detach => exact ⟨h.agrees.detach, h.log⟩
  | restart coder unpacker settings =>
    exact ⟨h.agrees.restart _ coder unpacker fun table => (settings table).2, h.log⟩

/-- A run from the start follows its ledger from the start. -/
theorem follows_after (services : Nat → ServiceSettings) (indexed : Bool) (coder : DiffCoder)
    (unpacker : Unpacker) (commands : List Command) :
    Follows (.after services indexed coder unpacker commands)
      (commands.foldl Ledger.step (.empty coder unpacker)) := by
  have hstart : Follows (.start services indexed coder unpacker) (.empty coder unpacker) :=
    ⟨agrees_empty (services 0) indexed coder unpacker, rfl⟩
  unfold Run.after
  induction commands using List.reverseRecOn with
  | nil => exact hstart
  | append_singleton earlier command ih =>
    rw [List.foldl_append, List.foldl_append]
    exact ih.step services command

/-! ## Reading and storing -/

namespace Run

/-- Whatever the caches hold, the versions of a group that are read are those that were logged, in
the order in which they were stored, and no others. -/
theorem reads_log (services : Nat → ServiceSettings) (indexed : Bool) (coder : DiffCoder)
    (unpacker : Unpacker) (commands : List Command) {table : TableId} {state : TableState}
    {key : Key} {group : Fingerprint}
    (htable : (after services indexed coder unpacker commands).store.tables[table]? = some state)
    (hcolumns : 0 < state.columns)
    (hkey : key.fingerprint (after services indexed coder unpacker commands).store.unpacker =
      .ok group) (seq : Nat) :
    let r := after services indexed coder unpacker commands
    (StoreM.getVersion table key seq r.store).1 = .ok (versionAt (r.log ⟨table, group⟩) seq) ∧
    ∀ column, column < state.columns → (StoreM.getColumn table key seq column r.store).1 =
      .ok ((versionAt (r.log ⟨table, group⟩) seq).bind (·[column]?)) := by
  intro r
  have hfollows := follows_after services indexed coder unpacker commands
  have hagrees := hfollows.agrees
  have hstate := (hagrees.mirrors.tables table).symm.trans htable
  have hfull := hagrees.mirrors.sound.full ⟨table, group⟩ state hstate
  rw [show r.log = _ from hfollows.log]
  constructor
  · rw [← gather_eq_versionAt hfull hcolumns seq]
    exact (hagrees.runs_getVersion htable hkey seq).eq.1
  · intro column hcolumn
    rw [← contentAt_eq_versionAt]
    exact (hagrees.runs_getColumn htable hkey seq hcolumn).eq.1

/-- Versions of a group that follow a truncation. Between the second and the third, the service is
replaced by one that remembers nothing. -/
def renewedCommands (coder : DiffCoder) : List Command :=
  let short : Bytes := #[1, 2, 3, 4, 5, 6, 7, 8, 9, 10, 11, 12]
  let long : Bytes := short.push 13
  [.createTable 1 1 {}, .insert none 1 .null [#[0]], .truncate 1, .insert none 1 .null [short],
    .insert (some 0) 1 .null [long], .restart coder .inRowOnly fun _ => ⟨{}, rfl⟩,
    .insert none 1 .null [short]]

/-- The sizes of these services. -/
def renewedServices : Nat → ServiceSettings
  | 0 => {}
  | _ => { sequenceMb := 0, locationMb := 0, contentMb := 0 }

/-- What was stored since the truncation is read, although the second version and the third are
written against the ones before them. -/
theorem reads_log_renewed :
    let r := after renewedServices true {} .inRowOnly (renewedCommands {})
    (r.store.tables[(1 : TableId)]? = some ⟨{}, 1⟩ ∧ 0 < 1 ∧
      Key.null.fingerprint r.store.unpacker = .ok .zero) ∧
    (∃ first second third, r.store.rows.places 1 = #[some ⟨.zero, 1, #[first]⟩,
        some ⟨.zero, 2, #[second]⟩, some ⟨.zero, 3, #[third]⟩] ∧
      Record.tagOf first = .ok .keyframe ∧ Record.tagOf second = .ok (.back 1) ∧
      Record.tagOf third = .ok (.back 1)) ∧
    (StoreM.getVersion 1 .null 1 r.store).1 =
      .ok (some #[#[1, 2, 3, 4, 5, 6, 7, 8, 9, 10, 11, 12]]) ∧
    (StoreM.getVersion 1 .null 2 r.store).1 =
      .ok (some #[#[1, 2, 3, 4, 5, 6, 7, 8, 9, 10, 11, 12, 13]]) ∧
    (StoreM.getVersion 1 .null 3 r.store).1 =
      .ok (some #[#[1, 2, 3, 4, 5, 6, 7, 8, 9, 10, 11, 12]]) ∧
    (StoreM.getVersion 1 .null 4 r.store).1 = .ok none := by
  intro r
  have hfollows := follows_after renewedServices true {} .inRowOnly (renewedCommands {})
  have htable : r.store.tables[(1 : TableId)]? = some ⟨{}, 1⟩ :=
    (hfollows.agrees.mirrors.tables 1).trans rfl
  have hkey : Key.null.fingerprint r.store.unpacker = .ok .zero := rfl
  have hlog : r.log ⟨1, .zero⟩ = [[#[1, 2, 3, 4, 5, 6, 7, 8, 9, 10, 11, 12]],
      [#[1, 2, 3, 4, 5, 6, 7, 8, 9, 10, 11, 12, 13]], [#[1, 2, 3, 4, 5, 6, 7, 8, 9, 10, 11, 12]]] := by
    rw [show r.log = _ from hfollows.log]
    rfl
  have hread (seq : Nat) := (reads_log renewedServices true {} .inRowOnly (renewedCommands {})
    htable (by decide) hkey seq).1
  rw [show (after _ _ _ _ _).log _ = _ from hlog] at hread
  refine ⟨⟨htable, by decide, hkey⟩, ?_, hread 1, hread 2, hread 3, hread 4⟩
  refine ⟨_, _, _, (hfollows.agrees.mirrors.places 1).trans rfl, ?_⟩
  decide +kernel

/-- A row and an outcome are those of values that follow a history: each value is held by its least
record, and the outcome tells what was stored. -/
def HoldsLeast (codec : Codec) (settings : TableSettings) (history : List (List Bytes))
    (values : List Bytes) (row : StoredRow) (outcome : Outcome) : Prop :=
  ∃ records : List TaggedRecord, records.length = values.length ∧
    (∀ (column : Nat) value record, values[column]? = some value →
      records[column]? = some record →
        LeastRecord codec settings history column value record) ∧
    row = ⟨outcome.group, history.length + 1, (records.map (·.bytes)).toArray⟩ ∧
    outcome = ⟨outcome.group, history.length + 1, outcome.location, records.map (·.tag),
      totalSize values, totalSize (records.map (·.bytes))⟩

theorem holdsLeast_outcome {state : TableState} {g : GroupId} {values : List Bytes}
    (hfull : Full (l.histories g) state.columns) (hlength : values.length = state.columns)
    (hshort : ∀ value ∈ values, value.size < Diff.lengthLimit) :
    HoldsLeast l.coder.codec state.settings (l.histories g) values
      (l.row g state.settings values) (l.outcome g state.settings values) := by
  have hrecords : ∀ column : Nat, (l.records g state.settings values)[column]? =
      (values[column]?).map (recordFor l.coder state.settings (l.histories g) column) := by
    intro column
    unfold Ledger.records
    rw [getElem?_recordsFor, Nat.zero_add]
  refine ⟨l.records g state.settings values, ?_, fun column value record hvalue hrecord => ?_,
    rfl, rfl⟩
  · exact length_recordsFor 0 values
  · rw [hrecords, hvalue] at hrecord
    cases hrecord
    have hcolumn := (List.getElem?_eq_some_iff.mp hvalue).1
    exact leastRecord_recordFor hfull (hlength ▸ hcolumn) (hshort value (List.mem_of_getElem? hvalue))

/-- Whatever the caches hold, an insert stores the least record of each value, and its outcome tells
so; and services of other sizes store the same rows at the same places. -/
theorem stores_least (services : Nat → ServiceSettings) (indexed : Bool) (coder : DiffCoder)
    (unpacker : Unpacker) (commands : List Command) :
    let r := after services indexed coder unpacker commands
    (∀ transaction table key values outcome,
      (r.insert transaction table key values).1 = .ok outcome →
      ∃ state row, r.store.tables[table]? = some state ∧
        key.fingerprint r.store.unpacker = .ok outcome.group ∧
        (r.insert transaction table key values).2.store.rows.row? ⟨table, outcome.location⟩ =
          some row ∧
        HoldsLeast r.store.codec state.settings (r.log ⟨table, outcome.group⟩) values row
          outcome) ∧
    ∀ (services' : Nat → ServiceSettings) (indexed' : Bool) (table : TableId),
      (after services' indexed' coder unpacker commands).store.rows.places table =
        r.store.rows.places table := by
  intro r
  have hfollows := follows_after services indexed coder unpacker commands
  constructor
  · intro transaction table key values outcome hresult
    obtain ⟨hinsert, hafter⟩ := hfollows.insert transaction table key values
    let l : Ledger := commands.foldl Ledger.step (.empty coder unpacker)
    have hmirrors : Mirrors r.store l := hfollows.agrees.mirrors
    rw [hinsert] at hresult
    -- the ledger says what was stored, and where
    rcases l.insert_cases table key values with
      ⟨cause, rejecting, hfailed⟩ | ⟨group, state, hkey, hstate, hlength, hshort, hroom, heq⟩
    · rw [hfailed] at hresult
      cases hresult
    · rw [heq] at hresult hafter
      cases hresult
      refine ⟨state, l.row ⟨table, group⟩ state.settings values,
        (hmirrors.tables table).trans hstate, ?_, ?_, ?_⟩
      · rw [hmirrors.unpacker]
        exact hkey
      · refine (row?_locationOf table hroom).trans ?_
        rw [hafter.agrees.mirrors.places table]
        show (Function.update l.places table _ table)[(l.places table).size]?.join = _
        rw [Function.update_self, Array.getElem?_push_size]
        rfl
      · rw [hmirrors.codec, show r.log = l.histories from hfollows.log]
        exact holdsLeast_outcome (hmirrors.sound.full ⟨table, group⟩ state hstate) hlength hshort
  · -- both runs follow the same ledger
    intro services' indexed' table
    have hother := follows_after services' indexed' coder unpacker commands
    exact (hother.agrees.mirrors.places table).trans (hfollows.agrees.mirrors.places table).symm

/-- The second version of a group is stored, and may be written against the first. -/
theorem stores_least_second_version :
    let r := after (fun _ => {}) true {} .inRowOnly
      [.createTable 1 1 {}, .insert none 1 .null [#[1, 2, 3]]]
    ∃ outcome, (r.insert none 1 .null [#[1, 2, 4]]).1 = .ok outcome ∧
      ∃ state row, r.store.tables[(1 : TableId)]? = some state ∧
        Key.null.fingerprint r.store.unpacker = .ok outcome.group ∧
        (r.insert none 1 .null [#[1, 2, 4]]).2.store.rows.row? ⟨1, outcome.location⟩ = some row ∧
        HoldsLeast r.store.codec state.settings (r.log ⟨1, outcome.group⟩) [#[1, 2, 4]] row
          outcome := by
  intro r
  have hfollows := follows_after (fun _ => {}) true {} .inRowOnly
    [.createTable 1 1 {}, .insert none 1 .null [#[1, 2, 3]]]
  let l : Ledger := List.foldl Ledger.step (.empty {} .inRowOnly)
    [.createTable 1 1 {}, .insert none 1 .null [#[1, 2, 3]]]
  have hresult : (r.insert none 1 .null [#[1, 2, 4]]).1 =
      .ok (l.outcome ⟨1, .zero⟩ {} [#[1, 2, 4]]) :=
    (hfollows.insert none 1 .null [#[1, 2, 4]]).1.trans rfl
  exact ⟨_, hresult, (stores_least (fun _ => {}) true {} .inRowOnly
    [.createTable 1 1 {}, .insert none 1 .null [#[1, 2, 3]]]).1 none 1 .null [#[1, 2, 4]] _ hresult⟩

end Run

end VersionChain
