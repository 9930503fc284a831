import VersionChain.Proofs.Store.Isolation

/-!
# Inserts that fail

An insert can fail before it has a number, while its slot is filled, while its bases are rebuilt
and its records are written, and when its row is not taken. By then a number may have been given
out, and slots and entries of other groups may be gone for it. Of the rows and of what is answered,
nothing is different; and the number is given out again.

* `Untouched` — nothing but the service and the counters of the rows is different;
* `untouched_of_error` — an insert that fails;
* `Tallied.happen` — as long as no row is removed, the versions stay numbered without gaps;
* `Run.failures_traceless` — any number of inserts that fail, in any state.
-/

namespace VersionChain

open StoreM MemoryRows

variable {count : GroupId → Nat} {s s' : Store MemoryRows} {m : MemoryRows} {table : TableId}
  {key : Key} {values : List Bytes}

/-! ## What a failure leaves alone -/

/-- The rows and their places, the tables, the statistics, the codec and the unpacker are the
same. -/
structure Untouched (s s' : Store MemoryRows) : Prop extends SameSetup s s' where
  rows : ∀ table, s'.rows.rowsOf table = s.rows.rowsOf table

theorem Untouched.refl (s : Store MemoryRows) : Untouched s s := ⟨.refl s, fun _ => rfl⟩

theorem Untouched.trans {s'' : Store MemoryRows} (h : Untouched s s') (h' : Untouched s' s'') :
    Untouched s s'' where
  codec := h'.codec.trans h.codec
  unpacker := h'.unpacker.trans h.unpacker
  tables := h'.tables.trans h.tables
  statistics := h'.statistics.trans h.statistics
  rows table := (h'.rows table).trans (h.rows table)

/-- Each table has these rows, in these places. -/
def HasRows (m : MemoryRows) (s : Store MemoryRows) : Prop :=
  ∀ table, s.rows.rowsOf table = m.rowsOf table

theorem cacheStable_hasRows (m : MemoryRows) : CacheStable (HasRows m) where
  with_locations _ _ _ hs := hs
  with_rows _ _ hrows hs table := (hrows.rowsOf table).trans (hs table)
  with_content _ _ hs := hs
  with_staging _ _ hs := hs
  with_scheduler _ _ hs := hs

theorem numberStable_hasRows (m : MemoryRows) : NumberStable (HasRows m) where
  with_sequences _ _ hs := hs
  with_rows _ _ hrows hs table := (hrows.rowsOf table).trans (hs table)

/-- This holds of the store if there is no result. -/
def OnError {α : Type} (P : Store MemoryRows → Prop) :
    Except StoreError α → Store MemoryRows → Prop
  | .ok _, _ => True
  | .error _, s => P s

/-- Once the row is stored, nothing can fail any more. -/
theorem HasRows.ends_storeVersion (h : HasRows m s) (v : VersionId) (settings : TableSettings)
    (values : List Bytes) : Ends (storeVersion v settings values) s (OnError (HasRows m)) := by
  have hstable := cacheStable_hasRows m
  refine Ends.bind ((hstable.keeps_claimSlot _ _ _).ends h) (fun token s₁ h₁ => ?_) fun _ _ hs => hs
  refine Ends.bind ((hstable.keeps_encodeColumns _ _ _ _ _ _).ends h₁) (fun records s₂ h₂ => ?_)
    fun _ _ hs => hs
  rcases append_cases s₂.rows v.table ⟨v.group, v.seq, records.map (·.bytes)⟩ with
    ⟨cause, rows, happend, hrows⟩ | ⟨location, rows, happend, -⟩
  · refine (Runs.bind_error (runs_onRows_error happend ?_)).ends fun _ hs => hs
    exact fun table => (hrows table).trans (h₂ table)
  · refine Ends.bind_of_eq (onRows_eq happend) ?_
    have htrue : SetupStable fun _ => True := fun _ _ _ _ => trivial
    exact (htrue.cacheStable.runs_publish trivial token v location values _).ends fun _ => id

theorem HasRows.ends_insertRow (h : HasRows m s) (table : TableId) (key : Key)
    (values : List Bytes) : Ends (insertRow table key values) s (OnError (HasRows m)) := by
  refine Ends.bind ((keeps_fingerprint key).ends h) (fun group s₁ h₁ => ?_) fun _ _ hs => hs
  refine Ends.bind ((keeps_tableState table).ends h₁) (fun state s₂ h₂ => ?_) fun _ _ hs => hs
  split
  · exact h₂
  · refine Ends.bind (((numberStable_hasRows m).keeps_allocateSeq _).ends h₂) (fun seq s₃ h₃ => ?_)
      fun _ _ hs => hs
    refine Ends.caught (h₃.ends_storeVersion _ _ _) (fun _ _ _ => trivial) fun e s₄ h₄ => ?_
    exact Ends.bind_of_eq (sequences_eq _ s₄) h₄

/-- Wherever an insert fails, nothing but the service and the counters of the rows is different. -/
theorem untouched_of_error {cause : StoreError}
    (h : insertRow table key values s = (.error cause, s')) : Untouched s s' := by
  have hrows : HasRows s.rows s := fun _ => rfl
  have hsetup := (setupStable_sameSetup s).keeps_insertRow table key values s (.refl s)
  have hfailed := hrows.ends_insertRow table key values
  unfold Ends at hfailed
  rw [h] at hsetup hfailed
  exact ⟨hsetup, hfailed⟩

/-! ## What is answered then -/

/-- An operation on a group of a table fails for the same reasons. -/
theorem SameSetup.answer_eq (h : SameSetup s s') {α : Type}
    {f : TableState → Fingerprint → StoreM MemoryRows α}
    (hread : ∀ state group, s.tables[table]? = some state → key.fingerprint s.unpacker = .ok group →
      ((tableState table >>= fun state => fingerprint key >>= f state) s').1 =
        ((tableState table >>= fun state => fingerprint key >>= f state) s).1) :
    ((tableState table >>= fun state => fingerprint key >>= f state) s').1 =
      ((tableState table >>= fun state => fingerprint key >>= f state) s).1 := by
  cases htable : s.tables[table]? with
  | none =>
    have hfails : ∀ s : Store MemoryRows, s.tables[table]? = none →
        ((tableState table >>= fun state => fingerprint key >>= f state) s).1 =
          .error (.noTable table) :=
      fun s hs => (Runs.bind_error (runs_tableState_error hs trivial)).eq (Q := fun _ => True).1
    exact (hfails s' (h.tables ▸ htable)).trans (hfails s htable).symm
  | some state =>
    cases hkey : key.fingerprint s.unpacker with
    | error cause =>
      have hfails : ∀ s : Store MemoryRows, s.tables[table]? = some state →
          key.fingerprint s.unpacker = .error cause →
          ((tableState table >>= fun state => fingerprint key >>= f state) s).1 =
            .error (.key cause) :=
        fun s hs hkey => (Runs.bind_of_eq (Q := fun _ => True) (tableState_eq hs)
          (Runs.bind_error (runs_fingerprint_error hkey trivial))).eq.1
      exact (hfails s' (h.tables ▸ htable) (h.unpacker ▸ hkey)).trans (hfails s htable hkey).symm
    | ok group => exact hread state group htable hkey

theorem Untouched.history_eq (h : Untouched s s') (table : TableId) (key : Key) :
    (history table key s').1 = (history table key s).1 := by
  have htrue : SetupStable fun _ => True := fun _ _ _ _ => trivial
  refine h.toSameSetup.answer_eq fun state group htable hkey => ?_
  have hread := htrue.cacheStable.runs_history (s := s) trivial htable hkey
  have hread' := htrue.cacheStable.runs_history (s := s') trivial (h.tables ▸ htable)
    (h.unpacker ▸ hkey)
  refine hread'.eq.1.trans (Eq.trans ?_ hread.eq.1.symm)
  unfold ofGroup
  rw [h.rows]

/-- The latest number is read off the rows, or it is cached and the same. -/
theorem Untouched.latestSeq_eq (h : Untouched s s') (hs : Counted count s) (hs' : Counted count s')
    (table : TableId) (key : Key) : (latestSeq table key s').1 = (latestSeq table key s).1 := by
  refine h.toSameSetup.answer_eq fun state group htable hkey => ?_
  obtain ⟨seq, hcurrent, hread⟩ :=
    hs.numbered.runs_latestSeq (numberStable_gapless count) hs.gapless htable hkey
  obtain ⟨seq', hcurrent', hread'⟩ := hs'.numbered.runs_latestSeq (numberStable_gapless count)
    hs'.gapless (h.tables ▸ htable) (h.unpacker ▸ hkey)
  rw [(hs.gapless.forGroup _).eq_of_current hcurrent] at hread
  rw [(hs'.gapless.forGroup _).eq_of_current hcurrent'] at hread'
  exact hread'.eq.1.trans hread.eq.1.symm

/-! ## Without removals -/

/-- The versions of each group are numbered without gaps, and so is what is cached. -/
def Tallied (s : Store MemoryRows) : Prop := ∃ count, Counted count s

/-- What was logged makes no difference to the store. -/
theorem Run.store_step_log (r : Run) (log : GroupId → List (List Bytes))
    (services : Nat → ServiceSettings) (command : Command) :
    ({ r with log }.step services command).store = (r.step services command).store := by
  cases command with
  | insert transaction table key values =>
    show ({ r with log }.insert transaction table key values).2.store =
      (r.insert transaction table key values).2.store
    cases hpair : insertRow table key values r.store with
    | mk result store =>
      cases result with
      | error cause =>
        rw [insert_of_error hpair, insert_of_error (r := { r with log }) hpair]
      | ok outcome =>
        rw [insert_of_ok hpair, insert_of_ok (r := { r with log }) hpair]
        cases transaction <;> rfl
  | truncate table =>
    show (Run.remove { r with log } table _).store = (r.remove table _).store
    unfold Run.remove
    split <;> rename_i heq <;> simp only [heq]
  | dropTable table =>
    show (Run.remove { r with log } table _).store = (r.remove table _).store
    unfold Run.remove
    split <;> rename_i heq <;> simp only [heq]
  | _ => rfl

namespace Tallied

variable {r : Run} (services : Nat → ServiceSettings)

/-- A log of the same length makes the count that of the run. -/
theorem step (h : Tallied r.store) (command : Command) :
    Tallied (r.step services command).store := by
  obtain ⟨count, hcount⟩ := h
  let log : GroupId → List (List Bytes) := fun g => .replicate (count g) []
  have hversions : Run.versions { r with log } = count := funext fun g => List.length_replicate
  have hstep := Counted.step (r := { r with log }) (hversions ▸ hcount) services command
  rw [r.store_step_log log] at hstep
  exact ⟨_, hstep⟩

/-- Overwriting a row changes nothing about which versions are stored. -/
theorem overwrite (h : Tallied s) (place : PlaceId) (column : Nat) (record : Bytes) :
    Tallied { s with rows := (s.rows.overwrite place column record).2 } := by
  obtain ⟨count, hcount⟩ := h
  obtain ⟨hvalid, hstored⟩ := stored_overwrite hcount.numbered.valid place column record
  refine ⟨count, ?_, fun g seq => (hstored ⟨g, seq⟩).trans (hcount.gapless g seq)⟩
  exact hcount.numbered.with_versions hvalid fun v row hrow => (hstored v).mp ⟨row, hrow⟩

theorem happen (h : Tallied r.store) {happening : Happening}
    (hstays : ∀ place, happening ≠ .remove place) :
    Tallied (r.happen services happening).store := by
  cases happening with
  | command command => exact h.step services command
  | visit guest command =>
    -- only the service and the rows matter, and these are shared
    have shared : ∀ {s s' : Store MemoryRows}, Tallied s → s'.service = s.service →
        s'.rows = s.rows → Tallied s' := by
      rintro s s' ⟨count, hcount⟩ hservice hrows
      refine ⟨count, hcount.numbered.congr (by rw [hservice]) (by rw [hrows]; rfl), ?_⟩
      rw [hrows]
      exact hcount.gapless
    have hguest : Tallied (guest.taking r).store := shared h rfl rfl
    exact shared (hguest.step services command) rfl rfl
  | remove place => exact absurd rfl (hstays place)
  | overwrite place column record => exact h.overwrite place column record

theorem foldl (h : Tallied r.store) {happenings : List Happening}
    (hstays : ∀ place, .remove place ∉ happenings) :
    Tallied (happenings.foldl (Run.happen services) r).store := by
  induction happenings generalizing r with
  | nil => exact h
  | cons first later ih =>
    refine ih (h.happen services fun place heq => ?_) fun place hmem => ?_
    · exact hstays place (heq ▸ List.mem_cons_self)
    · exact hstays place (List.mem_cons_of_mem first hmem)

end Tallied

/-! ## Inserts that are tried -/

/-- An insert that is tried, by itself or as part of a transaction. -/
structure Attempt where
  transaction : Option Nat
  table : TableId
  key : Key
  values : List Bytes

namespace Run

def attempt (r : Run) (a : Attempt) : Except StoreError Outcome × Run :=
  r.insert a.transaction a.table a.key a.values

/-- All of these inserts fail, tried one after the other. -/
def FailsAll : Run → List Attempt → Prop
  | _, [] => True
  | r, first :: later => (∃ cause, (r.attempt first).1 = .error cause) ∧
    FailsAll (r.attempt first).2 later

/-- The run after these inserts. -/
def attempts (r : Run) (tried : List Attempt) : Run := tried.foldl (fun r a => (r.attempt a).2) r

/-- An insert fails where storing the row does, and does nothing else then. -/
theorem insertRow_eq_error {r : Run} {a : Attempt} {cause : StoreError}
    (h : (r.attempt a).1 = .error cause) :
    ∃ store, insertRow a.table a.key a.values r.store = (.error cause, store) ∧
      (r.attempt a).2 = { r with store } := by
  unfold attempt at h ⊢
  cases hpair : insertRow a.table a.key a.values r.store with
  | mk result store =>
    cases result with
    | ok outcome =>
      rw [insert_of_ok hpair] at h
      cases h
    | error other =>
      rw [insert_of_error hpair] at h ⊢
      cases h
      exact ⟨store, rfl, rfl⟩

/-- Of the rows, the tables, the statistics, the transactions and the answers, nothing tells a run
from the same run after inserts that failed; and in both, the next insert gets the number after the
largest one among the rows. -/
structure Traceless (r r' : Run) : Prop where
  rows : ∀ table, r'.store.rows.rowsOf table = r.store.rows.rowsOf table
  tables : r'.store.tables = r.store.tables
  statistics : r'.store.statistics = r.store.statistics
  transactions : r'.transactions = r.transactions
  latestSeq : ∀ table key,
    (StoreM.latestSeq table key r'.store).1 = (StoreM.latestSeq table key r.store).1
  history : ∀ table key,
    (StoreM.history table key r'.store).1 = (StoreM.history table key r.store).1
  next : ∀ (a : Attempt) outcome,
    (r.attempt a).1 = .ok outcome ∨ (r'.attempt a).1 = .ok outcome →
      a.key.fingerprint r.store.unpacker = .ok outcome.group ∧
      outcome.seq = (r.store.rows.maxSeq ⟨a.table, outcome.group⟩).1 + 1

/-- Two runs are numbered alike, and differ in the service and the counters of the rows only. -/
structure Level (r r' : Run) : Prop where
  untouched : Untouched r.store r'.store
  transactions : r'.transactions = r.transactions
  counted : ∃ count, Counted count r.store ∧ Counted count r'.store

namespace Level

variable {r r' : Run}

theorem refl (h : Tallied r.store) : Level r r where
  untouched := .refl r.store
  transactions := rfl
  counted := h.imp fun _ hcount => ⟨hcount, hcount⟩

/-- An insert that fails. -/
theorem attempt (h : Level r r') {a : Attempt} {cause : StoreError}
    (hfails : (r'.attempt a).1 = .error cause) : Level r (r'.attempt a).2 := by
  obtain ⟨count, hcount, hcount'⟩ := h.counted
  obtain ⟨store, hfailed, hafter⟩ := insertRow_eq_error hfails
  have hstore := hcount'.ends_insertRow a.table a.key a.values
  unfold Ends at hstore
  rw [hfailed] at hstore
  rw [hafter]
  exact ⟨h.untouched.trans (untouched_of_error hfailed), h.transactions, count, hcount, hstore⟩

theorem attempts (h : Level r r') {tried : List Attempt} (hfails : r'.FailsAll tried) :
    Level r (r'.attempts tried) := by
  induction tried generalizing r' with
  | nil => exact h
  | cons first later ih =>
    obtain ⟨⟨cause, hfirst⟩, hlater⟩ := hfails
    exact ih (h.attempt hfirst) hlater

omit r' in
/-- The next number is the one after the largest among the rows. -/
theorem next_of_counted {count : GroupId → Nat} (h : Counted count r.store) {a : Attempt}
    {outcome : Outcome} (hok : (r.attempt a).1 = .ok outcome) :
    a.key.fingerprint r.store.unpacker = .ok outcome.group ∧
      outcome.seq = (r.store.rows.maxSeq ⟨a.table, outcome.group⟩).1 + 1 := by
  have hinserted := (h.insertedNext a.transaction a.table a.key a.values).1
  rw [show (r.insert a.transaction a.table a.key a.values).1 = .ok outcome from hok] at hinserted
  obtain ⟨hkey, hseq, -⟩ := hinserted
  obtain ⟨habove, hleast⟩ := h.numbered.valid.above_maxSeq ⟨a.table, outcome.group⟩
  have hlargest := (h.gapless.forGroup ⟨a.table, outcome.group⟩).eq_of_current
    ⟨habove, hleast _ (h.numbered.stored _)⟩
  exact ⟨hkey, hseq.trans (congrArg (· + 1) hlargest.symm)⟩

theorem traceless (h : Level r r') : Traceless r r' := by
  obtain ⟨count, hcount, hcount'⟩ := h.counted
  refine ⟨h.untouched.rows, h.untouched.tables, h.untouched.statistics, h.transactions,
    h.untouched.latestSeq_eq hcount hcount', h.untouched.history_eq, fun a outcome hok => ?_⟩
  rcases hok with hok | hok
  · exact next_of_counted hcount hok
  · obtain ⟨hkey, hseq⟩ := next_of_counted hcount' hok
    have hlargest : (r'.store.rows.maxSeq ⟨a.table, outcome.group⟩).1 =
        (r.store.rows.maxSeq ⟨a.table, outcome.group⟩).1 :=
      congrArg (TableRows.maxSeq · outcome.group) (h.untouched.rows a.table)
    rw [h.untouched.unpacker] at hkey
    exact ⟨hkey, hseq.trans (congrArg (· + 1) hlargest)⟩

end Level

/-- Whatever has happened, short of a row that was removed, inserts that fail leave no trace. -/
theorem failures_traceless (services : Nat → ServiceSettings) (service : Service)
    (capacity : Nat) (indexed : Bool) (codec : Codec) (unpacker : Unpacker)
    (happenings : List Happening) (hstays : ∀ place, .remove place ∉ happenings)
    (tried : List Attempt) :
    let r := happenings.foldl (happen services)
      (startOn { service with sequences := .new capacity } indexed codec unpacker)
    r.FailsAll tried → Traceless r (r.attempts tried) := by
  intro r hfails
  have hstart := counted_startOn service capacity indexed codec unpacker
  have hr : Tallied r.store := Tallied.foldl services ⟨_, hstart⟩ hstays
  exact ((Level.refl hr).attempts hfails).traceless

/-- No number can be cached. An unknown table, a wrong number of columns, a row that is not taken, and
another one that would have been the first of its group. -/
theorem failures_traceless_uncached :
    let services : Nat → ServiceSettings := fun _ => { sequenceMb := 0 }
    let happenings : List Happening :=
      [.command (.createTable 1 1 {}), .command (.createTable 2 1 {}),
        .command (.insert none 1 .null [#[1, 2, 3]]), .command (.rejectAppends 2)]
    let r := happenings.foldl (happen services)
      (startOn { Service.ofSettings (services 0) with sequences := .new 0 } true
        (DiffCoder.codec {}) .inRowOnly)
    let tried : List Attempt :=
      [⟨none, 3, .null, []⟩, ⟨none, 1, .null, []⟩, ⟨some 5, 1, .null, [#[4]]⟩,
        ⟨none, 2, .null, [#[4]]⟩]
    ((∀ place, .remove place ∉ happenings) ∧ r.FailsAll tried) ∧
      Traceless r (r.attempts tried) := by
  intro services happenings r tried
  have hstays : ∀ place, .remove place ∉ happenings := fun place hmem => by
    simp [happenings] at hmem
  have hr : r = after services true {} .inRowOnly [.createTable 1 1 {}, .createTable 2 1 {},
      .insert none 1 .null [#[1, 2, 3]], .rejectAppends 2] := by
    show List.foldl _ (startOn _ _ _ _) _ = _
    rw [ofSettings_uncached]
    rfl
  have hfollows := follows_after services true {} .inRowOnly [.createTable 1 1 {},
    .createTable 2 1 {}, .insert none 1 .null [#[1, 2, 3]], .rejectAppends 2]
  rw [← hr] at hfollows
  -- the ledger fails at each of them
  have hfails : r.FailsAll tried := by
    have hfirst := hfollows.insert none 3 .null []
    have hsecond := hfirst.2.insert none 1 .null []
    have hthird := hsecond.2.insert (some 5) 1 .null [#[4]]
    have hfourth := hthird.2.insert none 2 .null [#[4]]
    exact ⟨⟨_, hfirst.1.trans rfl⟩, ⟨_, hsecond.1.trans rfl⟩, ⟨_, hthird.1.trans rfl⟩,
      ⟨_, hfourth.1.trans rfl⟩, trivial⟩
  exact ⟨⟨hstays, hfails⟩, failures_traceless services (Service.ofSettings (services 0)) 0 true
    (DiffCoder.codec {}) .inRowOnly happenings hstays tried hfails⟩

end Run

end VersionChain
