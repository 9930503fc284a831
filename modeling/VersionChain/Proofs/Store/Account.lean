import VersionChain.Proofs.Store.Others
import VersionChain.Proofs.Store.Totals

/-!
# One group in the course of a run

What a run replies on a group is fixed by an account of the group: how its table is set up, which
contents were stored for it, and its statistics. A command for the group, for its table or for a
transaction does to the store what it does to the account; all others leave the account alone.

* `GroupCommand`, `GroupReply` — what is asked of a group, and what is replied;
* `Account` — what there is to know of a group, with what commands do to it;
* `Isolated` — a run stands for the account of a group;
* `Isolated.replyOn` — what the run replies is read off the account;
* `Isolated.step` — one command.
-/

namespace VersionChain

open StoreM MemoryRows

/-! ## Asking a group -/

/-- Whether a key names the group among those of a table. -/
def Key.Names (key : Key) (unpacker : Unpacker) (table : TableId) (g : GroupId) : Prop :=
  table = g.table ∧ key.fingerprint unpacker = .ok g.group

instance (key : Key) (unpacker : Unpacker) (table : TableId) (g : GroupId) :
    Decidable (key.Names unpacker table g) := inferInstanceAs (Decidable (_ ∧ _))

/-- What is asked of a group. -/
inductive GroupCommand where
  | insert (transaction : Option Nat) (values : List Bytes)
  | getVersion (seq : Nat)
  | getColumn (seq column : Nat)
  | latestSeq
  | history
  | groupStats
  deriving DecidableEq, Repr

/-- The table and the key of the group that a command is for, and what is asked of the group. -/
def Command.asks : Command → Option (TableId × Key × GroupCommand)
  | .insert transaction table key values => some (table, key, .insert transaction values)
  | .getVersion table key seq => some (table, key, .getVersion seq)
  | .getColumn table key seq column => some (table, key, .getColumn seq column)
  | .latestSeq table key => some (table, key, .latestSeq)
  | .history table key => some (table, key, .history)
  | .groupStats table key => some (table, key, .groupStats)
  | _ => none

/-- What a command asks of the group, if it is for that group. -/
def Command.on? (unpacker : Unpacker) (g : GroupId) (command : Command) : Option GroupCommand :=
  command.asks.bind fun (table, key, asked) =>
    if key.Names unpacker table g then some asked else none

theorem Command.on?_eq_some {unpacker : Unpacker} {g : GroupId} {command : Command}
    {asked : GroupCommand} (h : command.on? unpacker g = some asked) :
    ∃ table key, command.asks = some (table, key, asked) ∧ key.Names unpacker table g := by
  obtain ⟨⟨table, key, found⟩, hasks, hfound⟩ := Option.bind_eq_some_iff.mp h
  obtain ⟨hnames, ⟨⟩⟩ := Option.ite_none_right_eq_some.mp hfound
  exact ⟨table, key, hasks, hnames⟩

theorem Command.not_names {unpacker : Unpacker} {g : GroupId} {command : Command} {table : TableId}
    {key : Key} {asked : GroupCommand} (h : command.on? unpacker g = none)
    (hasks : command.asks = some (table, key, asked)) : ¬ key.Names unpacker table g := by
  intro hnames
  unfold Command.on? at h
  rw [hasks] at h
  cases (if_pos hnames).symm.trans h

/-- What is replied. Where the row of a version lies is left out. -/
inductive GroupReply where
  | inserted (result : Except StoreError Written)
  | version (result : Except StoreError (Option (Array Bytes)))
  | column (result : Except StoreError (Option Bytes))
  | latest (result : Except StoreError (Option Nat))
  | history (result : Except StoreError (List Nat))
  | stats (result : Except StoreError (Option GroupStats))

/-- What a store replies when this is asked of the group of a key. -/
def Run.ask (r : Run) (table : TableId) (key : Key) : GroupCommand → GroupReply
  | .insert transaction values =>
    let (result, after) := r.insert transaction table key values
    .inserted (result.map (writtenAs after.store.rows table))
  | .getVersion seq => .version (StoreM.getVersion table key seq r.store).1
  | .getColumn seq column => .column (StoreM.getColumn table key seq column r.store).1
  | .latestSeq => .latest (StoreM.latestSeq table key r.store).1
  | .history => .history (StoreM.history table key r.store).1
  | .groupStats => .stats (StoreM.groupStats table key r.store).1

/-- What a store replies to a command, if the command is for this group. -/
def Run.replyOn (r : Run) (g : GroupId) (command : Command) : Option GroupReply :=
  command.asks.bind fun (table, key, asked) =>
    if key.Names r.store.unpacker table g then some (r.ask table key asked) else none

/-- A command that neither removes the table of the group nor begins with another service. -/
def Command.Spares (g : GroupId) : Command → Prop
  | .truncate table => table ≠ g.table
  | .dropTable table => table ≠ g.table
  | .restart _ _ _ => False
  | _ => True

/-- Whether a command is about other groups and tables, or about places in them. -/
def Command.isElsewhere (unpacker : Unpacker) (g : GroupId) (command : Command) : Bool :=
  match command with
  | .createTable table _ _ => table ≠ g.table
  | .truncate table => table ≠ g.table
  | .dropTable table => table ≠ g.table
  | .invalidate table => table ≠ g.table
  | .invalidatePart _ table => table ≠ g.table
  | .seqAt _ _ => true
  | .relocate _ => true
  | .rejectAppends _ => true
  | .commit _ => false
  | .abort _ => false
  | .detach => false
  | .restart _ _ _ => false
  | _ => (command.on? unpacker g).isNone

/-! ## Accounts -/

/-- The totals of one insert. -/
def Written.totals (w : Written) : GroupStats :=
  ⟨1, w.tags.countP Tag.isKeyframe, w.rawBytes, w.storedBytes, w.seq⟩

/-- What there is to know of a group. -/
structure Account where
  coder : DiffCoder
  unpacker : Unpacker
  /-- What is known of the table of the group. -/
  table : Option TableState := none
  history : List (List Bytes) := []
  /-- The totals that are published. -/
  published : Option GroupStats := none
  /-- The totals that each transaction has gathered. -/
  pending : Nat → Option GroupStats := fun _ => none

namespace Account

/-- What an insert gives, unless its row is refused. -/
def insert (a : Account) (g : GroupId) (refusal : Option RowError) (values : List Bytes) :
    Except StoreError Written := inserting a.coder g a.table a.history refusal values

/-- What is read, if there is a table. -/
def read {α : Type} (a : Account) (g : GroupId) (f : TableState → Except StoreError α) :
    Except StoreError α :=
  match a.table with
  | none => .error (.noTable g.table)
  | some state => f state

/-- What is replied, if a row that gets to the row store is refused or taken. -/
def reply (a : Account) (g : GroupId) (refusal : Option RowError) : GroupCommand → GroupReply
  | .insert _ values => .inserted (a.insert g refusal values)
  | .getVersion seq =>
    .version (a.read g fun state => .ok (gather a.history seq 0 #[] state.columns))
  | .getColumn seq column =>
    .column (a.read g fun state =>
      if column < state.columns then .ok (contentAt a.history seq column)
      else .error (.noColumn g.table state.columns column))
  | .latestSeq =>
    .latest (a.read g fun _ =>
      .ok (if a.history.length = 0 then none else some a.history.length))
  | .history => .history (a.read g fun _ => .ok (List.range' 1 a.history.length))
  | .groupStats => .stats (.ok a.published)

/-- The totals of an insert are published, or gathered by a transaction. -/
def noted (a : Account) (transaction : Option Nat) (totals : GroupStats) : Account :=
  match transaction with
  | none => { a with published := GroupStats.join a.published (some totals) }
  | some id =>
    { a with pending := Function.update a.pending id (GroupStats.join (a.pending id) (some totals)) }

/-- The account after an insert that gave this. -/
def inserted (a : Account) (transaction : Option Nat) (values : List Bytes) :
    Except StoreError Written → Account
  | .ok written => { a.noted transaction written.totals with history := a.history ++ [values] }
  | .error _ => a

/-- The account after a command, if a row that gets to the row store is refused or taken. -/
def after (a : Account) (g : GroupId) (refusal : Option RowError) : Command → Account
  | .createTable table columns settings =>
    if table = g.table ∧ settings.validate = .ok () ∧ columns ≤ maxColumns ∧ a.table = none then
      { a with table := some ⟨settings, columns⟩ }
    else a
  | .insert transaction table key values =>
    if key.Names a.unpacker table g then a.inserted transaction values (a.insert g refusal values)
    else a
  | .commit id =>
    { a with
      published := GroupStats.join a.published (a.pending id)
      pending := Function.update a.pending id none }
  | .abort id => { a with pending := Function.update a.pending id none }
  | _ => a

/-- How many places are taken by an insert that gave this. -/
def placesFor : Except StoreError Written → Nat
  | .ok _ => 1
  | .error _ => 0

/-- How many places a command takes for rows of the group. -/
def takes (a : Account) (g : GroupId) (refusal : Option RowError) : Command → Nat
  | .insert _ table key values =>
    if key.Names a.unpacker table g then placesFor (a.insert g refusal values) else 0
  | _ => 0

/-- The table is set up well, and the history fits it. -/
structure Sound (a : Account) : Prop where
  fits : ∀ state, a.table = some state → state.settings.validate = .ok () ∧
    state.columns ≤ maxColumns ∧ Full a.history state.columns
  absent : a.table = none → a.history = []

/-- A store and its transactions are set up as the account says, and count the same for the
group. -/
structure Describes (a : Account) (g : GroupId) (s : Store MemoryRows)
    (transactions : Nat → Transaction) : Prop where
  codec : s.codec = a.coder.codec
  unpacker : s.unpacker = a.unpacker
  table : s.tables[g.table]? = a.table
  published : s.statistics.get? g = a.published
  pending : ∀ id, (transactions id).pending.get? g = a.pending id

end Account

/-- A run stands for the account of a group: the rows of the group and all that is cached of it are
those of its history. Its table has at least so many places. -/
structure Isolated (g : GroupId) (a : Account) (room : Nat) (r : Run) : Prop where
  sound : a.Sound
  describes : a.Describes g r.store r.transactions
  sheltered : Sheltered g a.history room r.store

variable {g : GroupId} {a : Account} {r : Run} {s : Store MemoryRows} {room : Nat}
  {history : List (List Bytes)} {transactions : Nat → Transaction} {table : TableId} {key : Key}
  {values : List Bytes} {refusal : Option RowError} {services : Nat → ServiceSettings}

/-! ## Sound accounts -/

/-- What it takes for an insert to succeed. -/
theorem Account.insert_eq_ok {written : Written} (h : a.insert g refusal values = .ok written) :
    written.group = g.group ∧ refusal = none ∧ ∃ state, a.table = some state ∧
      values.length = state.columns ∧ ∀ value ∈ values, value.size < Diff.lengthLimit := by
  unfold Account.insert inserting at h
  cases htable : a.table with
  | none =>
    rw [htable] at h
    cases h
  | some state =>
    rw [htable] at h
    simp only at h
    split at h
    · cases h
    · rename_i hlength
      unfold storing at h
      simp only at h
      split at h
      · rename_i hshort
        cases refusal with
        | some cause => cases h
        | none =>
          cases h
          exact ⟨rfl, rfl, state, rfl, not_not.mp hlength, hshort⟩
      · cases h

theorem Account.Sound.inserted (h : a.Sound) (g : GroupId) (refusal : Option RowError)
    (transaction : Option Nat) (values : List Bytes) :
    (a.inserted transaction values (a.insert g refusal values)).Sound := by
  cases hresult : a.insert g refusal values with
  | error cause => exact h
  | ok written =>
    obtain ⟨-, -, state, htable, hlength, hshort⟩ := Account.insert_eq_ok hresult
    have hsame : (a.noted transaction written.totals).table = a.table := by
      cases transaction <;> rfl
    refine ⟨fun found hfound => ?_, fun hnone => ?_⟩
    · have hfound' : a.table = some found := hsame.symm.trans hfound
      obtain ⟨hvalid, hnarrow, hfull⟩ := h.fits found hfound'
      cases htable.symm.trans hfound'
      exact ⟨hvalid, hnarrow, hfull.append hlength hshort⟩
    · cases htable.symm.trans (hsame.symm.trans hnone)

theorem Account.Sound.after (h : a.Sound) (g : GroupId) (refusal : Option RowError)
    (command : Command) : (a.after g refusal command).Sound := by
  cases command with
  | createTable table columns settings =>
    unfold Account.after
    simp only
    split
    · rename_i hcond
      refine ⟨?_, nofun⟩
      rintro _ ⟨⟩
      refine ⟨hcond.2.1, hcond.2.2.1, ?_⟩
      -- nothing was stored before there was a table
      show Full a.history columns
      rw [h.absent hcond.2.2.2]
      exact Ledger.full_nil _
    · exact h
  | insert transaction table key values =>
    unfold Account.after
    simp only
    split
    · exact h.inserted g refusal transaction values
    · exact h
  | commit id => exact ⟨h.fits, h.absent⟩
  | abort id => exact ⟨h.fits, h.absent⟩
  | _ => exact h

/-! ## What is not about the group -/

/-- The codec, the unpacker, the tables and the statistics are the same. -/
structure SameSetup (s s' : Store MemoryRows) : Prop where
  codec : s'.codec = s.codec
  unpacker : s'.unpacker = s.unpacker
  tables : s'.tables = s.tables
  statistics : s'.statistics = s.statistics

theorem SameSetup.refl (s : Store MemoryRows) : SameSetup s s := ⟨rfl, rfl, rfl, rfl⟩

theorem setupStable_sameSetup (s : Store MemoryRows) : SetupStable (SameSetup s) :=
  fun _ _ _ h => ⟨h.codec, h.unpacker, h.tables, h.statistics⟩

namespace Account.Describes

theorem of_setup (h : a.Describes g s transactions) {s' : Store MemoryRows}
    (hs' : SameSetup s s') : a.Describes g s' transactions where
  codec := hs'.codec.trans h.codec
  unpacker := hs'.unpacker.trans h.unpacker
  table := by
    rw [hs'.tables]
    exact h.table
  published := by
    rw [hs'.statistics]
    exact h.published
  pending := h.pending

/-- An operation that touches nothing but the service and the rows. -/
theorem keeps (h : a.Describes g s transactions) {α : Type} {action : StoreM MemoryRows α}
    (haction : ∀ {P}, SetupStable P → Keeps action P) :
    a.Describes g (action s).2 transactions :=
  h.of_setup (haction (setupStable_sameSetup s) s (.refl s))

theorem with_table (h : a.Describes g s transactions) {tables : Std.HashMap TableId TableState}
    {state : Option TableState} (htable : tables[g.table]? = state) {statistics : Statistics}
    (hpublished : statistics.get? g = a.published) (service : Service) (rows : MemoryRows) :
    { a with table := state }.Describes g { s with service, rows, tables, statistics }
      transactions :=
  ⟨h.codec, h.unpacker, htable, hpublished, h.pending⟩

/-- What is noted for another group. -/
theorem noted_other (h : a.Describes g r.store r.transactions) (transaction : Option Nat)
    {outcome : Outcome} (hother : g ≠ ⟨table, outcome.group⟩) :
    a.Describes g (r.noted transaction table outcome).store
      (r.noted transaction table outcome).transactions := by
  cases transaction with
  | none =>
    refine ⟨h.codec, h.unpacker, h.table, ?_, h.pending⟩
    exact (Statistics.get?_record _ _ _ g).trans ((if_neg hother).trans h.published)
  | some id =>
    refine ⟨h.codec, h.unpacker, h.table, h.published, fun other => ?_⟩
    refine Eq.trans ?_ (h.pending other)
    show (Function.update r.transactions id _ other).pending.get? g = _
    by_cases hid : other = id
    · rw [hid, Function.update_self]
      exact (Statistics.get?_record _ _ _ g).trans (if_neg hother)
    · rw [Function.update_of_ne hid]

/-- What is noted for the group. -/
theorem noted_self (h : a.Describes g r.store r.transactions) (transaction : Option Nat)
    {outcome : Outcome} (hself : g = ⟨table, outcome.group⟩) :
    (a.noted transaction (.ofOutcome outcome)).Describes g
      (r.noted transaction table outcome).store (r.noted transaction table outcome).transactions := by
  cases transaction with
  | none =>
    refine ⟨h.codec, h.unpacker, h.table, ?_, h.pending⟩
    refine (Statistics.get?_record _ _ _ g).trans ((if_pos hself).trans ?_)
    rw [h.published]
    rfl
  | some id =>
    refine ⟨h.codec, h.unpacker, h.table, h.published, fun other => ?_⟩
    show (Function.update r.transactions id _ other).pending.get? g =
      Function.update a.pending id _ other
    by_cases hid : other = id
    · rw [hid, Function.update_self, Function.update_self]
      refine (Statistics.get?_record _ _ _ g).trans ((if_pos hself).trans ?_)
      rw [h.pending]
    · rw [Function.update_of_ne hid, Function.update_of_ne hid]
      exact h.pending other

end Account.Describes

/-! ## Inserting into the group -/

/-- Whatever comes first, the last step gives this. -/
theorem StoreM.Ends.gives {α β : Type} {x : StoreM MemoryRows α} {f : α → StoreM MemoryRows β}
    {p : β → Prop} (h : ∀ a s', Ends (f a) s' fun r _ => ∀ b, r = .ok b → p b) :
    Ends (x >>= f) s fun r _ => ∀ b, r = .ok b → p b :=
  Ends.bind (R := fun _ _ => True) trivial (fun a s' _ => h a s') fun _ _ _ => nofun

/-- The outcome of an insert bears the fingerprint of the key. -/
theorem ends_insertRow_group (table : TableId) (key : Key) (values : List Bytes) :
    Ends (insertRow table key values) s fun r _ =>
      ∀ outcome, r = .ok outcome → key.fingerprint s.unpacker = .ok outcome.group := by
  cases hkey : key.fingerprint s.unpacker with
  | error cause =>
    exact (Runs.bind_error (runs_fingerprint_error (Q := fun _ => True) hkey trivial)).ends
      fun _ _ => nofun
  | ok group =>
    refine Ends.bind_of_eq (fingerprint_eq hkey) (.gives fun state s₁ => ?_)
    split
    · exact nofun
    · refine .gives fun seq s₂ => ?_
      have hstored : Ends (storeVersion ⟨⟨table, group⟩, seq⟩ state.settings values) s₂ fun r _ =>
          ∀ outcome, r = .ok outcome → outcome.group = group := by
        refine .gives fun _ _ => .gives fun _ _ => .gives fun _ _ => .gives fun _ _ => ?_
        refine .gives fun _ _ => .gives fun _ _ => .gives fun _ _ => ?_
        rintro _ ⟨⟩
        rfl
      refine Ends.caught hstored (fun outcome _ hgroup => ?_) fun e s₃ _ => .gives fun _ _ => nofun
      rintro _ ⟨⟩
      rw [hgroup outcome rfl]

namespace Isolated

variable (h : Isolated g a room r)

include h

/-- An insert into the group gives what its account calls for, and takes as many places as the
account notes. -/
theorem insert (hnames : key.Names a.unpacker table g) (transaction : Option Nat)
    (values : List Bytes) :
    let result := r.insert transaction table key values
    let given := a.insert g (r.store.rows.refusal g.table) values
    result.1.map (writtenAs result.2.store.rows table) = given ∧
    Isolated g (a.inserted transaction values given) (room + Account.placesFor given) result.2 ∧
    (result.2.store.rows.places g.table).size =
      (r.store.rows.places g.table).size + Account.placesFor given := by
  obtain ⟨rfl, hkey⟩ := hnames
  rw [← h.describes.unpacker] at hkey
  have hrow := h.sheltered.upholds.ends_insertRow h.describes.codec hkey
    (fun state htable => h.sound.fits state (h.describes.table.symm.trans htable)) values
  have hsetup := h.describes.keeps fun hP => hP.keeps_insertRow g.table key values
  unfold Ends at hrow
  intro result given
  have hsound : (a.inserted transaction values given).Sound := h.sound.inserted _ _ _ _
  cases hpair : insertRow g.table key values r.store with
  | mk outcome store =>
    rw [hpair, h.describes.table] at hrow
    rw [hpair] at hsetup
    obtain ⟨hgiven : _ = given, hafter⟩ := hrow
    cases outcome with
    | error cause =>
      have hresult : result = (.error cause, { r with store }) := Run.insert_of_error hpair transaction
      rw [← hgiven] at hsound ⊢
      rw [hresult]
      refine ⟨rfl, ⟨hsound, hsetup, hafter.1.sheltered ?_⟩, hafter.2⟩
      rw [hafter.2]
      exact h.sheltered.room_le
    | ok outcome =>
      have hresult : result = (.ok outcome,
          ({ r with store }.noted transaction g.table outcome).logged g.table outcome values) :=
        Run.insert_of_ok hpair transaction
      have hrows : result.2.store.rows = store.rows := by
        rw [hresult]
        cases transaction <;> rfl
      have hservice : result.2.store.service = store.service := by
        rw [hresult]
        cases transaction <;> rfl
      rw [hrows, ← hgiven]
      rw [← hgiven] at hsound
      have hself : g = ⟨g.table, outcome.group⟩ := by
        obtain ⟨hgroup, -⟩ := Account.insert_eq_ok hgiven.symm
        exact congrArg (GroupId.mk g.table) hgroup.symm
      have hnoted := Account.Describes.noted_self (r := { r with store }) hsetup transaction hself
      have hroom : room + 1 ≤ (store.rows.places g.table).size := by
        rw [hafter.2]
        exact Nat.succ_le_succ h.sheltered.room_le
      refine ⟨?_, ⟨hsound, ?_, (hafter.1.sheltered hroom).congr hservice hrows⟩, hafter.2⟩
      · rw [hresult]
      · rw [hresult]
        exact ⟨hnoted.codec, hnoted.unpacker, hnoted.table, hnoted.published, hnoted.pending⟩

/-! ## Reading from the group -/

/-- Reading from the table of the group, if there is one. -/
theorem runs_read {α : Type} {f : TableState → StoreM MemoryRows α}
    {result : TableState → Except StoreError α}
    (hread : ∀ state, r.store.tables[g.table]? = some state → state.columns ≤ maxColumns →
      Runs (tableState g.table >>= f) r.store (result state) (Sheltered g a.history room)) :
    Runs (tableState g.table >>= f) r.store (a.read g result) (Sheltered g a.history room) := by
  unfold Account.read
  cases htable : a.table with
  | none =>
    exact Runs.bind_error (runs_tableState_error (h.describes.table.trans htable) h.sheltered)
  | some state =>
    exact hread state (h.describes.table.trans htable) (h.sound.fits state htable).2.1

theorem sheltered_of_upholds {s' : Store MemoryRows} (hs' : Upholds g a.history s')
    (hrows : Recounted r.store.rows s'.rows) : Sheltered g a.history room s' := by
  refine hs'.sheltered ?_
  rw [hrows.places]
  exact h.sheltered.room_le

variable (hkey : key.fingerprint r.store.unpacker = .ok g.group)

include hkey

theorem runs_getVersion (seq : Nat) :
    Runs (getVersion g.table key seq) r.store
      (a.read g fun state => .ok (gather a.history seq 0 #[] state.columns))
      (Sheltered g a.history room) :=
  h.runs_read fun _ htable hnarrow =>
    (h.sheltered.upholds.runs_getVersion htable hkey h.describes.codec hnarrow seq).imp
      fun _ => h.sheltered.quiet

theorem runs_getColumn (seq column : Nat) :
    Runs (getColumn g.table key seq column) r.store
      (a.read g fun state =>
        if column < state.columns then .ok (contentAt a.history seq column)
        else .error (.noColumn g.table state.columns column))
      (Sheltered g a.history room) := by
  refine h.runs_read fun state htable hnarrow => ?_
  split
  · rename_i hcolumn
    exact (h.sheltered.upholds.runs_getColumn htable hkey h.describes.codec hnarrow seq hcolumn).imp
      fun _ => h.sheltered.quiet
  · rename_i hcolumn
    refine Runs.bind_of_eq (tableState_eq htable) ?_
    rw [if_neg hcolumn]
    exact .throw h.sheltered

theorem runs_latestSeq :
    Runs (latestSeq g.table key) r.store
      (a.read g fun _ => .ok (if a.history.length = 0 then none else some a.history.length))
      (Sheltered g a.history room) :=
  h.runs_read fun _ htable _ =>
    (h.sheltered.upholds.runs_latestSeq htable hkey).imp
      fun _ hs' => h.sheltered_of_upholds hs'.1 hs'.2

theorem runs_history :
    Runs (StoreM.history g.table key) r.store
      (a.read g fun _ => .ok (List.range' 1 a.history.length)) (Sheltered g a.history room) :=
  h.runs_read fun _ htable _ =>
    (h.sheltered.upholds.runs_history htable hkey).imp
      fun _ hs' => h.sheltered_of_upholds hs'.1 hs'.2

theorem runs_groupStats :
    Runs (groupStats g.table key) r.store (.ok a.published) (Sheltered g a.history room) := by
  refine Runs.bind_of_eq (fingerprint_eq hkey) (Runs.bind_of_eq (get_eq r.store) ?_)
  rw [← h.describes.published]
  exact .pure h.sheltered

omit hkey in
theorem ask (hnames : key.Names a.unpacker table g) (asked : GroupCommand) :
    r.ask table key asked = a.reply g (r.store.rows.refusal g.table) asked := by
  have hinserted := fun transaction values => (h.insert hnames transaction values).1
  rw [← h.describes.unpacker] at hnames
  obtain ⟨rfl, hkey⟩ := hnames
  cases asked with
  | insert transaction values => exact congrArg GroupReply.inserted (hinserted transaction values)
  | getVersion seq => exact congrArg GroupReply.version (h.runs_getVersion hkey seq).eq.1
  | getColumn seq column =>
    exact congrArg GroupReply.column (h.runs_getColumn hkey seq column).eq.1
  | latestSeq => exact congrArg GroupReply.latest (h.runs_latestSeq hkey).eq.1
  | history => exact congrArg GroupReply.history (h.runs_history hkey).eq.1
  | groupStats => exact congrArg GroupReply.stats (h.runs_groupStats hkey).eq.1

omit hkey in
/-- What is replied on the group is read off its account. -/
theorem replyOn (command : Command) : r.replyOn g command =
    (command.on? a.unpacker g).map (a.reply g (r.store.rows.refusal g.table)) := by
  unfold Run.replyOn Command.on?
  rw [h.describes.unpacker]
  cases command.asks with
  | none => rfl
  | some asks =>
    obtain ⟨table, key, asked⟩ := asks
    show (if key.Names a.unpacker table g then some (r.ask table key asked) else none) =
      Option.map _ (if key.Names a.unpacker table g then some asked else none)
    split
    · rename_i hnames
      exact congrArg some (h.ask hnames asked)
    · rfl

end Isolated

end VersionChain
