import VersionChain.Proofs.Store.Account

/-!
# What one command does to a group

A command that is not for the group leaves what the store holds for it alone. A command that is for
the group, its table or a transaction does to the store what it does to the account of the group.
Only an insert takes a place for a row.

* `Sheltered.step` — a command that is for other groups;
* `Account.Describes.step` — the tables and the statistics;
* `Isolated.step` — any command;
* `Isolated.size_step` — the places that are taken by a command that is not for other groups.
-/

namespace VersionChain

open StoreM MemoryRows

variable {g : GroupId} {a : Account} {r : Run} {s : Store MemoryRows} {room : Nat}
  {history : List (List Bytes)} {transactions : Nat → Transaction} {table : TableId} {key : Key}
  {command : Command} {α : Type}

/-! ## Rows and caches -/

/-- What holds after an operation holds after the run has removed its log. -/
theorem Run.remove_spec {action : StoreM MemoryRows α} {R : Store MemoryRows → Prop}
    (h : Ends action r.store fun _ => R) (table : TableId) : R (r.remove table action).store := by
  unfold Ends at h
  unfold Run.remove
  cases hpair : action r.store with
  | mk result store =>
    rw [hpair] at h
    cases result <;> exact h

theorem Run.transactions_remove (r : Run) (table : TableId) (action : StoreM MemoryRows α) :
    (r.remove table action).transactions = r.transactions := by
  unfold Run.remove
  split <;> rfl

/-- A command that is for other groups leaves the group alone. -/
theorem Sheltered.step (h : Sheltered g history room r.store) (services : Nat → ServiceSettings)
    (hspares : command.Spares g) (hother : command.on? r.store.unpacker g = none) :
    Sheltered g history room (r.step services command).store := by
  have hstable := callStable_sheltered g history room
  cases command with
  | createTable table columns settings =>
    exact keeps_createTable_sheltered g history room table columns settings r.store h
  | insert transaction table key values =>
    have hnot := Command.not_names hother rfl
    exact (Run.insert_spec (h.ends_insertRow (fun hkey htable => hnot ⟨htable, hkey⟩) values)
      (fun _ _ _ hs => hs.congr rfl rfl) transaction).1
  | commit id => exact h.congr rfl rfl
  | abort id => exact h
  | getVersion table key seq =>
    have hnot := Command.not_names hother rfl
    exact h.ends_getVersion (fun hkey htable => hnot ⟨htable, hkey⟩) seq
  | getColumn table key seq column =>
    have hnot := Command.not_names hother rfl
    exact h.ends_getColumn (fun hkey htable => hnot ⟨htable, hkey⟩) seq column
  | latestSeq table key => exact keeps_latestSeq_sheltered g history room table key r.store h
  | history table key => exact hstable.keeps_history table key r.store h
  | seqAt table location => exact hstable.keeps_seqAt table location r.store h
  | groupStats table key => exact keeps_groupStats table key r.store h
  | truncate table => exact Run.remove_spec (h.ends_truncate hspares) table
  | dropTable table => exact Run.remove_spec (h.ends_dropTable hspares) table
  | relocate place => exact h.relocate place
  | rejectAppends count => exact h.with_rejecting count
  | invalidate table => exact h.invalidate table
  | invalidatePart part table =>
    exact keeps_invalidatePart_sheltered g history room part table r.store h
  | detach => exact hstable.with_scheduler r.store _ h
  | restart coder unpacker settings => exact hspares.elim

/-! ## Tables and statistics -/

namespace Account.Describes

theorem createTable (h : a.Describes g s transactions) (refusal : Option RowError)
    (table : TableId) (columns : Nat) (settings : TableSettings) :
    (a.after g refusal (.createTable table columns settings)).Describes g
      (StoreM.createTable table columns settings s).2 transactions := by
  unfold Account.after
  simp only
  by_cases hcond : settings.validate = .ok () ∧ columns ≤ maxColumns ∧ s.tables[table]? = none
  · have hget := getElem?_insert_table s.tables table ⟨settings, columns⟩ g.table
    rw [createTable_eq hcond.1 hcond.2.1 hcond.2.2]
    by_cases htable : table = g.table
    · -- the table of the group is created
      subst htable
      rw [if_pos ⟨rfl, hcond.1, hcond.2.1, h.table.symm.trans hcond.2.2⟩]
      exact h.with_table (hget.trans (if_pos rfl)) h.published _ _
    · rw [if_neg fun hall => htable hall.1]
      exact h.with_table ((hget.trans (if_neg (Ne.symm htable))).trans h.table) h.published _ _
  · -- nothing happens
    obtain ⟨cause, hfailed⟩ := createTable_eq_error hcond
    rw [hfailed, if_neg]
    · exact h
    · rintro ⟨rfl, hvalid, hnarrow, hnew⟩
      exact hcond ⟨hvalid, hnarrow, h.table.trans hnew⟩

/-- The statistics of another table are forgotten. -/
theorem published_forgetTable (h : a.Describes g s transactions) (hother : table ≠ g.table) :
    (s.statistics.forgetTable table).get? g = a.published :=
  (Statistics.get?_forgetTable _ _ g).trans ((if_neg hother.symm).trans h.published)

theorem ends_truncate (h : a.Describes g s transactions) (hother : table ≠ g.table) :
    Ends (StoreM.truncate table) s fun _ s' => a.Describes g s' transactions := by
  cases htable : s.tables[table]? with
  | none => exact (Runs.bind_error (runs_tableState_error htable h)).ends fun _ hs => hs
  | some state =>
    refine Ends.bind_of_eq (tableState_eq htable) (Ends.bind_of_eq (onRows_eq rfl) ?_)
    exact h.with_table h.table (h.published_forgetTable hother) _ _

theorem ends_dropTable (h : a.Describes g s transactions) (hother : table ≠ g.table) :
    Ends (StoreM.dropTable table) s fun _ s' => a.Describes g s' transactions := by
  cases htable : s.tables[table]? with
  | none => exact (Runs.bind_error (runs_tableState_error htable h)).ends fun _ hs => hs
  | some state =>
    refine Ends.bind_of_eq (tableState_eq htable) (Ends.bind_of_eq (onRows_eq rfl) ?_)
    refine h.with_table ?_ (h.published_forgetTable hother) _ _
    rw [getElem?_erase_table, if_neg hother.symm]
    exact h.table

/-- An insert into another group is noted for that group. -/
theorem insert_other (h : a.Describes g r.store r.transactions)
    (hnot : ¬ key.Names a.unpacker table g) (transaction : Option Nat) (values : List Bytes) :
    let result := r.insert transaction table key values
    a.Describes g result.2.store result.2.transactions := by
  have hsetup := h.keeps fun hP => hP.keeps_insertRow table key values
  have hgroup := ends_insertRow_group (s := r.store) table key values
  unfold Ends at hgroup
  intro result
  cases hpair : insertRow table key values r.store with
  | mk given store =>
    rw [hpair, h.unpacker] at hgroup
    rw [hpair] at hsetup
    cases given with
    | error cause =>
      rw [show result = _ from Run.insert_of_error hpair transaction]
      exact hsetup
    | ok outcome =>
      have hne : g ≠ ⟨table, outcome.group⟩ := by
        rintro rfl
        exact hnot ⟨rfl, hgroup outcome rfl⟩
      rw [show result = _ from Run.insert_of_ok hpair transaction]
      exact noted_other (r := { r with store }) hsetup transaction hne

/-- A transaction that has ended has gathered nothing. -/
theorem pending_dropped (h : a.Describes g r.store r.transactions) (id other : Nat) :
    (Function.update r.transactions id {} other).pending.get? g =
      Function.update a.pending id none other := by
  by_cases hother : other = id
  · rw [hother, Function.update_self, Function.update_self]
    exact Statistics.get?_empty g
  · rw [Function.update_of_ne hother, Function.update_of_ne hother]
    exact h.pending other

/-- One command does to the tables and the statistics what it does to the account, unless it stores
a version of the group. -/
theorem step (h : a.Describes g r.store r.transactions) (services : Nat → ServiceSettings)
    (refusal : Option RowError) (hspares : command.Spares g)
    (hnot : ∀ transaction values, command.on? a.unpacker g ≠ some (.insert transaction values)) :
    (a.after g refusal command).Describes g (r.step services command).store
      (r.step services command).transactions := by
  cases command with
  | createTable table columns settings => exact h.createTable refusal table columns settings
  | insert transaction table key values =>
    have hother : ¬ key.Names a.unpacker table g := fun hnames =>
      hnot transaction values (if_pos hnames)
    unfold Account.after
    simp only
    rw [if_neg hother]
    exact h.insert_other hother transaction values
  | commit id =>
    refine ⟨h.codec, h.unpacker, h.table, ?_, h.pending_dropped id⟩
    refine (Statistics.get?_flush _ _ g).trans ?_
    rw [h.published, h.pending]
    rfl
  | abort id => exact ⟨h.codec, h.unpacker, h.table, h.published, h.pending_dropped id⟩
  | getVersion table key seq =>
    exact h.keeps fun hP => hP.cacheStable.keeps_getVersion table key seq
  | getColumn table key seq column =>
    exact h.keeps fun hP => hP.cacheStable.keeps_getColumn table key seq column
  | latestSeq table key => exact h.keeps fun hP => hP.numberStable.keeps_latestSeq table key
  | history table key => exact h.keeps fun hP => hP.cacheStable.keeps_history table key
  | seqAt table location => exact h.keeps fun hP => hP.cacheStable.keeps_seqAt table location
  | groupStats table key => exact h.keeps fun _ => keeps_groupStats table key
  | truncate table =>
    rw [show (r.step services (.truncate table)).transactions = _ from r.transactions_remove _ _]
    exact Run.remove_spec (h.ends_truncate hspares) table
  | dropTable table =>
    rw [show (r.step services (.dropTable table)).transactions = _ from r.transactions_remove _ _]
    exact Run.remove_spec (h.ends_dropTable hspares) table
  | relocate place => exact ⟨h.codec, h.unpacker, h.table, h.published, h.pending⟩
  | rejectAppends count => exact ⟨h.codec, h.unpacker, h.table, h.published, h.pending⟩
  | invalidate table => exact ⟨h.codec, h.unpacker, h.table, h.published, h.pending⟩
  | invalidatePart part table =>
    cases part <;> exact ⟨h.codec, h.unpacker, h.table, h.published, h.pending⟩
  | detach => exact ⟨h.codec, h.unpacker, h.table, h.published, h.pending⟩
  | restart coder unpacker settings => exact hspares.elim

end Account.Describes

/-! ## Any command -/

/-- A command that stores no version of the group leaves the history as it is. -/
theorem Account.after_history (refusal : Option RowError)
    (hnot : ∀ transaction values, command.on? a.unpacker g ≠ some (.insert transaction values)) :
    (a.after g refusal command).history = a.history ∧ a.takes g refusal command = 0 := by
  cases command with
  | createTable table columns settings =>
    unfold Account.after
    simp only
    split <;> exact ⟨rfl, rfl⟩
  | insert transaction table key values =>
    have hother : ¬ key.Names a.unpacker table g := fun hnames =>
      hnot transaction values (if_pos hnames)
    unfold Account.after Account.takes
    simp only
    rw [if_neg hother, if_neg hother]
    exact ⟨rfl, rfl⟩
  | _ => exact ⟨rfl, rfl⟩

namespace Isolated

/-- A command that stores no version of the group. -/
theorem step_of_sheltered (h : Isolated g a room r) (services : Nat → ServiceSettings)
    (refusal : Option RowError) (hspares : command.Spares g)
    (hnot : ∀ transaction values, command.on? a.unpacker g ≠ some (.insert transaction values))
    (hsheltered : Sheltered g a.history room (r.step services command).store) :
    Isolated g (a.after g refusal command) (room + a.takes g refusal command)
      (r.step services command) := by
  obtain ⟨hhistory, htakes⟩ := Account.after_history refusal hnot
  refine ⟨h.sound.after g refusal command, h.describes.step services refusal hspares hnot, ?_⟩
  rw [hhistory, htakes]
  exact hsheltered

/-- One command does to the group what it does to the account. -/
theorem step (h : Isolated g a room r) (services : Nat → ServiceSettings)
    (hspares : command.Spares g) :
    Isolated g (a.after g (r.store.rows.refusal g.table) command)
      (room + a.takes g (r.store.rows.refusal g.table) command) (r.step services command) := by
  cases hasked : command.on? a.unpacker g with
  | none =>
    have hother : command.on? r.store.unpacker g = none := by
      rw [h.describes.unpacker]
      exact hasked
    refine h.step_of_sheltered services _ hspares (fun _ _ => ?_)
      (h.sheltered.step services hspares hother)
    rw [hasked]
    exact nofun
  | some asked =>
    obtain ⟨table, key, hasks, hnames⟩ := Command.on?_eq_some hasked
    have hread : (∀ transaction values, asked ≠ .insert transaction values) →
        Sheltered g a.history room (r.step services command).store →
        Isolated g (a.after g (r.store.rows.refusal g.table) command)
          (room + a.takes g (r.store.rows.refusal g.table) command) (r.step services command) := by
      intro hnot
      refine h.step_of_sheltered services _ hspares fun transaction values heq => ?_
      exact hnot transaction values (Option.some.inj (hasked.symm.trans heq))
    have hkey := hnames
    rw [← h.describes.unpacker] at hkey
    obtain ⟨rfl, hkey⟩ := hkey
    cases command with
    | insert transaction table key values =>
      cases hasks
      have hinserted := (h.insert hnames transaction values).2.1
      unfold Account.after Account.takes
      simp only
      rw [if_pos hnames, if_pos hnames]
      exact hinserted
    | getVersion table key seq =>
      cases hasks
      exact hread nofun (h.runs_getVersion hkey seq).eq.2
    | getColumn table key seq column =>
      cases hasks
      exact hread nofun (h.runs_getColumn hkey seq column).eq.2
    | latestSeq table key =>
      cases hasks
      exact hread nofun (h.runs_latestSeq hkey).eq.2
    | history table key =>
      cases hasks
      exact hread nofun (h.runs_history hkey).eq.2
    | groupStats table key =>
      cases hasks
      exact hread nofun (h.runs_groupStats hkey).eq.2
    | _ => cases hasks

end Isolated

/-! ## Commands for other groups, and places -/

theorem Command.on?_of_isElsewhere {unpacker : Unpacker}
    (helsewhere : command.isElsewhere unpacker g = true) : command.on? unpacker g = none := by
  cases command with
  | createTable table columns settings => rfl
  | commit id => rfl
  | abort id => rfl
  | seqAt table location => rfl
  | truncate table => rfl
  | dropTable table => rfl
  | relocate place => rfl
  | rejectAppends count => rfl
  | invalidate table => rfl
  | invalidatePart part table => rfl
  | detach => rfl
  | restart coder unpacker settings => rfl
  | _ => exact Option.isNone_iff_eq_none.mp helsewhere

/-- A command for other groups leaves the account alone. -/
theorem Account.after_of_isElsewhere (refusal : Option RowError)
    (helsewhere : command.isElsewhere a.unpacker g = true) :
    a.after g refusal command = a ∧ a.takes g refusal command = 0 := by
  cases command with
  | createTable table columns settings =>
    unfold Account.after
    simp only
    rw [if_neg]
    · exact ⟨rfl, rfl⟩
    · exact fun hall => of_decide_eq_true helsewhere hall.1
  | insert transaction table key values =>
    have hother := Command.not_names (Option.isNone_iff_eq_none.mp helsewhere) rfl
    unfold Account.after Account.takes
    simp only
    rw [if_neg hother, if_neg hother]
    exact ⟨rfl, rfl⟩
  | commit id => cases helsewhere
  | abort id => cases helsewhere
  | _ => exact ⟨rfl, rfl⟩

/-- A command that neither stores nor moves nor removes rows. -/
def Command.LeavesRows : Command → Prop
  | .insert _ _ _ _ => False
  | .truncate _ => False
  | .dropTable _ => False
  | .relocate _ => False
  | .rejectAppends _ => False
  | .restart _ _ _ => False
  | _ => True

theorem cacheStable_recounted (m : MemoryRows) : CacheStable fun s => Recounted m s.rows where
  with_locations _ _ _ hs := hs
  with_rows _ _ hrows hs := hs.trans hrows
  with_content _ _ hs := hs
  with_staging _ _ hs := hs
  with_scheduler _ _ hs := hs

/-- Rows may be counted differently after such a command, and nothing else. -/
theorem Run.recounted_step (r : Run) (services : Nat → ServiceSettings)
    (hleaves : command.LeavesRows) :
    Recounted r.store.rows (r.step services command).store.rows := by
  have hstable := cacheStable_recounted r.store.rows
  cases command with
  | createTable table columns settings =>
    show Recounted r.store.rows (StoreM.createTable table columns settings r.store).2.rows
    by_cases hcond : settings.validate = .ok () ∧ columns ≤ maxColumns ∧
        r.store.tables[table]? = none
    · rw [createTable_eq hcond.1 hcond.2.1 hcond.2.2]
      rfl
    · obtain ⟨cause, hfailed⟩ := createTable_eq_error hcond
      rw [hfailed]
      rfl
  | getVersion table key seq => exact hstable.keeps_getVersion table key seq r.store rfl
  | getColumn table key seq column => exact hstable.keeps_getColumn table key seq column r.store rfl
  | latestSeq table key =>
    have hnumber : NumberStable fun s => Recounted r.store.rows s.rows :=
      ⟨fun _ _ hs => hs, fun _ _ hrows hs => hs.trans hrows⟩
    exact hnumber.keeps_latestSeq table key r.store rfl
  | history table key => exact hstable.keeps_history table key r.store rfl
  | seqAt table location => exact hstable.keeps_seqAt table location r.store rfl
  | groupStats table key =>
    exact keeps_groupStats (P := fun s => Recounted r.store.rows s.rows) table key r.store rfl
  | commit id => rfl
  | abort id => rfl
  | invalidate table => rfl
  | invalidatePart part table => cases part <;> rfl
  | detach => rfl
  | insert transaction table key values => exact hleaves.elim
  | truncate table => exact hleaves.elim
  | dropTable table => exact hleaves.elim
  | relocate place => exact hleaves.elim
  | rejectAppends count => exact hleaves.elim
  | restart coder unpacker settings => exact hleaves.elim

theorem Command.LeavesRows.not_insert (h : command.LeavesRows) (unpacker : Unpacker)
    (transaction : Option Nat) (values : List Bytes) :
    command.on? unpacker g ≠ some (.insert transaction values) := by
  intro hasked
  obtain ⟨table, key, hasks, -⟩ := Command.on?_eq_some hasked
  cases command with
  | insert transaction table key values => exact h
  | _ => cases hasks

/-- Unless it is for other groups, a command takes places for rows of the group only. -/
theorem Isolated.size_step (h : Isolated g a room r) (services : Nat → ServiceSettings)
    (hspares : command.Spares g) (hhere : command.isElsewhere a.unpacker g = false) :
    ((r.step services command).store.rows.places g.table).size =
      (r.store.rows.places g.table).size + a.takes g (r.store.rows.refusal g.table) command := by
  have hrest (hleaves : command.LeavesRows) :
      ((r.step services command).store.rows.places g.table).size =
        (r.store.rows.places g.table).size + a.takes g (r.store.rows.refusal g.table) command := by
    rw [(r.recounted_step services hleaves).places,
      (Account.after_history _ (hleaves.not_insert a.unpacker)).2]
    rfl
  cases command with
  | insert transaction table key values =>
    by_cases hnames : key.Names a.unpacker table g
    · have hinserted := (h.insert hnames transaction values).2.2
      unfold Account.takes
      simp only
      rw [if_pos hnames]
      exact hinserted
    · have hother : Command.isElsewhere a.unpacker g (.insert transaction table key values) = true :=
        Option.isNone_iff_eq_none.mpr (if_neg hnames)
      cases hhere.symm.trans hother
  | truncate table =>
    have hsame : ¬ table ≠ g.table := of_decide_eq_false hhere
    exact absurd hspares hsame
  | dropTable table =>
    have hsame : ¬ table ≠ g.table := of_decide_eq_false hhere
    exact absurd hspares hsame
  | restart coder unpacker settings => exact hspares.elim
  | relocate place => cases hhere
  | rejectAppends count => cases hhere
  | _ => exact hrest trivial

end VersionChain
