import VersionChain.Proofs.Store.Numbers
import VersionChain.Proofs.Store.Runs

/-!
# Version numbers throughout a run

As long as no row is removed, the versions of a group are numbered from 1 without gaps, and the
cached number, the rows, and all reads agree on the latest one. This depends neither on the codec,
which may fail or write anything, nor on what is cached, staged or thought to be somewhere.

* `Agrees.runs_history` — the versions of a group, as they are listed;
* `Counted` — the versions of each group are numbered up to their count, and so is what is cached;
* `Counted.ends_insertRow` — an insert gets the next number, or nothing changes;
* `Counted.step` — one command;
* `Run.numbers_gapless` — what is read of the numbers in a run, and what the next insert gets.
-/

namespace VersionChain

open StoreM MemoryRows

/-- The versions of each group are numbered without gaps, and every number that is cached is that of
the last one. -/
structure Counted (count : GroupId → Nat) (s : Store MemoryRows) : Prop where
  numbered : Numbered count s
  gapless : Gapless s.rows count

variable {count : GroupId → Nat} {s : Store MemoryRows} {m m' : MemoryRows} {g : GroupId}
  {seq : Nat} {table : TableId}

theorem Gapless.push {row : StoredRow} (h : Gapless m count)
    (hstored : ∀ v, m'.stored v = if v = ⟨g, count g + 1⟩ then some row else m.stored v) :
    Gapless m' (Function.update count g (count g + 1)) := by
  intro other seq
  rw [hstored]
  by_cases hother : other = g
  · subst hother
    rw [Function.update_self]
    split
    · rename_i heq
      have hseq : seq = count other + 1 := congrArg VersionId.seq heq
      constructor
      · intro _
        omega
      · exact fun _ => ⟨row, rfl⟩
    · rename_i hne
      have hseq : seq ≠ count other + 1 := fun heq => hne (by rw [heq])
      rw [h other seq]
      omega
  · rw [Function.update_of_ne hother, if_neg fun heq => hother (congrArg VersionId.toGroupId heq)]
    exact h other seq

/-- In the rows of a group, each number occurs once. -/
theorem MemoryRows.Valid.pairwise_seqs (h : m.Valid) (g : GroupId) :
    ((m.ofGroup g).map (·.2.seq)).Pairwise (· ≠ ·) := by
  have hlive := (m.rowsOf g.table).pairwise_live.imp Nat.ne_of_lt
  unfold MemoryRows.ofGroup
  rw [List.map_map, List.pairwise_map]
  refine (hlive.sublist List.filter_sublist).imp_of_mem fun {a b} ha hb hne heq => hne ?_
  -- two rows of one version are at one place
  obtain ⟨harow, hagroup⟩ := TableRows.mem_ofGroup.mp ha
  obtain ⟨hbrow, hbgroup⟩ := TableRows.mem_ofGroup.mp hb
  have haindex := (h g.table g.group a.2.seq a.1).mpr ⟨a.2, harow, hagroup, rfl⟩
  have hbindex := (h g.table g.group a.2.seq b.1).mpr ⟨b.2, hbrow, hbgroup, heq.symm⟩
  rw [haindex] at hbindex
  exact Option.some.inj hbindex

/-- The numbers in the rows of a group, in order. -/
theorem GaplessFor.mergeSort_seqs {n : Nat} (h : GaplessFor m g n) (hm : m.Valid) :
    ((m.ofGroup g).map (·.2.seq)).mergeSort = List.range' 1 n := by
  let seqs := (m.ofGroup g).map (·.2.seq)
  have hmem : ∀ seq, seq ∈ seqs ↔ seq ∈ List.range' 1 n := by
    intro seq
    rw [List.mem_range'_1, List.mem_map]
    constructor
    · rintro ⟨⟨location, row⟩, hrow, rfl⟩
      have hseq := (h row.seq).mp ⟨row, (hm.mem_ofGroup hrow).2⟩
      exact ⟨hseq.1, Nat.lt_one_add_iff.mpr hseq.2⟩
    · intro hseq
      obtain ⟨row, hrow⟩ := (h seq).mpr (by omega)
      obtain ⟨location, hlocation⟩ := hm.exists_mem_ofGroup hrow
      obtain ⟨-, -, -, heq⟩ := hm.stored_eq_some.mp hrow
      exact ⟨(location, row), hlocation, heq⟩
  have hperm : seqs.mergeSort.Perm (List.range' 1 n) :=
    (List.mergeSort_perm seqs _).trans
      ((List.perm_ext_iff_of_nodup (hm.pairwise_seqs g) List.nodup_range').mpr hmem)
  have hsorted : seqs.mergeSort.Pairwise (· ≤ ·) := by
    have htotal : seqs.mergeSort.Pairwise fun a b => decide (a ≤ b) = true :=
      List.pairwise_mergeSort (fun a b c hab hbc => by simp at *; omega)
        (fun a b => by simp; omega) seqs
    exact htotal.imp fun hle => of_decide_eq_true hle
  have hrange : (List.range' 1 n).Pairwise (· ≤ ·) :=
    (List.pairwise_lt_range' 1).imp Nat.le_of_lt
  exact hperm.eq_of_pairwise (fun a b _ _ => Nat.le_antisymm) hsorted hrange

/-- The versions of a group are those from 1 to the latest one. -/
theorem Agrees.runs_history {l : Ledger} {key : Key} {state : TableState} {group : Fingerprint}
    (h : Agrees s l l.latest) (htable : s.tables[table]? = some state)
    (hkey : key.fingerprint s.unpacker = .ok group) :
    Runs (history table key) s (.ok (List.range' 1 (l.latest ⟨table, group⟩))) (Agreeing l) := by
  have hruns := (readStable_agreeing l).runs_history h htable hkey
  rwa [(h.numbered.2.forGroup ⟨table, group⟩).mergeSort_seqs h.mirrors.legible.valid] at hruns

/-! ## What makes no difference -/

theorem Counted.with_rows (h : Counted count s) {rows : MemoryRows} (hvalid : rows.Valid)
    (hstored : ∀ v, rows.stored v = s.rows.stored v) : Counted count { s with rows } :=
  ⟨h.numbered.with_rows hvalid fun v _ hrow => (hstored v).symm.trans hrow,
    h.gapless.congr hstored⟩

theorem Counted.with_statistics (h : Counted count s) (statistics : Statistics) :
    Counted count { s with statistics } :=
  ⟨⟨h.numbered.valid, h.numbered.stored, h.numbered.cached⟩, h.gapless⟩

theorem cacheStable_counted (count : GroupId → Nat) : CacheStable (Counted count) :=
  have hstable := cacheStable_numbered count
  { with_locations := fun s f hf hs => ⟨hstable.with_locations s f hf hs.numbered, hs.gapless⟩
    with_rows := fun _ _ hrows hs => hs.with_rows (hrows.valid hs.numbered.valid) hrows.stored
    with_content := fun s x hs => ⟨hstable.with_content s x hs.numbered, hs.gapless⟩
    with_staging := fun s x hs => ⟨hstable.with_staging s x hs.numbered, hs.gapless⟩
    with_scheduler := fun s x hs => ⟨hstable.with_scheduler s x hs.numbered, hs.gapless⟩ }

/-- The next number was given out, and its version is not stored yet. -/
def Pending (count : GroupId → Nat) (g : GroupId) (s : Store MemoryRows) : Prop :=
  Granted count g (count g + 1) s ∧ Gapless s.rows count

theorem cacheStable_pending (count : GroupId → Nat) (g : GroupId) :
    CacheStable (Pending count g) :=
  have hstable := cacheStable_granted count g (count g + 1)
  { with_locations := fun s f hf hs => ⟨hstable.with_locations s f hf hs.1, hs.2⟩
    with_rows := fun s rows hrows hs =>
      ⟨hstable.with_rows s rows hrows hs.1, hs.2.congr hrows.stored⟩
    with_content := fun s x hs => ⟨hstable.with_content s x hs.1, hs.2⟩
    with_staging := fun s x hs => ⟨hstable.with_staging s x hs.1, hs.2⟩
    with_scheduler := fun s x hs => ⟨hstable.with_scheduler s x hs.1, hs.2⟩ }

theorem numberStable_gapless (count : GroupId → Nat) :
    NumberStable fun s => Gapless s.rows count where
  with_sequences _ _ hs := hs
  with_rows _ _ hrows hs := hs.congr hrows.stored

/-! ## Inserts -/

/-- The count of a group with one version more. -/
abbrev counting (count : GroupId → Nat) (g : GroupId) : GroupId → Nat :=
  Function.update count g (count g + 1)

/-- A version was stored under its number, or the number is still to be given back. -/
def StoredNext (count : GroupId → Nat) (g : GroupId) :
    Except StoreError Outcome → Store MemoryRows → Prop
  | .ok outcome, s =>
    outcome.group = g.group ∧ outcome.seq = count g + 1 ∧ Counted (counting count g) s
  | .error _, s => Pending count g s

/-- The next version of the group of a key was inserted, or nothing has changed. -/
def InsertedNext (count : GroupId → Nat) (table : TableId) (fingerprint : Except KeyError Fingerprint) :
    Except StoreError Outcome → Store MemoryRows → Prop
  | .ok outcome, s => fingerprint = .ok outcome.group ∧
    outcome.seq = count ⟨table, outcome.group⟩ + 1 ∧
      Counted (counting count ⟨table, outcome.group⟩) s
  | .error _, s => Counted count s

/-- With its number given out, a version is stored under it, or the rows stay what they are. -/
theorem Pending.ends_storeVersion (h : Pending count g s) (settings : TableSettings)
    (values : List Bytes) :
    Ends (storeVersion ⟨g, count g + 1⟩ settings values) s (StoredNext count g) := by
  have hstable := cacheStable_pending count g
  refine Ends.bind ((hstable.keeps_claimSlot _ _ _).ends h) (fun token s₁ h₁ => ?_) fun _ _ hs => hs
  refine Ends.bind ((hstable.keeps_encodeColumns _ _ _ _ _ _).ends h₁) (fun records s₂ h₂ => ?_)
    fun _ _ hs => hs
  let row : StoredRow := ⟨g.group, count g + 1, records.map (·.bytes)⟩
  rcases append_cases s₂.rows g.table row with ⟨cause, rows, happend, hrows⟩ |
    ⟨location, rows, happend, hrows⟩
  · -- the row is not taken
    refine (Runs.bind_error (runs_onRows_error happend ?_)).ends fun _ hs => hs
    have hstored := stored_congr hrows
    exact ⟨h₂.1.with_rows (h₂.1.valid.congr hrows) fun v _ hrow => (hstored v).symm.trans hrow,
      h₂.2.congr hstored⟩
  · -- the row becomes that of the next version
    obtain ⟨hvalid, hstored⟩ := stored_push hrows h₂.1.valid h₂.1.stored_eq_none
    have hcounted : Counted (counting count g) { s₂ with rows } := by
      refine ⟨h₂.1.push hvalid hstored (fun other hother => Function.update_of_ne hother _ _) ?_ ?_,
        h₂.2.push hstored⟩
      · rw [counting, Function.update_self]
        exact Nat.le_succ _
      · rw [counting, Function.update_self]
    refine Ends.bind_of_eq (onRows_eq happend) ?_
    refine ((cacheStable_counted (counting count g)).runs_publish hcounted token
      ⟨g, count g + 1⟩ location values _).ends fun s' hs' => ?_
    exact ⟨rfl, rfl, hs'⟩

/-- An insert gets the next number, or nothing changes. -/
theorem Counted.ends_insertRow (h : Counted count s) (table : TableId) (key : Key)
    (values : List Bytes) :
    Ends (insertRow table key values) s
      (InsertedNext count table (key.fingerprint s.unpacker)) := by
  cases hkey : key.fingerprint s.unpacker with
  | error cause => exact (Runs.bind_error (runs_fingerprint_error hkey h)).ends fun _ hs => hs
  | ok group =>
    refine Ends.bind_of_eq (fingerprint_eq hkey) ?_
    cases htable : s.tables[table]? with
    | none => exact (Runs.bind_error (runs_tableState_error htable h)).ends fun _ hs => hs
    | some state =>
      refine Ends.bind_of_eq (tableState_eq htable) ?_
      split
      · exact h
      · let g : GroupId := ⟨table, group⟩
        obtain ⟨seq, s₁, hseq, hgranted, hgapless⟩ :=
          h.numbered.runs_allocateSeq (numberStable_gapless count) h.gapless g
        obtain rfl := (hgapless.forGroup g).eq_of_granted hgranted
        refine Ends.bind_of_eq hseq ?_
        have hstore := Pending.ends_storeVersion ⟨hgranted, hgapless⟩ state.settings values
        refine Ends.caught hstore ?_ fun e s₂ hs₂ => ?_
        · rintro outcome s₂ ⟨hgroup, hoseq, hs₂⟩
          refine ⟨congrArg Except.ok hgroup.symm, ?_⟩
          rw [hgroup]
          exact ⟨hoseq, hs₂⟩
        · -- the number goes back
          exact Ends.bind_of_eq (sequences_eq _ s₂) ⟨hs₂.1.rollback, hs₂.2⟩

/-! ## Tables -/

theorem Counted.invalidate (h : Counted count s) (table : TableId) :
    Counted count { s with service := (s.service.invalidate table).2 } :=
  have hnumbered := h.numbered.invalidate_sequences table
  ⟨⟨hnumbered.valid, hnumbered.stored, hnumbered.cached⟩, h.gapless⟩

theorem keeps_createTable_counted (count : GroupId → Nat) (table : TableId) (columns : Nat)
    (settings : TableSettings) : Keeps (createTable table columns settings) (Counted count) := by
  unfold createTable
  split
  · exact .throw _
  · split
    · exact .throw _
    · refine .bind .get fun s => ?_
      split
      · exact .throw _
      · refine .bind (fun s hs => hs.invalidate table) fun _ s hs => ?_
        exact ⟨⟨hs.numbered.valid, hs.numbered.stored, hs.numbered.cached⟩, hs.gapless⟩

theorem Counted.createTables (h : Counted count s) (settings : TableId → TableSettings)
    (entries : List (TableId × TableState)) : Counted count (createTables settings s entries) := by
  induction entries generalizing s with
  | nil => exact h
  | cons entry rest ih => exact ih (keeps_createTable_counted count _ _ _ s h)

/-- The count of all groups, but for those of a table. -/
def cleared (count : GroupId → Nat) (table : TableId) (g : GroupId) : Nat :=
  if g.table = table then 0 else count g

/-- With its rows removed and all forgotten that was cached for it, a table is empty. -/
theorem Counted.clear (h : Counted count s) {rows : MemoryRows}
    (hrows : Replaced s.rows rows table {}) (statistics : Statistics)
    (tables : Std.HashMap TableId TableState) :
    Counted (cleared count table)
      { s with service := (s.service.invalidate table).2, rows, tables, statistics } := by
  have hnumbered : Numbered (cleared count table) _ :=
    h.numbered.clear hrows fun g hg => if_neg hg
  refine ⟨⟨hnumbered.valid, hnumbered.stored, hnumbered.cached⟩, fun g seq => ?_⟩
  show (∃ row, rows.stored ⟨g, seq⟩ = some row) ↔ _
  rw [(stored_clear hrows h.numbered.valid).2]
  unfold cleared
  by_cases htable : g.table = table
  · rw [if_pos htable, if_pos htable]
    constructor
    · rintro ⟨row, ⟨⟩⟩
    · omega
  · rw [if_neg htable, if_neg htable]
    exact h.gapless g seq

/-- The rows of a table were removed, or nothing has changed. -/
def Emptied {α : Type} (count : GroupId → Nat) (table : TableId) :
    Except StoreError α → Store MemoryRows → Prop
  | .ok _, s => Counted (cleared count table) s
  | .error _, s => Counted count s

theorem Counted.ends_truncate (h : Counted count s) (table : TableId) :
    Ends (StoreM.truncate table) s (Emptied count table) := by
  cases htable : s.tables[table]? with
  | none => exact (Runs.bind_error (runs_tableState_error htable h)).ends fun _ hs => hs
  | some state =>
    refine Ends.bind_of_eq (tableState_eq htable) (Ends.bind_of_eq (onRows_eq rfl) ?_)
    exact h.clear (replaced_truncate table) _ _

theorem Counted.ends_dropTable (h : Counted count s) (table : TableId) :
    Ends (dropTable table) s (Emptied count table) := by
  cases htable : s.tables[table]? with
  | none => exact (Runs.bind_error (runs_tableState_error htable h)).ends fun _ hs => hs
  | some state =>
    refine Ends.bind_of_eq (tableState_eq htable) (Ends.bind_of_eq (onRows_eq rfl) ?_)
    exact h.clear (replaced_drop table) _ _

theorem Counted.relocate (h : Counted count s) (p : PlaceId) :
    Counted count { s with rows := (s.rows.relocate p).2 } := by
  rcases replaced_relocate (m := s.rows) p with ⟨slot, row, -, hrow, -, hmoved⟩ | ⟨-, hsame⟩
  · obtain ⟨hvalid, hstored⟩ := stored_move hrow hmoved h.numbered.valid
    exact h.with_rows hvalid hstored
  · rw [hsame]
    exact h

/-! ## Runs -/

/-- How many versions of each group were logged. -/
def Run.versions (r : Run) (g : GroupId) : Nat := (r.log g).length

variable {r : Run} {services : Nat → ServiceSettings}

theorem Run.versions_logged (r : Run) (table : TableId) (outcome : Outcome)
    (values : List Bytes) :
    (r.logged table outcome values).versions = counting r.versions ⟨table, outcome.group⟩ := by
  funext g
  unfold Run.versions logged
  simp only
  by_cases hg : g = ⟨table, outcome.group⟩
  · rw [hg, Function.update_self, counting, Function.update_self, List.length_append]
    rfl
  · rw [counting, Function.update_of_ne hg, Function.update_of_ne hg]

/-- Whether an insert is part of a transaction or not makes no difference to its number. -/
theorem Counted.insertedNext (h : Counted count r.store) (transaction : Option Nat)
    (table : TableId) (key : Key) (values : List Bytes) :
    InsertedNext count table (key.fingerprint r.store.unpacker)
      (r.insert transaction table key values).1 (r.insert transaction table key values).2.store ∧
    (r.insert transaction table key values).2.log =
      r.logAfter table values (r.insert transaction table key values).1 := by
  refine Run.insert_spec (h.ends_insertRow table key values) (fun result s statistics hs => ?_)
    transaction
  cases result with
  | error cause => exact Counted.with_statistics hs statistics
  | ok outcome => exact ⟨hs.1, hs.2.1, hs.2.2.with_statistics statistics⟩

/-- An insert of a run gets the next number. -/
theorem Counted.insert (h : Counted r.versions r.store) (transaction : Option Nat)
    (table : TableId) (key : Key) (values : List Bytes) :
    Counted (r.insert transaction table key values).2.versions
      (r.insert transaction table key values).2.store ∧
    ∀ outcome, (r.insert transaction table key values).1 = .ok outcome →
      key.fingerprint r.store.unpacker = .ok outcome.group ∧
      outcome.seq = r.versions ⟨table, outcome.group⟩ + 1 := by
  obtain ⟨hafter, hlog⟩ := h.insertedNext transaction table key values
  cases hresult : (r.insert transaction table key values).1 with
  | error cause =>
    rw [hresult] at hafter hlog
    refine ⟨?_, fun outcome houtcome => nomatch houtcome⟩
    unfold Run.versions
    rw [hlog]
    exact hafter
  | ok outcome =>
    rw [hresult] at hafter hlog
    obtain ⟨hgroup, hseq, hcounted⟩ := hafter
    rw [← Run.versions_logged r table outcome values] at hcounted
    refine ⟨?_, ?_⟩
    · unfold Run.versions
      rw [hlog]
      exact hcounted
    · rintro _ ⟨⟩
      exact ⟨hgroup, hseq⟩

/-- Removing the rows of a table, if that succeeds. -/
theorem Counted.remove {α : Type} {action : StoreM MemoryRows α} (haction : Ends action r.store (Emptied r.versions table)) :
    Counted (r.remove table action).versions (r.remove table action).store := by
  unfold Ends at haction
  unfold Run.remove
  cases hpair : action r.store with
  | mk result store =>
    rw [hpair] at haction
    cases result with
    | error cause => exact haction
    | ok a =>
      have hversions : Run.versions { r with
          store, log := fun g => if g.table = table then [] else r.log g } =
          cleared r.versions table := by
        funext g
        unfold Run.versions cleared
        simp only
        split <;> rfl
      show Counted (Run.versions _) store
      rw [hversions]
      exact haction

theorem keeps_invalidatePart_counted (count : GroupId → Nat) (part : ServicePart)
    (table : TableId) : Keeps (invalidatePart part table) (Counted count) := by
  have hstable := cacheStable_counted count
  cases part with
  | sequences => exact fun s hs => ⟨hs.numbered.invalidate_sequences table, hs.gapless⟩
  | locations => exact hstable.keeps_locations fun _ hx => hx.invalidate table
  | content => exact hstable.keeps_content _
  | staging => exact hstable.keeps_staging _

/-- One command. -/
theorem Counted.step (h : Counted r.versions r.store) (services : Nat → ServiceSettings)
    (command : Command) :
    Counted (r.step services command).versions (r.step services command).store := by
  have hstable := cacheStable_counted r.versions
  cases command with
  | createTable table columns settings =>
    exact keeps_createTable_counted r.versions table columns settings r.store h
  | insert transaction table key values => exact (h.insert transaction table key values).1
  | commit id => exact h.with_statistics _
  | abort id => exact h
  | getVersion table key seq => exact hstable.keeps_getVersion table key seq r.store h
  | getColumn table key seq column => exact hstable.keeps_getColumn table key seq column r.store h
  | latestSeq table key =>
    have hkeeps : Keeps (StoreM.latestSeq table key) fun s =>
        Numbered r.versions s ∧ Gapless s.rows r.versions :=
      Numbered.keeps_latestSeq (numberStable_gapless r.versions) table key
    obtain ⟨hnumbered, hgapless⟩ := hkeeps r.store ⟨h.numbered, h.gapless⟩
    exact ⟨hnumbered, hgapless⟩
  | history table key => exact hstable.keeps_history table key r.store h
  | seqAt table location => exact hstable.keeps_seqAt table location r.store h
  | groupStats table key => exact keeps_groupStats table key r.store h
  | truncate table => exact Counted.remove (h.ends_truncate table)
  | dropTable table => exact Counted.remove (h.ends_dropTable table)
  | relocate place => exact h.relocate place
  | rejectAppends count =>
    exact h.with_rows (h.numbered.valid.congr fun _ => rfl) (stored_congr fun _ => rfl)
  | invalidate table => exact h.invalidate table
  | invalidatePart part table => exact keeps_invalidatePart_counted r.versions part table r.store h
  | detach => exact ⟨⟨h.numbered.valid, h.numbered.stored, h.numbered.cached⟩, h.gapless⟩
  | restart coder unpacker settings =>
    have hfresh : Counted r.versions (.new (.ofSettings (services (r.restarts + 1)))
        r.store.rows coder.codec unpacker) :=
      ⟨⟨h.numbered.valid, h.numbered.stored, fun g => SequenceAllocator.caches_new _ g _⟩,
        h.gapless⟩
    exact hfresh.createTables _ _

namespace Run

/-- A store without tables over rows in memory, with this service and any codec. -/
def startOn (service : Service) (indexed : Bool) (codec : Codec) (unpacker : Unpacker) : Run where
  store := .new service { indexed } codec unpacker

/-- However many numbers can be cached, a store without tables is numbered from the start. -/
theorem counted_startOn (service : Service) (capacity : Nat) (indexed : Bool) (codec : Codec)
    (unpacker : Unpacker) :
    let r := startOn { service with sequences := .new capacity } indexed codec unpacker
    Counted r.versions r.store := by
  refine ⟨⟨valid_empty indexed, fun g later row hrow => ?_,
    fun g => SequenceAllocator.caches_new capacity g _⟩, fun g seq => ?_⟩
  · cases (stored_empty indexed ⟨g, later⟩).symm.trans hrow
  · constructor
    · rintro ⟨row, hrow⟩
      cases (stored_empty indexed ⟨g, seq⟩).symm.trans hrow
    · rintro ⟨hpos, hle⟩
      exact absurd (Nat.le_trans hpos hle) (Nat.not_succ_le_zero 0)

theorem counted_foldl (h : Counted r.versions r.store) (services : Nat → ServiceSettings)
    (commands : List Command) :
    Counted (commands.foldl (step services) r).versions
      (commands.foldl (step services) r).store := by
  induction commands generalizing r with
  | nil => exact h
  | cons command rest ih => exact ih (h.step services command)

/-- However many numbers are cached, and whatever the codec does and the other caches hold: of a
group with `n` versions, the history is 1 to `n`, the latest number is `n`, so is the largest among
the rows, and the next version that is stored gets the number after it. -/
theorem numbers_gapless (services : Nat → ServiceSettings) (service : Service) (capacity : Nat)
    (indexed : Bool) (codec : Codec) (unpacker : Unpacker) (commands : List Command)
    {table : TableId} {state : TableState} {key : Key} {group : Fingerprint} :
    let r := commands.foldl (step services)
      (startOn { service with sequences := .new capacity } indexed codec unpacker)
    let n := (r.log ⟨table, group⟩).length
    r.store.tables[table]? = some state → key.fingerprint r.store.unpacker = .ok group →
      (StoreM.history table key r.store).1 = .ok (List.range' 1 n) ∧
      (StoreM.latestSeq table key r.store).1 = .ok (if n = 0 then none else some n) ∧
      (r.store.rows.maxSeq ⟨table, group⟩).1 = n ∧
      ∀ transaction values outcome,
        (r.insert transaction table key values).1 = .ok outcome →
          outcome.group = group ∧ outcome.seq = n + 1 := by
  intro r n htable hkey
  have h : Counted r.versions r.store :=
    counted_foldl (counted_startOn service capacity indexed codec unpacker) services commands
  refine ⟨?_, ?_, ?_, ?_⟩
  · have hhistory := ((cacheStable_counted r.versions).runs_history h htable hkey).eq.1
    rw [(h.gapless.forGroup ⟨table, group⟩).mergeSort_seqs h.numbered.valid] at hhistory
    exact hhistory
  · obtain ⟨seq, hcurrent, hruns⟩ :=
      h.numbered.runs_latestSeq (numberStable_gapless r.versions) h.gapless htable hkey
    rw [(h.gapless.forGroup ⟨table, group⟩).eq_of_current hcurrent] at hruns
    exact hruns.eq.1
  · obtain ⟨habove, hleast⟩ := h.numbered.valid.above_maxSeq ⟨table, group⟩
    exact (h.gapless.forGroup ⟨table, group⟩).eq_of_current ⟨habove, hleast _ (h.numbered.stored _)⟩
  · intro transaction values outcome hresult
    obtain ⟨hgroup, hseq⟩ := (h.insert transaction table key values).2 outcome hresult
    rw [hkey] at hgroup
    cases hgroup
    exact ⟨rfl, hseq⟩

/-- With no budget for numbers, none can be cached. -/
theorem ofSettings_uncached : { Service.ofSettings { sequenceMb := 0 } with sequences := .new 0 } =
    Service.ofSettings { sequenceMb := 0 } := by
  rw [show SequenceAllocator.new 0 = .ofBudget 0 from
    congrArg SequenceAllocator.new (by decide : 0 = capacityForBudget 0 72)]
  rfl

/-- No number can be cached, and one version was stored. -/
theorem numbers_gapless_uncached :
    let services : Nat → ServiceSettings := fun _ => { sequenceMb := 0 }
    let r := List.foldl (step services)
      (startOn { Service.ofSettings (services 0) with sequences := .new 0 } true
        (DiffCoder.codec {}) .inRowOnly)
      [.createTable 1 1 {}, .insert none 1 .null [#[1, 2, 3]]]
    (r.store.tables[(1 : TableId)]? = some ⟨{}, 1⟩ ∧
      Key.null.fingerprint r.store.unpacker = .ok .zero) ∧
    (StoreM.history 1 .null r.store).1 = .ok [1] ∧
    (StoreM.latestSeq 1 .null r.store).1 = .ok (some 1) ∧
    (r.store.rows.maxSeq ⟨1, .zero⟩).1 = 1 ∧
    ∃ outcome, (r.insert none 1 .null [#[1, 2, 4]]).1 = .ok outcome ∧ outcome.seq = 2 := by
  intro services r
  let commands : List Command := [.createTable 1 1 {}, .insert none 1 .null [#[1, 2, 3]]]
  have hr : r = after services true {} .inRowOnly commands := by
    show List.foldl _ (startOn _ _ _ _) _ = _
    rw [ofSettings_uncached]
    rfl
  have hfollows := follows_after services true {} .inRowOnly commands
  rw [← hr] at hfollows
  have htable : r.store.tables[(1 : TableId)]? = some ⟨{}, 1⟩ :=
    (hfollows.agrees.mirrors.tables 1).trans rfl
  have hkey : Key.null.fingerprint r.store.unpacker = .ok .zero := by
    rw [hfollows.agrees.mirrors.unpacker]
    rfl
  have hlog : r.log ⟨1, .zero⟩ = [[#[1, 2, 3]]] :=
    (congrFun hfollows.log ⟨1, .zero⟩).trans rfl
  have hcount : (r.log ⟨1, .zero⟩).length = 1 := by rw [hlog]; rfl
  obtain ⟨hhistory, hlatest, hmax, hinsert⟩ := numbers_gapless services
    (Service.ofSettings (services 0)) 0 true (DiffCoder.codec {}) .inRowOnly commands htable hkey
  refine ⟨⟨htable, hkey⟩, hhistory.trans ?_, hlatest.trans ?_, hmax.trans hcount, ?_⟩
  · exact congrArg (fun n => Except.ok (List.range' 1 n)) hcount
  · exact congrArg (fun n => Except.ok (if n = 0 then none else some n)) hcount
  let l : Ledger := commands.foldl Ledger.step (.empty {} .inRowOnly)
  have hresult : (r.insert none 1 .null [#[1, 2, 4]]).1 =
      .ok (l.outcome ⟨1, .zero⟩ {} [#[1, 2, 4]]) :=
    (hfollows.insert none 1 .null [#[1, 2, 4]]).1.trans rfl
  exact ⟨_, hresult, (hinsert none _ _ hresult).2.trans (congrArg (· + 1) hcount)⟩

end Run

end VersionChain
