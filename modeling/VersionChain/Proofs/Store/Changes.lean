import VersionChain.Proofs.Store.Commands
import VersionChain.Proofs.Store.Insert

/-!
# Changing a store

The operations on tables do to a store what they do to its ledger. Forgetting what is cached, moving
rows, rejecting appends and stopping the pool change the ledger in the rows at most.

* `Agrees.invalidate` — forgetting all that is cached for a table;
* `Agrees.runs_truncate`, `Agrees.runs_dropTable`, `Agrees.runs_createTable` — tables;
* `Agrees.relocate` — moving a row.
-/

namespace VersionChain

open StoreM MemoryRows

variable {s : Store MemoryRows} {l : Ledger} {latest : GroupId → Nat} {table : TableId}

/-! ## Forgetting what is cached -/

theorem Stages.invalidate {b : StagingBuffer} {contents contents' : Histories}
    (h : Stages b contents) (table : TableId)
    (hsame : ∀ g, g.table ≠ table → contents' g = contents g) :
    Stages (b.invalidate table).2 contents' := by
  refine stages_iff.mpr ((stages_iff.mp h).invalidate table fun g hg => ?_)
  rw [hsame g hg]
  exact ⟨rfl, rfl⟩

/-- Forgetting the locations and the contents of a table. -/
theorem Mirrors.invalidate (h : Mirrors s l) (table : TableId) :
    Mirrors { s with service := { s.service with
      locations := (s.service.locations.invalidate table).2
      content := (s.service.content.invalidate table).2 } } l where
  sound := h.sound
  legible := {
    decode := h.legible.decode
    tagOf := h.legible.tagOf
    valid := h.legible.valid
    filed := h.legible.filed
    serves := h.legible.serves.invalidate table fun _ _ _ hvalue => hvalue
    sound := h.legible.sound.invalidate table }
  codec := h.codec
  unpacker := h.unpacker
  tables := h.tables
  places := h.places
  rejecting := h.rejecting

theorem Agrees.invalidate (h : Agrees s l latest) (table : TableId) :
    Agrees { s with service := (s.service.invalidate table).2 } l latest where
  mirrors := (h.mirrors.invalidate table).of_rest rfl
  advises := h.advises.invalidate table fun _ _ => rfl
  stages := h.stages.invalidate table fun _ _ => rfl

theorem Agrees.invalidate_sequences (h : Agrees s l latest) (table : TableId) :
    Agrees { s with service.sequences := (s.service.sequences.invalidate table).2 } l latest where
  mirrors := h.mirrors.of_rest rfl
  advises := h.advises.invalidate table fun _ _ => rfl
  stages := h.stages

theorem Agrees.invalidate_locations (h : Agrees s l latest) (table : TableId) :
    Agrees { s with service.locations := (s.service.locations.invalidate table).2 } l latest :=
  h.calm ⟨rfl, rfl, h.mirrors.legible.serves, fun hx => hx.invalidate table⟩

theorem Agrees.invalidate_content (h : Agrees s l latest) (table : TableId) :
    Agrees { s with service.content := (s.service.content.invalidate table).2 } l latest :=
  h.calm ⟨rfl, rfl, h.mirrors.legible.serves.invalidate table fun _ _ _ hvalue => hvalue, id⟩

theorem Agrees.invalidate_staging (h : Agrees s l latest) (table : TableId) :
    Agrees { s with service.staging := (s.service.staging.invalidate table).2 } l latest where
  mirrors := h.mirrors.of_rest rfl
  advises := h.advises
  stages := h.stages.invalidate table fun _ _ => rfl

theorem Agrees.detach (h : Agrees s l latest) :
    Agrees { s with service := s.service.detach } l latest :=
  ⟨h.mirrors.of_rest rfl, h.advises, h.stages⟩

/-! ## Tables -/

theorem getElem?_insert_table (tables : Std.HashMap TableId TableState) (table : TableId)
    (state : TableState) (other : TableId) :
    (tables.insert table state)[other]? = if other = table then some state else tables[other]? := by
  rw [Std.HashMap.getElem?_insert]
  by_cases hother : other = table
  · simp [hother]
  · simp [hother, Ne.symm hother]

theorem getElem?_erase_table (tables : Std.HashMap TableId TableState) (table other : TableId) :
    (tables.erase table)[other]? = if other = table then none else tables[other]? := by
  rw [Std.HashMap.getElem?_erase]
  by_cases hother : other = table
  · simp [hother]
  · simp [hother, Ne.symm hother]

theorem histories_clear (l : Ledger) {table : TableId} {g : GroupId} (h : g.table ≠ table) :
    (l.clear table).histories g = l.histories g := if_neg h

/-- With its rows removed and all forgotten that was cached for it, a table is empty. -/
theorem Agrees.clear (h : Agrees s l l.latest) {rows : MemoryRows}
    (hrows : Replaced s.rows rows table {}) (statistics : Statistics) :
    Agrees { s with service := (s.service.invalidate table).2, rows, statistics }
      (l.clear table) (l.clear table).latest := by
  obtain ⟨hvalid, hstored⟩ := stored_clear hrows h.mirrors.legible.valid
  have hcleared : Mirrors { s with
      service := { s.service with
        locations := (s.service.locations.invalidate table).2
        content := (s.service.content.invalidate table).2 }
      rows } (l.clear table) := by
    refine ⟨h.mirrors.sound.clear table, ⟨h.mirrors.legible.decode, h.mirrors.legible.tagOf, hvalid,
      fun g => ?_, ?_, h.mirrors.legible.sound.invalidate table⟩, h.mirrors.codec,
      h.mirrors.unpacker, h.mirrors.tables, fun other => ?_,
      hrows.rejecting.trans h.mirrors.rejecting⟩
    · -- the groups of the table have no rows and no history, the others keep both
      by_cases hg : g.table = table
      · rw [show (l.clear table).histories g = [] from if_pos hg]
        exact filed_nil fun seq => (hstored ⟨g, seq⟩).trans (if_pos hg)
      · rw [histories_clear l hg]
        exact (h.mirrors.legible.filed g).congr fun seq => (hstored ⟨g, seq⟩).trans (if_neg hg)
    · refine h.mirrors.legible.serves.invalidate table fun key value hkey hvalue => ?_
      unfold Says
      rw [histories_clear l hkey]
      exact hvalue
    · exact h.mirrors.places_replaced hrows rfl other
  refine ⟨hcleared.of_rest rfl, h.advises.invalidate table fun g hg => ?_,
    h.stages.invalidate table fun g hg => histories_clear l hg⟩
  unfold Ledger.latest
  rw [histories_clear l hg]

/-- Truncating a table: its rows, its statistics and all that is cached for it go. -/
theorem truncate_eq {state : TableState} (htable : s.tables[table]? = some state) :
    StoreM.truncate table s = (.ok (s.service.invalidate table).1, { s with
      service := (s.service.invalidate table).2
      rows := s.rows.truncate table
      statistics := s.statistics.forgetTable table }) := by
  unfold StoreM.truncate
  rw [bind_eq (tableState_eq htable)]
  rfl

theorem dropTable_eq {state : TableState} (htable : s.tables[table]? = some state) :
    dropTable table s = (.ok (s.service.invalidate table).1, { s with
      service := (s.service.invalidate table).2
      rows := s.rows.drop table
      tables := s.tables.erase table
      statistics := s.statistics.forgetTable table }) := by
  unfold dropTable
  rw [bind_eq (tableState_eq htable)]
  rfl

/-- Without the table, truncating and dropping do nothing. -/
theorem truncate_eq_error (htable : s.tables[table]? = none) :
    StoreM.truncate table s = (.error (.noTable table), s) := by
  obtain ⟨_, hrun, rfl⟩ := runs_tableState_error htable (Q := (· = s)) rfl
  exact bind_eq_error hrun

theorem dropTable_eq_error (htable : s.tables[table]? = none) :
    dropTable table s = (.error (.noTable table), s) := by
  obtain ⟨_, hrun, rfl⟩ := runs_tableState_error htable (Q := (· = s)) rfl
  exact bind_eq_error hrun

/-- Truncating succeeds exactly if there is such a table. -/
theorem Agrees.runs_truncate (h : Agrees s l l.latest) (table : TableId) :
    ∃ r, Runs (StoreM.truncate table) s r (fun s' =>
      Agrees s' (l.truncate table) (l.truncate table).latest) ∧
      (r.toBool = true ↔ (l.tables table).isSome) := by
  unfold StoreM.truncate Ledger.truncate
  rw [← h.mirrors.tables]
  cases htable : s.tables[table]? with
  | none => exact ⟨_, Runs.bind_error (runs_tableState_error htable h), by simp [Except.toBool]⟩
  | some state =>
    refine ⟨.ok (s.service.invalidate table).1,
      Runs.bind (P := (· = s)) (runs_tableState htable rfl) ?_, by simp [Except.toBool]⟩
    rintro s rfl
    refine Runs.bind (P := (· = { s with rows := s.rows.truncate table })) (runs_onRows rfl rfl) ?_
    rintro _ rfl
    exact ⟨_, rfl, h.clear (replaced_truncate table) _⟩

/-- Dropping succeeds exactly if there is such a table. -/
theorem Agrees.runs_dropTable (h : Agrees s l l.latest) (table : TableId) :
    ∃ r, Runs (dropTable table) s r (fun s' =>
      Agrees s' (l.dropTable table) (l.dropTable table).latest) ∧
      (r.toBool = true ↔ (l.tables table).isSome) := by
  have hdropped := h.mirrors.sound.dropTable table
  unfold dropTable
  unfold Ledger.dropTable at hdropped ⊢
  cases htable : s.tables[table]? with
  | none =>
    rw [← h.mirrors.tables, htable]
    exact ⟨_, Runs.bind_error (runs_tableState_error htable h), by simp [Except.toBool]⟩
  | some state =>
    have hsome : (l.tables table).isSome = true := by rw [← h.mirrors.tables, htable]; rfl
    rw [if_pos hsome] at hdropped ⊢
    refine ⟨.ok (s.service.invalidate table).1,
      Runs.bind (P := (· = s)) (runs_tableState htable rfl) ?_, by simp [Except.toBool, hsome]⟩
    rintro s rfl
    refine Runs.bind (P := (· = { s with rows := s.rows.drop table })) (runs_onRows rfl rfl) ?_
    rintro _ rfl
    have hclear := h.clear (replaced_drop table) (s.statistics.forgetTable table)
    have htables : ∀ other, (s.tables.erase table)[other]? =
        Function.update l.tables table none other := by
      intro other
      rw [getElem?_erase_table, Function.update_apply, h.mirrors.tables]
    exact ⟨_, rfl, hclear.mirrors.with_tables htables hdropped, hclear.advises, hclear.stages⟩

/-- Creating a table that is allowed: all is forgotten that was cached for it. -/
theorem runs_createTable_ok {columns : Nat} {settings : TableSettings}
    (hvalid : settings.validate = .ok ()) (hnarrow : columns ≤ maxColumns)
    (hnew : s.tables[table]? = none) {Q : Store MemoryRows → Prop}
    (h : Q { s with
      service := (s.service.invalidate table).2
      tables := s.tables.insert table ⟨settings, columns⟩ }) :
    Runs (createTable table columns settings) s (.ok ()) Q := by
  have hcontains : ¬ s.tables.contains table = true := by
    rw [Std.HashMap.contains_eq_isSome_getElem?, hnew]
    exact Bool.false_ne_true
  unfold createTable
  rw [hvalid]
  simp only
  rw [if_neg (Nat.not_lt.mpr hnarrow)]
  refine Runs.bind (P := (· = s)) (runs_get rfl) ?_
  rintro s rfl
  rw [if_neg hcontains]
  refine Runs.bind (P := (· = { s with service := (s.service.invalidate table).2 }))
    ⟨_, rfl, rfl⟩ ?_
  rintro _ rfl
  exact runs_modify h

/-- What creating a table that is allowed leaves. -/
theorem createTable_eq {columns : Nat} {settings : TableSettings}
    (hvalid : settings.validate = .ok ()) (hnarrow : columns ≤ maxColumns)
    (hnew : s.tables[table]? = none) : (createTable table columns settings s).2 = { s with
      service := (s.service.invalidate table).2
      tables := s.tables.insert table ⟨settings, columns⟩ } := by
  obtain ⟨s', hrun, rfl⟩ := runs_createTable_ok (Q := (· = _)) hvalid hnarrow hnew rfl
  rw [hrun]

/-- Whatever is not allowed is found out before anything happens. -/
theorem createTable_eq_error {columns : Nat} {settings : TableSettings}
    (hnot : ¬ (settings.validate = .ok () ∧ columns ≤ maxColumns ∧ s.tables[table]? = none)) :
    ∃ cause, createTable table columns settings s = (.error cause, s) := by
  unfold createTable
  cases hvalid : settings.validate with
  | error cause => exact ⟨_, rfl⟩
  | ok _ =>
    simp only
    by_cases hnarrow : maxColumns < columns
    · rw [if_pos hnarrow]
      exact ⟨_, rfl⟩
    · rw [if_neg hnarrow, bind_eq (get_eq s)]
      have hcontains : s.tables.contains table = true := by
        rw [Std.HashMap.contains_eq_isSome_getElem?]
        cases htable : s.tables[table]? with
        | none => exact absurd ⟨hvalid, Nat.not_lt.mp hnarrow, htable⟩ hnot
        | some state => rfl
      rw [if_pos hcontains]
      exact ⟨_, rfl⟩

theorem Agrees.runs_createTable (h : Agrees s l l.latest) (table : TableId) (columns : Nat)
    (settings : TableSettings) :
    ∃ r, Runs (createTable table columns settings) s r fun s' =>
      Agrees s' (l.createTable table columns settings)
        (l.createTable table columns settings).latest := by
  have hcreated := h.mirrors.sound.createTable table columns settings
  unfold Ledger.createTable at hcreated ⊢
  by_cases hcond : settings.validate = .ok () ∧ columns ≤ maxColumns ∧ l.tables table = none
  · rw [if_pos hcond] at hcreated ⊢
    obtain ⟨hvalid, hnarrow, hnew⟩ := hcond
    rw [← h.mirrors.tables] at hnew
    refine ⟨_, runs_createTable_ok hvalid hnarrow hnew ?_⟩
    have hforgotten := h.invalidate table
    have htables : ∀ other, (s.tables.insert table ⟨settings, columns⟩)[other]? =
        Function.update l.tables table (some ⟨settings, columns⟩) other := by
      intro other
      rw [getElem?_insert_table, Function.update_apply, h.mirrors.tables]
    exact ⟨hforgotten.mirrors.with_tables htables hcreated, hforgotten.advises,
      hforgotten.stages⟩
  · rw [if_neg hcond]
    rw [← h.mirrors.tables] at hcond
    obtain ⟨cause, heq⟩ := createTable_eq_error hcond
    exact ⟨.error cause, s, heq, h⟩

/-! ## Moving rows -/

theorem Agrees.relocate (h : Agrees s l l.latest) (p : PlaceId) :
    Agrees { s with rows := (s.rows.relocate p).2 } (l.relocate p) (l.relocate p).latest := by
  have hplaces := h.mirrors.places p.table
  unfold Ledger.relocate
  rcases replaced_relocate (m := s.rows) p with
    ⟨slot, row, hslot, hrow, -, hmoved⟩ | ⟨hnone, hsame⟩
  · obtain ⟨hvalid, hstored⟩ := stored_move hrow hmoved h.mirrors.legible.valid
    have hfound : (l.places p.table)[slot]?.join = some row := by
      rw [← hplaces]
      exact hrow
    simp only [hslot, hfound]
    refine ⟨h.mirrors.with_rows hvalid hstored (h.mirrors.places_replaced hmoved ?_)
      (hmoved.rejecting.trans h.mirrors.rejecting), h.advises, h.stages⟩
    rw [← hplaces]
    rfl
  · -- no row is there, and nothing happens
    rw [hsame]
    cases hslot : slotOf p with
    | none => exact h
    | some slot =>
      have hmissing : (l.places p.table)[slot]?.join = none := by
        rw [hslot] at hnone
        rw [← hplaces]
        exact hnone
      simp only [hmissing]
      exact h

/-! ## A new store over the same rows -/

/-- Nothing is cached. -/
structure Blank (x : Service) : Prop where
  sequences : ∀ latest, x.sequences.Advises latest
  locations : x.locations.Sound
  content : ∀ P, x.content.Serves P
  staging : ∀ contents, Stages x.staging contents

theorem blank_ofSettings (settings : ServiceSettings) : Blank (.ofSettings settings) where
  sequences := SequenceAllocator.advises_ofBudget _
  locations := LocationIndex.sound_ofBudget _
  content := ContentCache.serves_ofBudget _ _
  staging := stages_new _

theorem Blank.invalidate {x : Service} (h : Blank x) (table : TableId) :
    Blank (x.invalidate table).2 where
  sequences latest := (h.sequences latest).invalidate table fun _ _ => rfl
  locations := h.locations.invalidate table
  content P := (h.content P).invalidate table fun _ _ _ hvalue => hvalue
  staging contents := (h.staging contents).invalidate table fun _ _ => rfl

/-- All tables are created, and nothing else happens. -/
theorem createTables_spec {settings : TableId → TableSettings}
    (hsettings : ∀ table, (settings table).validate = .ok ()) {entries : List (TableId × TableState)}
    (hdistinct : entries.Pairwise fun a b => a.1 ≠ b.1)
    (hnew : ∀ entry ∈ entries, s.tables[entry.1]? = none ∧ entry.2.columns ≤ maxColumns)
    (hblank : Blank s.service) :
    Blank (createTables settings s entries).service ∧
    (createTables settings s entries).rows = s.rows ∧
    (createTables settings s entries).codec = s.codec ∧
    (createTables settings s entries).unpacker = s.unpacker ∧
    ∀ table state, (createTables settings s entries).tables[table]? = some state ↔
      s.tables[table]? = some state ∨
        ∃ old, (table, old) ∈ entries ∧ state = ⟨settings table, old.columns⟩ := by
  induction entries generalizing s with
  | nil =>
    refine ⟨hblank, rfl, rfl, rfl, fun table state => ?_⟩
    simp [createTables]
  | cons entry rest ih =>
    obtain ⟨table, state⟩ := entry
    obtain ⟨hhead, htail⟩ := List.pairwise_cons.mp hdistinct
    obtain ⟨hfirst, hnarrow⟩ := hnew _ List.mem_cons_self
    let created : Store MemoryRows := { s with
      service := (s.service.invalidate table).2
      tables := s.tables.insert table ⟨settings table, state.columns⟩ }
    have hget : ∀ other : TableId, created.tables[other]? =
        if other = table then some ⟨settings table, state.columns⟩ else s.tables[other]? :=
      getElem?_insert_table s.tables table _
    unfold createTables
    rw [createTable_eq (hsettings table) hnarrow hfirst]
    obtain ⟨hservice, hrows, hcodec, hunpacker, htables⟩ := ih (s := created) htail
      (fun entry hentry => by
        obtain ⟨hnone, hentryNarrow⟩ := hnew entry (List.mem_cons_of_mem _ hentry)
        rw [hget, if_neg (hhead entry hentry).symm]
        exact ⟨hnone, hentryNarrow⟩)
      (hblank.invalidate table)
    refine ⟨hservice, hrows, hcodec, hunpacker, fun other found => ?_⟩
    rw [htables, hget]
    by_cases hother : table = other
    · -- the table is created now, and by no later entry
      subst hother
      rw [if_pos rfl, hfirst]
      constructor
      · rintro (heq | ⟨old, hold, -⟩)
        · exact .inr ⟨state, List.mem_cons_self, (Option.some.inj heq).symm⟩
        · exact absurd rfl (hhead (table, old) hold)
      · rintro (hnone | ⟨old, hold, rfl⟩)
        · cases hnone
        · rcases List.mem_cons.mp hold with heq | hlater
          · cases heq
            exact .inl rfl
          · exact absurd rfl (hhead (table, old) hlater)
    · rw [if_neg (Ne.symm hother)]
      refine or_congr Iff.rfl (exists_congr fun old => and_congr ?_ Iff.rfl)
      rw [List.mem_cons, or_iff_right]
      rintro heq
      cases heq
      exact hother rfl

/-- A new store over the same rows, with the same tables set up anew, has nothing cached. -/
theorem restart_spec (hnarrow : ∀ (table : TableId) state, s.tables[table]? = some state →
      state.columns ≤ maxColumns) (service : ServiceSettings) (codec : Codec) (unpacker : Unpacker)
    {settings : TableId → TableSettings} (hsettings : ∀ table, (settings table).validate = .ok ()) :
    let s' := createTables settings (.new (.ofSettings service) s.rows codec unpacker)
      s.tables.toList
    Blank s'.service ∧ s'.rows = s.rows ∧ s'.codec = codec ∧ s'.unpacker = unpacker ∧
    ∀ table : TableId, s'.tables[table]? =
      (s.tables[table]?).map fun state => (⟨settings table, state.columns⟩ : TableState) := by
  intro s'
  have hempty : ∀ table,
      (Store.new (.ofSettings service) s.rows codec unpacker).tables[table]? = none :=
    fun _ => Std.HashMap.getElem?_empty
  have hnew : ∀ entry ∈ s.tables.toList,
      (Store.new (.ofSettings service) s.rows codec unpacker).tables[entry.1]? = none ∧
        entry.2.columns ≤ maxColumns := fun entry hentry =>
    ⟨hempty _, hnarrow _ _ (Std.HashMap.mem_toList_iff_getElem?_eq_some.mp hentry)⟩
  -- no table is registered twice, in whatever order they are taken
  have hdistinct : s.tables.toList.Pairwise fun a b => a.1 ≠ b.1 :=
    Std.HashMap.distinct_keys_toList.imp fun hne heq => by simp [heq] at hne
  obtain ⟨hservice, hrows, hcodec, hunpacker, htables⟩ :=
    createTables_spec hsettings hdistinct hnew (blank_ofSettings service)
  refine ⟨hservice, hrows, hcodec, hunpacker, fun table => Option.ext fun state => ?_⟩
  rw [htables, hempty]
  simp only [Std.HashMap.mem_toList_iff_getElem?_eq_some, Option.map_eq_some_iff]
  constructor
  · rintro (hnone | ⟨old, hold, rfl⟩)
    · cases hnone
    · exact ⟨old, hold, rfl⟩
  · rintro ⟨old, hold, rfl⟩
    exact .inr ⟨old, hold, rfl⟩

/-- A new store over the same rows, with the same tables, agrees with the ledger made anew. -/
theorem Agrees.restart (h : Agrees s l latest) (service : ServiceSettings) (coder : DiffCoder)
    (unpacker : Unpacker) {settings : TableId → TableSettings}
    (hsettings : ∀ table, (settings table).validate = .ok ()) :
    Agrees (createTables settings
        (.new (.ofSettings service) s.rows coder.codec unpacker) s.tables.toList)
      (l.restart coder unpacker settings) (l.restart coder unpacker settings).latest := by
  have hnarrow : ∀ (table : TableId) state, s.tables[table]? = some state →
      state.columns ≤ maxColumns := by
    intro table state hstate
    rw [h.mirrors.tables] at hstate
    exact h.mirrors.sound.narrow table state hstate
  obtain ⟨hservice, hrows, hcodec, hunpacker, htables⟩ :=
    restart_spec hnarrow service coder.codec unpacker hsettings
  have hlegible := h.mirrors.legible
  refine ⟨⟨h.mirrors.sound.restart coder unpacker hsettings,
    ⟨?_, ?_, ?_, ?_, hservice.content _, hservice.locations⟩, hcodec, hunpacker, fun table => ?_,
    ?_, ?_⟩, hservice.sequences _, hservice.staging _⟩
  · rw [hcodec]
    rfl
  · rw [hcodec]
    rfl
  · rw [hrows]
    exact hlegible.valid
  · rw [hrows]
    exact hlegible.filed
  · rw [htables, h.mirrors.tables]
    rfl
  · rw [hrows]
    exact h.mirrors.places
  · rw [hrows]
    exact h.mirrors.rejecting

end VersionChain
