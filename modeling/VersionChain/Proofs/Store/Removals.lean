import VersionChain.Proofs.Store.Numbering
import VersionChain.Proofs.Store.Reassign
import VersionChain.Proofs.Store.RowChanges

/-!
# Operations where rows are missing

Where rows are missing, a version is read as its number was last assigned, or not at all; no read
fails. Reads, operations on tables and whatever else happens to a store change nothing about that.

* `Remembers.runs_getVersion`, `Remembers.runs_getColumn` — reading a version, or a column of one;
* `Remembers.with_rows` — rows may be missing, and be put away differently;
* `Remembers.ends_truncate`, `Remembers.ends_dropTable`, `keeps_createTable_remembers` — tables;
* `Remembers.restart` — a new store over the rows that are left.
-/

namespace VersionChain

open StoreM MemoryRows

variable {assigned : Assigned} {issued : GroupId → Nat} {s s' : Store MemoryRows} {v : VersionId}
  {table : TableId} {state : TableState} {key : Key} {group : Fingerprint} {column count : Nat}

/-! ## Reading -/

/-- The columns of a version that are read are those that were assigned. -/
theorem Honors.exists_readColumns (h : Honors assigned s) (v : VersionId)
    (hcount : column + count ≤ 65536) (done : Array Bytes) :
    ∃ found, Runs (readColumns v column done count) s (.ok found) (Quiet (Recorded assigned) s) ∧
      ∀ values, found = some values → ∃ later : List Bytes, values = done ++ later.toArray ∧
        later.length = count ∧ ∀ k, k < count →
          contentOf assigned v.toGroupId v.seq (column + k) = later[k]? := by
  induction count generalizing s column done with
  | zero =>
    refine ⟨some done, .pure (quiet_refl h.serves), ?_⟩
    rintro _ ⟨⟩
    exact ⟨[], by simp, rfl, fun k hk => absurd hk (Nat.not_lt_zero k)⟩
  | succ count ih =>
    obtain ⟨first, ⟨s₁, hfirst, hs₁⟩, hright⟩ :=
      h.exists_resolve v.toGroupId v.seq (show column < 65536 by omega)
    cases first with
    | none => exact ⟨none, Runs.bind_of_eq hfirst (.pure hs₁), nofun⟩
    | some value =>
      obtain ⟨found, hfound, hvalues⟩ := ih (h.restages hs₁.restages)
        (show column + 1 + count ≤ 65536 by omega) (done.push value)
      refine ⟨found, Runs.bind_of_eq hfirst (hfound.imp fun _ => hs₁.trans), fun values heq => ?_⟩
      obtain ⟨later, rfl, hlength, hlater⟩ := hvalues values heq
      refine ⟨value :: later, by simp, by rw [List.length_cons, hlength], fun k hk => ?_⟩
      cases k with
      | zero => exact hright value rfl
      | succ k =>
        rw [Nat.add_comm k 1, ← Nat.add_assoc, Nat.add_comm 1 k]
        exact hlater k (Nat.lt_of_succ_lt_succ hk)

theorem Remembers.quiet (h : Remembers assigned issued s) (hs' : Quiet (Recorded assigned) s s') :
    Remembers assigned issued s' where
  honors := h.honors.restages hs'.restages
  rings := by
    rw [hs'.staging]
    exact h.rings
  numbered := h.numbered.congr hs'.sequences hs'.rows
  gapless := h.gapless
  valid := by
    rw [hs'.tables]
    exact h.valid
  fits := by
    rw [hs'.tables]
    exact h.fits

/-- A version is read as it was assigned, or not at all. -/
theorem Remembers.runs_getVersion (h : Remembers assigned issued s)
    (htable : s.tables[table]? = some state) (hcolumns : 0 < state.columns)
    (hkey : key.fingerprint s.unpacker = .ok group) (seq : Nat) :
    (getVersion table key seq s).1 = .ok none ∨
    ∃ values, assigned ⟨⟨table, group⟩, seq⟩ = some values ∧
      (getVersion table key seq s).1 = .ok (some values.toArray) := by
  have hnarrow : 0 + state.columns ≤ 65536 := by
    have := (h.valid table state htable).2
    unfold maxColumns at this
    omega
  obtain ⟨found, hruns, hvalues⟩ :=
    h.honors.exists_readColumns ⟨⟨table, group⟩, seq⟩ hnarrow #[]
  have hread : (getVersion table key seq s).1 = .ok found :=
    (Runs.bind_of_eq (tableState_eq htable) (Runs.bind_of_eq (fingerprint_eq hkey) hruns)).eq.1
  cases found with
  | none => exact .inl hread
  | some contents =>
    obtain ⟨later, rfl, hlength, hlater⟩ := hvalues contents rfl
    -- the version has a first column, so it was assigned
    have hfirst : contentOf assigned ⟨table, group⟩ seq 0 = some later[0] :=
      (hlater 0 hcolumns).trans (List.getElem?_eq_getElem (hlength ▸ hcolumns))
    obtain ⟨values, hassigned, -⟩ := Option.bind_eq_some_iff.mp hfirst
    obtain ⟨other, hother, hfits⟩ := h.fits _ values hassigned
    obtain rfl : state = other := Option.some.inj (htable.symm.trans hother)
    have hsame : later = values := by
      refine List.ext_getElem? fun k => ?_
      by_cases hk : k < state.columns
      · rw [← hlater k hk, Nat.zero_add]
        unfold contentOf
        rw [hassigned]
        rfl
      · rw [List.getElem?_eq_none (by omega), List.getElem?_eq_none (by omega)]
    refine .inr ⟨values, hassigned, ?_⟩
    rw [hread, hsame, Array.empty_append]

/-- A column of a version is read as it was assigned, or not at all. -/
theorem Remembers.runs_getColumn (h : Remembers assigned issued s)
    (htable : s.tables[table]? = some state) (hkey : key.fingerprint s.unpacker = .ok group)
    (seq : Nat) (hcolumn : column < state.columns) :
    (getColumn table key seq column s).1 = .ok none ∨
    ∃ value, contentOf assigned ⟨table, group⟩ seq column = some value ∧
      (getColumn table key seq column s).1 = .ok (some value) := by
  have hnarrow := (h.valid table state htable).2
  unfold maxColumns at hnarrow
  obtain ⟨found, hruns, hright⟩ :=
    h.honors.exists_resolve ⟨table, group⟩ seq (show column < 65536 by omega)
  have hread : Runs (getColumn table key seq column) s (.ok found) fun _ => True := by
    refine Runs.bind_of_eq (tableState_eq htable) ?_
    rw [if_pos hcolumn]
    exact Runs.bind_of_eq (fingerprint_eq hkey) (hruns.imp fun _ _ => trivial)
  cases found with
  | none => exact .inl hread.eq.1
  | some value => exact .inr ⟨value, hright value rfl, hread.eq.1⟩

/-! ## What makes no difference -/

/-- Rows may be missing, and be put away and counted differently. -/
theorem Remembers.with_rows (h : Remembers assigned issued s) {rows : MemoryRows}
    (hvalid : rows.Valid)
    (hstored : ∀ v row, rows.stored v = some row → s.rows.stored v = some row) :
    Remembers assigned issued { s with rows } :=
  ⟨h.honors.with_rows hvalid hstored, h.rings, h.numbered.with_rows hvalid hstored, h.gapless,
    h.valid, h.fits⟩

/-- It does not matter what is cached, as long as all of it is right; nor do the statistics. -/
theorem Remembers.with_service (h : Remembers assigned issued s) (service : Service)
    (hcontent : service.content.Serves (Recorded assigned))
    (hstaging : service.staging.Rings (contentOf assigned) issued)
    (hsequences : ∀ g, service.sequences.Caches g (Current issued s.rows g))
    (statistics : Statistics) : Remembers assigned issued { s with service, statistics } :=
  ⟨⟨h.honors.coder, h.honors.valid, h.honors.rows, hcontent, h.honors.short⟩, hstaging,
    ⟨h.numbered.valid, h.numbered.stored, hsequences⟩, h.gapless, h.valid, h.fits⟩

theorem Remembers.with_statistics (h : Remembers assigned issued s) (statistics : Statistics) :
    Remembers assigned issued { s with statistics } :=
  h.with_service s.service h.honors.serves h.rings h.numbered.cached statistics

theorem Remembers.with_tables (h : Remembers assigned issued s)
    {tables : Std.HashMap TableId TableState}
    (hvalid : ∀ (table : TableId) state, tables[table]? = some state →
      state.settings.validate = .ok () ∧ state.columns ≤ maxColumns)
    (hfits : ∀ v values, assigned v = some values →
      ∃ state, tables[v.table]? = some state ∧ values.length = state.columns) :
    Remembers assigned issued { s with tables } :=
  ⟨⟨h.honors.coder, h.honors.valid, h.honors.rows, h.honors.serves, h.honors.short⟩, h.rings,
    ⟨h.numbered.valid, h.numbered.stored, h.numbered.cached⟩, h.gapless, hvalid, hfits⟩

theorem readStable_remembers (assigned : Assigned) (issued : GroupId → Nat) :
    ReadStable (Remembers assigned issued) where
  with_locations _ _ hf hs := hs.quiet ⟨rfl, rfl, hs.honors.serves, hf _⟩
  with_rows _ _ hrows hs := hs.quiet ⟨rfl, hrows, hs.honors.serves, id⟩

theorem keeps_getVersion_remembers (table : TableId) (key : Key) (seq : Nat) :
    Keeps (getVersion table key seq) (Remembers assigned issued) := by
  refine fun s hs => ends_getVersion hs fun state group htable _ => ?_
  have hnarrow := (hs.valid table state htable).2
  unfold maxColumns at hnarrow
  obtain ⟨found, hruns, -⟩ :=
    hs.honors.exists_readColumns ⟨⟨table, group⟩, seq⟩ (show 0 + state.columns ≤ 65536 by omega) #[]
  exact hs.quiet hruns.eq.2

theorem keeps_getColumn_remembers (table : TableId) (key : Key) (seq column : Nat) :
    Keeps (getColumn table key seq column) (Remembers assigned issued) := by
  refine fun s hs => ends_getColumn hs fun state group htable hcolumn _ => ?_
  have hnarrow := (hs.valid table state htable).2
  unfold maxColumns at hnarrow
  obtain ⟨found, hruns, -⟩ :=
    hs.honors.exists_resolve ⟨table, group⟩ seq (show column < 65536 by omega)
  exact hs.quiet hruns.eq.2

theorem keeps_latestSeq_remembers (table : TableId) (key : Key) :
    Keeps (latestSeq table key) (Remembers assigned issued) := by
  intro s hs
  obtain ⟨hnumbered, hhonors, hrings, htables, -⟩ := Numbered.keeps_latestSeq
    (numberStable_remembers assigned issued s) table key s
    ⟨hs.numbered, hs.honors, hs.rings, rfl, fun _ hv => hv⟩
  refine ⟨hhonors, hrings, hnumbered, hs.gapless, ?_, ?_⟩
  all_goals
    show ∀ _, _
    rw [htables]
  · exact hs.valid
  · exact hs.fits

/-! ## Forgetting and removing tables -/

/-- Nothing is said any more of the numbers of a table. -/
def unassigned (assigned : Assigned) (table : TableId) (v : VersionId) : Option (List Bytes) :=
  if v.table = table then none else assigned v

theorem Remembers.invalidate (h : Remembers assigned issued s) (table : TableId) :
    Remembers assigned issued { s with service := (s.service.invalidate table).2 } :=
  h.with_service (s.service.invalidate table).2
    (h.honors.serves.invalidate table fun _ _ _ hvalue => hvalue)
    (h.rings.invalidate table fun _ _ => ⟨rfl, rfl⟩)
    (h.numbered.invalidate_sequences table).cached s.statistics

/-- Once a table is forgotten, nothing is left of its versions. -/
theorem Remembers.forgotten_invalidate (h : Remembers assigned issued s) (hv : v.table = table) :
    Forgotten { s with service := (s.service.invalidate table).2 } v := by
  constructor
  · intro column
    let x := (s.service.content.invalidate table).2
    have hothers : x.Serves fun key _ => key.table ≠ table :=
      h.honors.serves.invalidate table fun _ _ hkey _ => hkey
    cases hget : (x.get ⟨v, column⟩).1 with
    | none => exact hget
    | some value => exact absurd hv ((hothers.get ⟨v, column⟩).1 value hget)
  · intro ring hring
    have hgone := (h.rings.valid.invalidate table).2 v.toGroupId
    rw [if_pos hv] at hgone
    cases hgone.symm.trans hring

theorem keeps_createTable_remembers (table : TableId) (columns : Nat) (settings : TableSettings) :
    Keeps (createTable table columns settings) (Remembers assigned issued) := by
  intro s hs
  by_cases hcond : settings.validate = .ok () ∧ columns ≤ maxColumns ∧ s.tables[table]? = none
  · obtain ⟨hvalid, hnarrow, hnew⟩ := hcond
    rw [createTable_eq hvalid hnarrow hnew]
    refine (hs.invalidate table).with_tables (fun other found hfound => ?_) fun v values hvalues => ?_
    · rw [getElem?_insert_table] at hfound
      split at hfound
      · cases hfound
        exact ⟨hvalid, hnarrow⟩
      · exact hs.valid other found hfound
    · -- nothing was assigned for the table before it was created
      obtain ⟨found, hfound, hlength⟩ := hs.fits v values hvalues
      refine ⟨found, ?_, hlength⟩
      rw [getElem?_insert_table, if_neg]
      · exact hfound
      · intro heq
        rw [heq, hnew] at hfound
        cases hfound
  · obtain ⟨cause, heq⟩ := createTable_eq_error hcond
    rw [heq]
    exact hs

theorem unassigned_eq_some {values : List Bytes} :
    unassigned assigned table v = some values ↔ v.table ≠ table ∧ assigned v = some values := by
  unfold unassigned
  split <;> simp [*]

theorem contentOf_unassigned (assigned : Assigned) {g : GroupId} (hg : g.table ≠ table) :
    contentOf (unassigned assigned table) g = contentOf assigned g := by
  funext seq column
  unfold contentOf unassigned
  rw [if_neg hg]

/-- With its rows removed and its contents forgotten, nothing need be said of a table. -/
theorem Honors.clear (h : Honors assigned s) {rows : MemoryRows}
    (hrows : Replaced s.rows rows table {}) :
    Honors (unassigned assigned table) { s with
      service := { s.service with content := (s.service.content.invalidate table).2 }, rows } := by
  obtain ⟨hvalid, hstored⟩ := stored_clear hrows h.valid
  refine ⟨h.coder, hvalid, fun v row hrow => ?_, ?_, fun v values hvalues => ?_⟩
  · rw [hstored] at hrow
    split at hrow
    · cases hrow
    · rename_i htable
      refine (h.rows v row hrow).imp fun seq column value _ hvalue => ?_
      rw [contentOf_unassigned assigned htable]
      exact hvalue
  · refine h.serves.invalidate table fun key value hkey hvalue => ?_
    unfold Recorded
    rw [contentOf_unassigned assigned hkey]
    exact hvalue
  · exact h.short v values (unassigned_eq_some.mp hvalues).2

/-- With its rows removed and all forgotten that was cached for it, a table is empty; it may be
removed itself. -/
theorem Remembers.clear (h : Remembers assigned issued s) {rows : MemoryRows}
    (hrows : Replaced s.rows rows table {}) (statistics : Statistics)
    {tables : Std.HashMap TableId TableState}
    (htables : ∀ (other : TableId) found, tables[other]? = some found →
      s.tables[other]? = some found)
    (hothers : ∀ other : TableId, other ≠ table → tables[other]? = s.tables[other]?) :
    Remembers (unassigned assigned table) (cleared issued table)
      { s with service := (s.service.invalidate table).2, rows, tables, statistics } := by
  have hhonors := h.honors.clear hrows
  have hnumbered : Numbered (cleared issued table) _ :=
    h.numbered.clear hrows fun g hg => if_neg hg
  refine ⟨⟨hhonors.coder, hhonors.valid, hhonors.rows, hhonors.serves, hhonors.short⟩, ?_,
    ⟨hnumbered.valid, hnumbered.stored, hnumbered.cached⟩, fun v => ?_,
    fun other found hfound => h.valid other found (htables other found hfound),
    fun v values hvalues => ?_⟩
  · exact h.rings.invalidate table fun g hg => ⟨contentOf_unassigned assigned hg, if_neg hg⟩
  · unfold unassigned cleared
    by_cases htable : v.table = table
    · rw [if_pos htable, if_pos htable]
      simp only [Option.isSome_none, Bool.false_eq_true, false_iff]
      omega
    · rw [if_neg htable, if_neg htable]
      exact h.gapless v
  · obtain ⟨htable, hassigned⟩ := unassigned_eq_some.mp hvalues
    obtain ⟨found, hfound, hlength⟩ := h.fits v values hassigned
    exact ⟨found, (hothers v.table htable).trans hfound, hlength⟩

/-- The rows of a table were removed, and its numbers stand for nothing; or nothing has changed. -/
def Cleared {α : Type} (assigned : Assigned) (issued : GroupId → Nat) (table : TableId) :
    Except StoreError α → Store MemoryRows → Prop
  | .ok _, s => Remembers (unassigned assigned table) (cleared issued table) s
  | .error _, s => Remembers assigned issued s

theorem Remembers.ends_truncate (h : Remembers assigned issued s) (table : TableId) :
    Ends (StoreM.truncate table) s (Cleared assigned issued table) := by
  cases htable : s.tables[table]? with
  | none => exact (Runs.bind_error (runs_tableState_error htable h)).ends fun _ hs => hs
  | some state =>
    refine Ends.bind_of_eq (tableState_eq htable) (Ends.bind_of_eq (onRows_eq rfl) ?_)
    exact h.clear (replaced_truncate table) _ (fun _ _ hfound => hfound) fun _ _ => rfl

theorem Remembers.ends_dropTable (h : Remembers assigned issued s) (table : TableId) :
    Ends (dropTable table) s (Cleared assigned issued table) := by
  cases htable : s.tables[table]? with
  | none => exact (Runs.bind_error (runs_tableState_error htable h)).ends fun _ hs => hs
  | some state =>
    refine Ends.bind_of_eq (tableState_eq htable) (Ends.bind_of_eq (onRows_eq rfl) ?_)
    refine h.clear (replaced_drop table) _ (fun other found hfound => ?_) fun other hother => ?_
    · rw [getElem?_erase_table] at hfound
      split at hfound
      · cases hfound
      · exact hfound
    · rw [getElem?_erase_table, if_neg hother]

/-! ## Rows and caches -/

theorem Remembers.relocate (h : Remembers assigned issued s) (p : PlaceId) :
    Remembers assigned issued { s with rows := (s.rows.relocate p).2 } := by
  rcases replaced_relocate (m := s.rows) p with ⟨slot, row, -, hrow, -, hmoved⟩ | ⟨-, hsame⟩
  · obtain ⟨hvalid, hstored⟩ := stored_move hrow hmoved h.numbered.valid
    exact h.with_rows hvalid fun v _ hfound => (hstored v).symm.trans hfound
  · rw [hsame]
    exact h

theorem keeps_invalidatePart_remembers (assigned : Assigned) (issued : GroupId → Nat)
    (part : ServicePart) (table : TableId) :
    Keeps (invalidatePart part table) (Remembers assigned issued) := by
  intro s hs
  cases part with
  | sequences =>
    exact hs.with_service
      { s.service with sequences := (s.service.sequences.invalidate table).2 } hs.honors.serves
      hs.rings (hs.numbered.invalidate_sequences table).cached s.statistics
  | locations =>
    exact hs.with_service
      { s.service with locations := (s.service.locations.invalidate table).2 } hs.honors.serves
      hs.rings hs.numbered.cached s.statistics
  | content =>
    exact hs.with_service { s.service with content := (s.service.content.invalidate table).2 }
      (hs.honors.serves.invalidate table fun _ _ _ hvalue => hvalue) hs.rings hs.numbered.cached
      s.statistics
  | staging =>
    exact hs.with_service { s.service with staging := (s.service.staging.invalidate table).2 }
      hs.honors.serves (hs.rings.invalidate table fun _ _ => ⟨rfl, rfl⟩) hs.numbered.cached
      s.statistics

/-! ## A new store over the same rows -/

theorem Blank.caches {x : Service} (h : Blank x) (g : GroupId) (P : Nat → Prop) :
    x.sequences.Caches g P := by
  refine ⟨(h.sequences fun _ => 0).wellFormed, fun seq hseq => ?_⟩
  -- a number that were cached would be any number
  exact absurd ((h.sequences fun _ => seq + 1).holds g seq hseq) (Nat.ne_of_lt (Nat.lt_succ_self seq))

/-- Before any row is stored, no number was given out. -/
theorem Blank.numbered {x : Service} (h : Blank x) (indexed : Bool) (codec : Codec)
    (unpacker : Unpacker) : Numbered (fun _ => 0) (.new x { indexed } codec unpacker) := by
  refine ⟨valid_empty indexed, fun g later row hrow => ?_, fun g => h.caches g _⟩
  cases (stored_empty indexed ⟨g, later⟩).symm.trans hrow

theorem Blank.rings {x : Service} (h : Blank x) (content : GroupId → Nat → Nat → Option Bytes)
    (bound : GroupId → Nat) : x.staging.Rings content bound := by
  refine (stages_iff.mp (h.staging fun _ => [])).mono (fun _ => Nat.zero_le _) ?_
  intro g seq column value hvalue
  cases seq with
  | zero => cases hvalue
  | succ seq => cases hvalue

theorem Remembers.restart (h : Remembers assigned issued s) (service : ServiceSettings)
    (coder : DiffCoder) (unpacker : Unpacker) {settings : TableId → TableSettings}
    (hsettings : ∀ table, (settings table).validate = .ok ()) :
    Remembers assigned issued (createTables settings
      (.new (.ofSettings service) s.rows coder.codec unpacker) s.tables.toList) := by
  obtain ⟨hservice, hrows, hcodec, -, htables⟩ :=
    restart_spec (fun table state hstate => (h.valid table state hstate).2) service coder.codec
      unpacker hsettings
  refine ⟨⟨⟨coder, hcodec⟩, ?_, ?_, hservice.content _, h.honors.short⟩, hservice.rings _ _,
    ⟨?_, ?_, fun g => hservice.caches g _⟩, h.gapless, fun table state hstate => ?_,
    fun v values hvalues => ?_⟩
  · rw [hrows]
    exact h.honors.valid
  · rw [hrows]
    exact h.honors.rows
  · rw [hrows]
    exact h.honors.valid
  · rw [hrows]
    exact h.numbered.stored
  · rw [htables] at hstate
    obtain ⟨old, hold, rfl⟩ := Option.map_eq_some_iff.mp hstate
    exact ⟨hsettings table, (h.valid table old hold).2⟩
  · obtain ⟨old, hold, hlength⟩ := h.fits v values hvalues
    refine ⟨⟨settings v.table, old.columns⟩, ?_, hlength⟩
    rw [htables, hold]
    rfl

end VersionChain
