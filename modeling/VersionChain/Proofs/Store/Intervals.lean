import VersionChain.Proofs.Store.Runs

/-!
# The interval of forced keyframes

A table may have every so many versions stored as keyframes. A record that need not be one is
written against any of the `depth` versions before its own, on whichever side of a forced keyframe
they lie.

* `TableSettings.lastForced`, `TableSettings.unforced` — the last version that had to be a keyframe,
  and how many did not;
* `TableSettings.Allows` — what a record may be;
* `Ledger.Spaced` — all rows of a table have such records;
* `Spaced.step` — whatever is done to a store, as long as restarts leave the table as it was set up.
-/

namespace VersionChain

open StoreM MemoryRows

namespace TableSettings

variable {s : TableSettings} {seq w : Nat}

/-- What a record of a version may be: a keyframe or, unless the version has to be one, a record
against one of the `depth` versions before it. -/
def Allows (s : TableSettings) (seq : Nat) (record : Bytes) : Prop :=
  ∃ tag, Record.tagOf record = .ok tag ∧
    (tag.isKeyframe = true ∨ tag.isKeyframe = false ∧ s.forcesKeyframe seq = false ∧
      ∃ base, tag.baseSeq seq = some base ∧ seq ≤ base + s.depth)

/-- Depth and interval are the same. -/
def SameInterval (s s' : TableSettings) : Prop :=
  s'.depth = s.depth ∧ s'.keyframeEvery = s.keyframeEvery

theorem SameInterval.allows {s' : TableSettings} (h : SameInterval s s') {record : Bytes}
    (hallows : s.Allows seq record) : s'.Allows seq record := by
  obtain ⟨hdepth, hevery⟩ := h
  unfold Allows forcesKeyframe at *
  rw [hdepth, hevery]
  exact hallows

end TableSettings

variable {coder : DiffCoder} {settings : TableSettings} {history : List (List Bytes)}
  {columns column : Nat} {value : Bytes}

/-- A record that competes is one that the settings allow. -/
theorem Contends.allows {record : TaggedRecord}
    (h : Contends coder.codec settings history column value record) (hfull : Full history columns)
    (hdepth : settings.depth ≤ maxDepth) (hvalue : value.size < Diff.lengthLimit) :
    settings.Allows (history.length + 1) record.bytes := by
  cases h with
  | whole bytes hencode =>
    rw [encode_codec coder .keyframe settings.extraPass (by decide) hvalue] at hencode
    cases hencode
    exact ⟨_, Record.tagOf_write _ _, .inl rfl⟩
  | back distance base bytes hfree hnear hbase hencode =>
    obtain ⟨-, hback, hbaseSeq⟩ := back_spec hnear.1 (by omega)
    refine ⟨_, tagOf_back hencode (hfull.size_lt hbase) hvalue hnear.1 (by omega),
      .inr ⟨hback, hfree, history.length + 1 - distance, hbaseSeq _ (by omega), by omega⟩⟩

/-! ## Rows -/

/-- All rows of a table have records that its settings allow; without a table there are none. -/
structure Ledger.Spaced (l : Ledger) (table : TableId) : Prop where
  allowed : ∀ state, l.tables table = some state → ∀ row, some row ∈ l.places table →
    ∀ (column : Nat) record, row.columns[column]? = some record →
      state.settings.Allows row.seq record
  empty : l.tables table = none → ∀ row, some row ∉ l.places table

variable {l : Ledger} {table : TableId}

/-- A restart sets up a table with the depth and the interval that it had. -/
def Ledger.Steady (l : Ledger) (table : TableId) : Command → Prop
  | .restart _ _ settings => ∀ state, l.tables table = some state →
      state.settings.SameInterval (settings table).1
  | _ => True

/-- The records of the row that is stored next are allowed. -/
theorem Ledger.Sound.allows_row (h : l.Sound) {g : GroupId} {state : TableState}
    (hstate : l.tables g.table = some state) {values : List Bytes}
    (hshort : ∀ value ∈ values, value.size < Diff.lengthLimit) {column : Nat} {record : Bytes}
    (hrecord : (l.row g state.settings values).columns[column]? = some record) :
    state.settings.Allows ((l.histories g).length + 1) record := by
  unfold Ledger.row Ledger.records at hrecord
  rw [List.getElem?_toArray, List.getElem?_map, getElem?_recordsFor, Nat.zero_add,
    Option.map_map] at hrecord
  obtain ⟨value, hvalue, rfl⟩ := Option.map_eq_some_iff.mp hrecord
  have hfull := h.full g state hstate
  have hsize := hshort value (List.mem_of_getElem? hvalue)
  exact (contends_recordFor hfull hsize).allows hfull
    (depth_of_validate (h.valid g.table state hstate)).2 hsize

namespace Ledger.Spaced

theorem insert (h : l.Spaced table) (hsound : l.Sound) (other : TableId) (key : Key)
    (values : List Bytes) : (l.insert other key values).2.Spaced table := by
  rcases l.insert_cases other key values with
    ⟨cause, rejecting, heq⟩ | ⟨group, state, -, hstate, -, hshort, -, heq⟩
  · rw [heq]
    exact ⟨h.allowed, h.empty⟩
  · rw [heq]
    have hplaces : ∀ row, some row ∈ (l.append ⟨other, group⟩ state.settings values).places table →
        table = other ∧ row = l.row ⟨other, group⟩ state.settings values ∨
          some row ∈ l.places table := by
      intro row hrow
      have hrow' : some row ∈ Function.update l.places other
          ((l.places other).push (some (l.row ⟨other, group⟩ state.settings values))) table := hrow
      by_cases htable : table = other
      · subst htable
        rw [Function.update_self, Array.mem_push] at hrow'
        rcases hrow' with hold | hnew
        · exact .inr hold
        · exact .inl ⟨rfl, Option.some.inj hnew⟩
      · rw [Function.update_of_ne htable] at hrow'
        exact .inr hrow'
    constructor
    · intro state' hstate' row hrow column record hrecord
      rcases hplaces row hrow with ⟨rfl, rfl⟩ | hold
      · have hsame : some state = some state' := hstate.symm.trans hstate'
        cases hsame
        exact hsound.allows_row (g := ⟨table, group⟩) hstate hshort hrecord
      · exact h.allowed state' hstate' row hold column record hrecord
    · intro hnone row hrow
      rcases hplaces row hrow with ⟨rfl, -⟩ | hold
      · have hsome : some state = none := hstate.symm.trans hnone
        cases hsome
      · exact h.empty hnone row hold

theorem createTable (h : l.Spaced table) (other : TableId) (columns : Nat)
    (settings : TableSettings) : (l.createTable other columns settings).Spaced table := by
  unfold Ledger.createTable
  split
  · rename_i hnew
    by_cases htable : table = other
    · subst htable
      have hempty := h.empty hnew.2.2
      exact ⟨fun _ _ row hrow => absurd hrow (hempty row), fun _ => hempty⟩
    · have hsame : Function.update l.tables other (some ⟨settings, columns⟩) table =
          l.tables table := Function.update_of_ne htable _ _
      exact ⟨fun state hstate => h.allowed state (hsame.symm.trans hstate),
        fun hnone => h.empty (hsame.symm.trans hnone)⟩
  · exact h

/-- Where a table was cleared, whatever becomes of its settings. -/
theorem of_cleared {l' : Ledger} (hplaces : l'.places table = #[]) : l'.Spaced table := by
  constructor
  · intro _ _ row hrow
    rw [hplaces] at hrow
    simp at hrow
  · intro _ row hrow
    rw [hplaces] at hrow
    simp at hrow

theorem clear (h : l.Spaced table) (other : TableId) : (l.clear other).Spaced table := by
  by_cases htable : table = other
  · subst htable
    exact of_cleared (Function.update_self _ _ _)
  · have hsame : (l.clear other).places table = l.places table := Function.update_of_ne htable _ _
    constructor
    · rw [hsame]
      exact h.allowed
    · rw [hsame]
      exact h.empty

theorem truncate (h : l.Spaced table) (other : TableId) : (l.truncate other).Spaced table := by
  unfold Ledger.truncate
  split
  · exact h.clear other
  · exact h

theorem dropTable (h : l.Spaced table) (other : TableId) : (l.dropTable other).Spaced table := by
  unfold Ledger.dropTable
  split
  · by_cases htable : table = other
    · subst htable
      exact of_cleared (Function.update_self _ _ _)
    · have hsame : Function.update l.tables other none table = l.tables table :=
        Function.update_of_ne htable _ _
      exact ⟨fun state hstate => (h.clear other).allowed state (hsame.symm.trans hstate),
        fun hnone => (h.clear other).empty (hsame.symm.trans hnone)⟩
  · exact h

theorem relocate (h : l.Spaced table) (p : PlaceId) : (l.relocate p).Spaced table := by
  unfold Ledger.relocate
  split
  · exact h
  · rename_i slot hslot
    split
    · exact h
    · rename_i moved hmoved
      have hrows : ∀ row, some row ∈ Function.update l.places p.table
          (((l.places p.table).setIfInBounds slot none).push (some moved)) table →
          some row ∈ l.places table := by
        intro row hrow
        by_cases htable : table = p.table
        · subst htable
          rw [Function.update_self, Array.mem_push] at hrow
          rcases hrow with hkept | hlast
          · exact (Array.mem_or_eq_of_mem_setIfInBounds hkept).resolve_right nofun
          · rw [hlast]
            exact Array.mem_of_getElem? (Option.join_eq_some_iff.mp hmoved)
        · rwa [Function.update_of_ne htable] at hrow
      exact ⟨fun state hstate row hrow => h.allowed state hstate row (hrows row hrow),
        fun hnone row hrow => h.empty hnone row (hrows row hrow)⟩

theorem restart (h : l.Spaced table) (coder : DiffCoder) (unpacker : Unpacker)
    {settings : TableId → TableSettings} (hsame : ∀ state, l.tables table = some state →
      state.settings.SameInterval (settings table)) :
    (l.restart coder unpacker settings).Spaced table := by
  constructor
  · intro state hstate row hrow column record hrecord
    obtain ⟨old, hold, rfl⟩ := Option.map_eq_some_iff.mp hstate
    exact (hsame old hold).allows (h.allowed old hold row hrow column record hrecord)
  · intro hnone
    exact h.empty (Option.map_eq_none_iff.mp hnone)

/-- A command leaves all rows with records that are allowed. -/
theorem step (h : l.Spaced table) (hsound : l.Sound) {command : Command}
    (hsteady : l.Steady table command) : (l.step command).Spaced table := by
  cases command with
  | createTable other columns settings => exact h.createTable other columns settings
  | insert transaction other key values => exact h.insert hsound other key values
  | truncate other => exact h.truncate other
  | dropTable other => exact h.dropTable other
  | relocate place => exact h.relocate place
  | rejectAppends count => exact ⟨h.allowed, h.empty⟩
  | restart coder unpacker settings => exact h.restart coder unpacker hsteady
  | _ => exact h

end Ledger.Spaced

end VersionChain
