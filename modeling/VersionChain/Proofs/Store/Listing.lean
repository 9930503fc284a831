import VersionChain.Proofs.Store.Numbering

/-!
# Versions that are read and versions that are listed

Reading a version looks for its contents column by column; listing the versions of a group looks
through its rows. In whatever state a run has left the store, both find the same versions. Only
where a table has no columns is there nothing that reading could miss: then every version is read,
stored or not.

* `StoreM.ReadsVersion`, `StoreM.ListsVersion` — a version is read, a version is listed;
* `exists_gather` — the versions of a history that are gathered;
* `Agrees.reads_iff`, `Agrees.lists_iff` — in a store that agrees with a ledger;
* `Run.reads_listed` — throughout a run.
-/

namespace VersionChain

open StoreM

/-- Reading a version gives its contents. -/
def StoreM.ReadsVersion (table : TableId) (key : Key) (seq : Nat) (s : Store MemoryRows) : Prop :=
  ∃ values, (getVersion table key seq s).1 = .ok (some values)

/-- A version is among those that are listed for its group. -/
def StoreM.ListsVersion (table : TableId) (key : Key) (seq : Nat) (s : Store MemoryRows) : Prop :=
  ∃ seqs, (history table key s).1 = .ok seqs ∧ seq ∈ seqs

variable {contents : List (List Bytes)} {columns : Nat}

theorem exists_versionAt (contents : List (List Bytes)) (seq : Nat) :
    (∃ values, versionAt contents seq = some values) ↔ seq ∈ List.range' 1 contents.length := by
  rw [List.mem_range'_1]
  cases seq with
  | zero => simp [versionAt]
  | succ seq =>
    simp only [versionAt_succ, Option.map_eq_some_iff, List.getElem?_eq_some_iff]
    constructor
    · rintro ⟨values, row, ⟨hlt, -⟩, -⟩
      omega
    · intro hseq
      exact ⟨_, contents[seq], ⟨by omega, rfl⟩, rfl⟩

/-- Something is gathered for the versions of a history, and for any other one if there are no
columns to look at. -/
theorem exists_gather (hfull : Full contents columns) (seq : Nat) :
    (∃ values, gather contents seq 0 #[] columns = some values) ↔
      seq ∈ List.range' 1 contents.length ∨ columns = 0 := by
  rcases Nat.eq_zero_or_pos columns with rfl | hcolumns
  · simp [gather]
  · rw [gather_eq_versionAt hfull hcolumns, exists_versionAt]
    simp [Nat.ne_of_gt hcolumns]

/-! ## One state -/

section State

variable {s : Store MemoryRows} {table : TableId} {key : Key}

/-- Of a table that is not there nothing is read, and nothing listed. -/
theorem StoreM.nothing_of_noTable (htable : s.tables[table]? = none) (seq : Nat) :
    ¬ ReadsVersion table key seq s ∧ ¬ ListsVersion table key seq s := by
  obtain ⟨s', hstate, -⟩ := runs_tableState_error (Q := fun _ => True) htable trivial
  constructor
  · rintro ⟨values, hread⟩
    unfold getVersion at hread
    rw [bind_eq_error hstate] at hread
    cases hread
  · rintro ⟨seqs, hlist, -⟩
    unfold history at hlist
    rw [bind_eq_error hstate] at hlist
    cases hlist

/-- With a key that cannot be resolved nothing is read, and nothing listed. -/
theorem StoreM.nothing_of_keyError {cause : KeyError}
    (hkey : key.fingerprint s.unpacker = .error cause) (seq : Nat) :
    ¬ ReadsVersion table key seq s ∧ ¬ ListsVersion table key seq s := by
  cases htable : s.tables[table]? with
  | none => exact nothing_of_noTable htable seq
  | some state =>
    obtain ⟨s', hgroup, -⟩ := runs_fingerprint_error (Q := fun _ => True) hkey trivial
    constructor
    · rintro ⟨values, hread⟩
      unfold getVersion at hread
      rw [bind_eq (tableState_eq htable), bind_eq_error hgroup] at hread
      cases hread
    · rintro ⟨seqs, hlist, -⟩
      unfold history at hlist
      rw [bind_eq (tableState_eq htable), bind_eq_error hgroup] at hlist
      cases hlist

variable {l : Ledger} {state : TableState} {group : Fingerprint}

theorem Agrees.reads_iff (h : Agrees s l l.latest) (htable : s.tables[table]? = some state)
    (hkey : key.fingerprint s.unpacker = .ok group) (seq : Nat) :
    ReadsVersion table key seq s ↔
      seq ∈ List.range' 1 (l.latest ⟨table, group⟩) ∨ state.columns = 0 := by
  have hfull : Full (l.histories ⟨table, group⟩) state.columns :=
    h.mirrors.sound.full ⟨table, group⟩ state ((h.mirrors.tables table).symm.trans htable)
  unfold ReadsVersion
  rw [(h.runs_getVersion htable hkey seq).eq.1]
  simp only [Except.ok.injEq]
  exact exists_gather hfull seq

theorem Agrees.lists_iff (h : Agrees s l l.latest) (htable : s.tables[table]? = some state)
    (hkey : key.fingerprint s.unpacker = .ok group) (seq : Nat) :
    ListsVersion table key seq s ↔ seq ∈ List.range' 1 (l.latest ⟨table, group⟩) := by
  unfold ListsVersion
  rw [(h.runs_history htable hkey).eq.1]
  simp

end State

/-! ## Runs -/

namespace Run

/-- Throughout a run, the versions of a group that are read are those that are listed for it; but in
a table without columns every version of every group is read. -/
theorem reads_listed (services : Nat → ServiceSettings) (indexed : Bool) (coder : DiffCoder)
    (unpacker : Unpacker) (commands : List Command) (table : TableId) (key : Key) (seq : Nat) :
    let s := (after services indexed coder unpacker commands).store
    ReadsVersion table key seq s ↔ ListsVersion table key seq s ∨
      (s.tableColumns table = some 0 ∧ ∃ group, key.fingerprint s.unpacker = .ok group) := by
  intro s
  have hagrees := (follows_after services indexed coder unpacker commands).agrees
  cases htable : s.tables[table]? with
  | none =>
    obtain ⟨hread, hlist⟩ : ¬ ReadsVersion table key seq s ∧ ¬ ListsVersion table key seq s :=
      nothing_of_noTable htable seq
    simp [hread, hlist, Store.tableColumns, htable]
  | some state =>
    cases hkey : key.fingerprint s.unpacker with
    | error cause =>
      obtain ⟨hread, hlist⟩ : ¬ ReadsVersion table key seq s ∧ ¬ ListsVersion table key seq s :=
        nothing_of_keyError hkey seq
      simp [hread, hlist]
    | ok group =>
      rw [hagrees.reads_iff htable hkey, hagrees.lists_iff htable hkey]
      simp [Store.tableColumns, htable]

/-- In a table without columns a version is read that nobody has stored. -/
theorem reads_unlisted :
    let s := (after (fun _ => {}) true {} .inRowOnly [.createTable 1 0 {}]).store
    s.tableColumns 1 = some 0 ∧ (StoreM.getVersion 1 .null 1 s).1 = .ok (some #[]) ∧
    (StoreM.history 1 .null s).1 = .ok [] ∧
    ¬ (ReadsVersion 1 .null 1 s ↔ ListsVersion 1 .null 1 s) := by
  intro s
  have hagrees := (follows_after (fun _ => {}) true {} .inRowOnly [.createTable 1 0 {}]).agrees
  have htable : s.tables[(1 : TableId)]? = some ⟨{}, 0⟩ := (hagrees.mirrors.tables 1).trans rfl
  have hkey : Key.null.fingerprint s.unpacker = .ok .zero := rfl
  have hread := (hagrees.runs_getVersion htable hkey 1).eq.1
  have hlist := (hagrees.runs_history htable hkey).eq.1
  refine ⟨?_, hread, hlist, fun hagree => ?_⟩
  · simp only [Store.tableColumns, htable, Option.map_some]
  · obtain ⟨seqs, hseqs, hmem⟩ := hagree.mp ⟨#[], hread⟩
    rw [hlist] at hseqs
    cases hseqs
    cases hmem

end Run

end VersionChain
