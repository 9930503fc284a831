import VersionChain.Proofs.Store.Totals
import VersionChain.Proofs.Store.Computations
import VersionChain.Store.Insert
import VersionChain.Store.Read
import VersionChain.Store.Tables

/-!
# Statistics are bookkeeping

No operation that stores or reads versions looks at the statistics, and none but those that publish
or forget some changes them. Whatever was counted before, such an operation ends with the same
result and leaves the same rows and caches.

* `Ignores` — a computation that has nothing to do with statistics;
* `ignores_insertRow`, `ignores_getColumn`, … — the operations of a store;
* `Ignores.statistics_eq` — they leave the statistics alone;
* `Resembles` — the same store, with statistics that may be kept in another way;
* `Respects` — a computation that cannot tell such stores apart.
-/

namespace VersionChain.StoreM

variable {ρ α β : Type}

/-- With other statistics, the computation ends with the same result and in the same store but for
the statistics, which stay what they are. -/
def Ignores (x : StoreM ρ α) : Prop :=
  ∀ s statistics, x { s with statistics } = ((x s).1, { (x s).2 with statistics })

variable {x : StoreM ρ α} {s s' : Store ρ} {statistics : Statistics}

theorem Ignores.statistics_eq (h : Ignores x) (s : Store ρ) :
    (x s).2.statistics = s.statistics :=
  (congrArg (fun ended => ended.2.statistics) (h s s.statistics) :)

/-- What is known of one store is known of every other one with the same rows and caches. -/
theorem Ignores.eq (h : Ignores x) {result : Except StoreError α} (hx : x s = (result, s'))
    (statistics : Statistics) : x { s with statistics } = (result, { s' with statistics }) := by
  rw [h s statistics, hx]

/-! ## Putting computations together -/

namespace Ignores

theorem pure (a : α) : Ignores (Pure.pure a : StoreM ρ α) := fun _ _ => rfl

theorem throw (e : StoreError) : Ignores (MonadExcept.throw e : StoreM ρ α) := fun _ _ => rfl

theorem bind {f : α → StoreM ρ β} (hx : Ignores x) (hf : ∀ a, Ignores (f a)) :
    Ignores (x >>= f) := by
  intro s statistics
  cases hresult : x s with
  | mk result s' =>
    have hother := hx.eq hresult statistics
    cases result with
    | error e => rw [bind_eq_error hother, bind_eq_error hresult]
    | ok a =>
      rw [bind_eq hother, bind_eq hresult]
      exact hf a s' statistics

/-- Looking at anything but the statistics. -/
theorem get_bind {f : Store ρ → StoreM ρ α} (hf : ∀ s, Ignores (f s))
    (hsame : ∀ s statistics, f { s with statistics } = f s) : Ignores (MonadState.get >>= f) := by
  intro s statistics
  rw [bind_eq (get_eq s), bind_eq (get_eq { s with statistics }), hsame]
  exact hf s s statistics

/-- What is done about a failure has nothing to do with statistics either. -/
theorem caught {handle : StoreError → StoreM ρ α} (hx : Ignores x)
    (hhandle : ∀ e, Ignores (handle e)) : Ignores (tryCatch x handle) := by
  intro s statistics
  cases hresult : x s with
  | mk result s' =>
    have hother := hx.eq hresult statistics
    cases result with
    | ok a => rw [tryCatch_eq hother, tryCatch_eq hresult]
    | error e =>
      rw [tryCatch_eq_error hother, tryCatch_eq_error hresult]
      exact hhandle e s' statistics

end Ignores

/-! ## Access to the parts -/

theorem ignores_sequences (f : SequenceAllocator → α × SequenceAllocator) :
    Ignores (sequences f : StoreM ρ α) := fun _ _ => rfl

theorem ignores_locations (f : LocationIndex → α × LocationIndex) :
    Ignores (locations f : StoreM ρ α) := fun _ _ => rfl

theorem ignores_content (f : ContentCache → α × ContentCache) :
    Ignores (content f : StoreM ρ α) := fun _ _ => rfl

theorem ignores_staging (f : StagingBuffer → α × StagingBuffer) :
    Ignores (staging f : StoreM ρ α) := fun _ _ => rfl

theorem ignores_scheduler (f : Scheduler → α × Scheduler) :
    Ignores (scheduler f : StoreM ρ α) := fun _ _ => rfl

theorem ignores_onRows (activity : RowActivity) (action : RowM ρ α) :
    Ignores (onRows activity action) := fun _ _ => rfl

theorem ignores_fingerprint (key : Key) : Ignores (fingerprint key : StoreM ρ Fingerprint) := by
  refine .get_bind (fun s => ?_) fun _ _ => rfl
  cases key.fingerprint s.unpacker with
  | ok group => exact .pure group
  | error cause => exact .throw _

theorem ignores_tableState (table : TableId) :
    Ignores (tableState table : StoreM ρ TableState) := by
  refine .get_bind (fun s => ?_) fun _ _ => rfl
  cases s.tables[table]? with
  | some state => exact .pure state
  | none => exact .throw _

/-! ## Lists of rows, records and values -/

theorem ignores_recordAll (table : TableId) (seq : Nat) (found : Option StoredRow)
    (rows : List (Location × StoredRow)) :
    Ignores (recordAll table seq found rows : StoreM ρ (Option StoredRow)) := by
  induction rows generalizing found with
  | nil => exact .pure found
  | cons first rest ih => exact .bind (ignores_locations _) fun _ => ih _

theorem ignores_ascend (group : GroupId) (column : Nat) (current : Option Bytes)
    (records : List (Nat × Bytes)) :
    Ignores (ascend group column current records : StoreM ρ (Option Bytes)) := by
  induction records generalizing current with
  | nil => exact .pure current
  | cons first later ih =>
    refine .get_bind (fun s => ?_) fun _ _ => rfl
    cases s.codec.decode (current.getD #[]) first.2 with
    | error cause => exact .throw _
    | ok decoded => exact .bind (ignores_content _) fun _ => ih (some decoded)

theorem ignores_stageColumns (token : Token) (seq column : Nat) (values : List Bytes) :
    Ignores (stageColumns token seq column values : StoreM ρ Unit) := by
  induction values generalizing column with
  | nil => exact .pure _
  | cons value rest ih => exact .bind (ignores_staging _) fun _ => ih (column + 1)

theorem ignores_cacheColumns (v : VersionId) (column : Nat) (values : List Bytes) :
    Ignores (cacheColumns v column values : StoreM ρ Unit) := by
  induction values generalizing column with
  | nil => exact .pure _
  | cons value rest ih => exact .bind (ignores_content _) fun _ => ih (column + 1)

theorem ignores_recordSeqs (table : TableId) (rows : List (Location × StoredRow)) :
    Ignores (recordSeqs table rows : StoreM ρ (List Nat)) := by
  induction rows with
  | nil => exact .pure _
  | cons first rest ih => exact .bind (ignores_locations _) fun _ => .bind ih fun _ => .pure _

/-! ## Stores that cannot be told apart -/

/-- Two stores with the same rows and caches, and with the same statistics of every group. -/
structure Resembles (s s' : Store ρ) : Prop where
  rest : { s with statistics := s'.statistics } = s'
  published : ∀ g, s.statistics.get? g = s'.statistics.get? g

/-- Begun in such stores, the computation ends with the same result and in such stores again. -/
def Respects {ε : Type} (x : ExceptT ε (StateM (Store ρ)) α) : Prop :=
  ∀ s s', Resembles s s' → (x s).1 = (x s').1 ∧ Resembles (x s).2 (x s').2

theorem Resembles.refl (s : Store ρ) : Resembles s s := ⟨rfl, fun _ => rfl⟩

theorem Ignores.respects (h : Ignores x) : Respects x := by
  intro s s' hs
  have hother := h s s'.statistics
  rw [hs.rest] at hother
  rw [hother]
  refine ⟨rfl, rfl, fun g => ?_⟩
  rw [h.statistics_eq]
  exact hs.published g

namespace Respects

variable {ε : Type}

theorem pure (a : α) : Respects (Pure.pure a : ExceptT ε (StateM (Store ρ)) α) :=
  fun _ _ hs => ⟨rfl, hs⟩

theorem throw (e : ε) : Respects (MonadExcept.throw e : ExceptT ε (StateM (Store ρ)) α) :=
  fun _ _ hs => ⟨rfl, hs⟩

/-- Failures may be reported in another way. -/
theorem adapt {ε' : Type} {x : ExceptT ε (StateM (Store ρ)) α} (hx : Respects x) (f : ε → ε') :
    Respects (ExceptT.adapt f x : ExceptT ε' (StateM (Store ρ)) α) := by
  intro s s' hs
  obtain ⟨hresult, hstores⟩ := hx s s' hs
  exact ⟨congrArg (Except.mapError f) hresult, hstores⟩

theorem bind {x : ExceptT ε (StateM (Store ρ)) α} {f : α → ExceptT ε (StateM (Store ρ)) β}
    (hx : Respects x) (hf : ∀ a, Respects (f a)) : Respects (x >>= f) := by
  intro s s' hs
  obtain ⟨hresult, hstores⟩ := hx s s' hs
  show (ExceptT.bindCont f (x s).1 (x s).2).1 = (ExceptT.bindCont f (x s').1 (x s').2).1 ∧
    Resembles (ExceptT.bindCont f (x s).1 (x s).2).2 (ExceptT.bindCont f (x s').1 (x s').2).2
  rw [← hresult]
  cases (x s).1 with
  | error e => exact ⟨rfl, hstores⟩
  | ok a => exact hf a _ _ hstores

/-- Statistics that are the same for every group before a change are so after it. -/
theorem change (f : Statistics → Statistics)
    (hf : ∀ t t', (∀ g, t.get? g = t'.get? g) → ∀ g, (f t).get? g = (f t').get? g) (a : α) :
    Respects (modifyGet fun s => (a, { s with statistics := f s.statistics }) :
      ExceptT ε (StateM (Store ρ)) α) := by
  intro s s' hs
  refine ⟨rfl, ?_, hf _ _ hs.published⟩
  exact congrArg (fun s : Store ρ => { s with statistics := f s'.statistics }) hs.rest

end Respects

/-! ## Rebuilding -/

variable [RowStore ρ]

theorem ignores_findRow (v : VersionId) : Ignores (findRow v : StoreM ρ (Option StoredRow)) := by
  refine .bind (ignores_onRows _ _) fun found => ?_
  cases found with
  | some found => exact .bind (ignores_locations _) fun _ => .pure _
  | none => exact .bind (ignores_onRows _ _) fun rows => ignores_recordAll _ _ _ rows

theorem ignores_locate (v : VersionId) : Ignores (locate v : StoreM ρ (Option StoredRow)) := by
  refine .bind (ignores_locations _) fun cached => ?_
  cases cached with
  | none => exact ignores_findRow v
  | some location =>
    refine .bind (ignores_onRows _ _) fun row => ?_
    cases row with
    | none => exact .bind (ignores_locations _) fun _ => ignores_findRow v
    | some row =>
      simp only
      split
      · exact .pure _
      · exact .bind (ignores_locations _) fun _ => ignores_findRow v

theorem ignores_descend (group : GroupId) (column seq : Nat) (later : List (Nat × Bytes)) :
    Ignores (descend group column seq later : StoreM ρ (Option Chain)) := by
  -- bases are earlier versions
  induction seq using Nat.strongRecOn generalizing later with
  | ind seq ih =>
    rw [descend]
    refine .bind (ignores_content _) fun cached => ?_
    cases cached with
    | some cached => exact .pure _
    | none =>
      refine .bind (ignores_locate ⟨group, seq⟩) fun row => ?_
      cases row.bind (·.columns[column]?) with
      | none => exact .pure none
      | some record =>
        refine .get_bind (fun s => ?_) fun _ _ => rfl
        cases s.codec.tagOf record with
        | error cause => exact .throw _
        | ok tag =>
          simp only
          split
          · exact .pure _
          · split
            · rename_i base hbase
              exact ih base (Tag.baseSeq_lt hbase).1 _
            · exact .pure none

theorem ignores_resolve (v : VersionId) (column : Nat) :
    Ignores (resolve v column : StoreM ρ (Option Bytes)) := by
  unfold resolve
  split
  · exact .pure none
  · refine .bind (ignores_descend _ _ _ _) fun chain => ?_
    cases chain with
    | none => exact .pure none
    | some chain => exact ignores_ascend _ _ _ _

/-! ## Storing -/

theorem ignores_resolveColumns (v : VersionId) (column count : Nat) :
    Ignores (resolveColumns v column count : StoreM ρ (List (Option Bytes))) := by
  induction count generalizing column with
  | zero => exact .pure _
  | succ count ih =>
    exact .bind (ignores_resolve v column) fun _ => .bind (ih (column + 1)) fun _ => .pure _

theorem ignores_warmRows (group : GroupId) (columns seq count : Nat) :
    Ignores (warmRows group columns seq count : StoreM ρ (List StagedRow)) := by
  induction count generalizing seq with
  | zero => exact .pure _
  | succ count ih =>
    exact .bind (ignores_resolveColumns _ _ _) fun _ => .bind (ih (seq + 1)) fun _ => .pure _

theorem ignores_claimSlot (v : VersionId) (depth columns : Nat) :
    Ignores (claimSlot v depth columns : StoreM ρ Token) := by
  refine .bind (ignores_staging _) fun claimed => ?_
  simp only
  split
  · refine .bind (.bind (ignores_warmRows _ _ _ _) fun rows => ?_) fun _ => .pure _
    exact .bind (ignores_staging _) fun _ => .pure _
  · exact .pure _

theorem ignores_missingBases (v : VersionId) (column : Nat) (bases : List RecentBase)
    (distance count : Nat) :
    Ignores (missingBases v column bases distance count : StoreM ρ (List RecentBase)) := by
  induction count generalizing distance with
  | zero => exact .pure _
  | succ count ih =>
    unfold missingBases
    simp only
    split
    · exact ih (distance + 1)
    · refine .bind (ignores_resolve _ _) fun content => ?_
      cases content with
      | none => exact ih (distance + 1)
      | some content => exact .bind (ih (distance + 1)) fun _ => .pure _

theorem ignores_collectBases (v : VersionId) (column depth : Nat) (token : Token) :
    Ignores (collectBases v column depth token : StoreM ρ (List RecentBase)) := by
  refine .bind (ignores_staging _) fun staged => ?_
  split
  · exact .pure _
  · exact .bind (ignores_missingBases _ _ _ _ _) fun _ => .pure _

theorem ignores_encodeColumn (v : VersionId) (column : Nat) (settings : TableSettings)
    (token : Token) (value : Bytes) :
    Ignores (encodeColumn v column settings token value : StoreM ρ TaggedRecord) := by
  refine .get_bind (fun s => ?_) fun _ _ => rfl
  simp only
  split
  · exact .throw _
  · split
    · exact .pure _
    · exact .bind (ignores_collectBases _ _ _ _) fun _ => ignores_scheduler _

theorem ignores_encodeColumns (v : VersionId) (column : Nat) (settings : TableSettings)
    (token : Token) (done : Array TaggedRecord) (values : List Bytes) :
    Ignores (encodeColumns v column settings token done values :
      StoreM ρ (Array TaggedRecord)) := by
  induction values generalizing column done with
  | nil => exact .pure done
  | cons value rest ih =>
    exact .bind (ignores_encodeColumn _ _ _ _ _) fun record => ih (column + 1) (done.push record)

theorem ignores_storeVersion (v : VersionId) (settings : TableSettings) (values : List Bytes) :
    Ignores (storeVersion v settings values : StoreM ρ Outcome) := by
  refine .bind (ignores_claimSlot _ _ _) fun token => ?_
  refine .bind (ignores_encodeColumns _ _ _ _ _ _) fun records => ?_
  refine .bind (ignores_onRows _ _) fun location => ?_
  refine .bind (ignores_stageColumns _ _ _ _) fun _ => .bind (ignores_staging _) fun _ => ?_
  refine .bind (ignores_locations _) fun _ => ?_
  exact .bind (ignores_cacheColumns _ _ _) fun _ => .pure _

theorem ignores_allocateSeq (group : GroupId) : Ignores (allocateSeq group : StoreM ρ Nat) := by
  refine .bind (ignores_sequences _) fun seq => ?_
  split
  · exact .pure seq
  · exact .bind (ignores_onRows _ _) fun _ => ignores_sequences _

/-- A row is stored alike whatever has been counted. -/
theorem ignores_insertRow (table : TableId) (key : Key) (values : List Bytes) :
    Ignores (insertRow table key values : StoreM ρ Outcome) := by
  refine .bind (ignores_fingerprint key) fun group => ?_
  refine .bind (ignores_tableState table) fun state => ?_
  split
  · exact .throw _
  · refine .bind (ignores_allocateSeq _) fun seq => ?_
    refine .caught (ignores_storeVersion _ _ _) fun e => ?_
    exact .bind (ignores_sequences _) fun _ => .throw e

/-! ## Reading -/

theorem ignores_getColumn (table : TableId) (key : Key) (seq column : Nat) :
    Ignores (getColumn table key seq column : StoreM ρ (Option Bytes)) := by
  refine .bind (ignores_tableState table) fun state => ?_
  split
  · exact .bind (ignores_fingerprint key) fun _ => ignores_resolve _ _
  · exact .throw _

theorem ignores_latestSeq (table : TableId) (key : Key) :
    Ignores (latestSeq table key : StoreM ρ (Option Nat)) := by
  refine .bind (ignores_tableState table) fun _ => .bind (ignores_fingerprint key) fun group => ?_
  refine .bind (ignores_sequences _) fun cached => ?_
  cases cached with
  | some seq => exact .pure _
  | none =>
    refine .bind (ignores_onRows _ _) fun stored => ?_
    split
    · exact .pure none
    · exact .bind (ignores_sequences _) fun _ => .pure _

theorem ignores_history (table : TableId) (key : Key) :
    Ignores (history table key : StoreM ρ (List Nat)) := by
  refine .bind (ignores_tableState table) fun _ => .bind (ignores_fingerprint key) fun group => ?_
  refine .bind (ignores_onRows _ _) fun rows => ?_
  exact .bind (ignores_recordSeqs table rows) fun _ => .pure _

/-! ## Publishing and forgetting -/

theorem respects_insert (table : TableId) (key : Key) (values : List Bytes) :
    Respects (insert table key values : StoreM ρ Outcome) := by
  refine .bind (ignores_insertRow table key values).respects fun outcome => ?_
  refine .bind (.change (·.record table outcome) (fun t t' h g => ?_) PUnit.unit) fun _ => ?_
  · rw [Statistics.get?_record, Statistics.get?_record, h]
  · exact .pure outcome

theorem respects_truncate (table : TableId) :
    Respects (truncate table : StoreM ρ Invalidated) := by
  refine .bind (ignores_tableState table).respects fun _ => ?_
  refine .bind (ignores_onRows _ _).respects fun _ => ?_
  refine .bind (.change (·.forgetTable table) (fun t t' h g => ?_) PUnit.unit) fun _ => ?_
  · rw [Statistics.get?_forgetTable, Statistics.get?_forgetTable, h]
  · exact Ignores.respects fun _ _ => rfl

end VersionChain.StoreM
