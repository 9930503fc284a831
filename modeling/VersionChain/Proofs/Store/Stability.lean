import VersionChain.Proofs.Cache.Clients
import VersionChain.Proofs.Staging.Calls
import VersionChain.Proofs.Store.Computations
import VersionChain.Store.Insert
import VersionChain.Store.Read

/-!
# What operations leave alone

Much of what is known of a store does not depend on its caches, or not on where they say that rows
lie. All operations that touch nothing else keep it, whatever their results are and whatever the
codec makes of the records.

* `ReadStable` — a property that reading rows and noting their places does not change;
* `CallStable` — a property that what is cached and staged for certain groups does not change;
* `CacheStable` — a property that what is cached and staged does not change;
* `ReadStable.keeps_locate`, `ReadStable.keeps_history`, … — reads that only note places;
* `CallStable.keeps_resolve`, `CallStable.keeps_encodeColumns`, … — operations that touch no more
  than caches.
-/

namespace VersionChain.StoreM

open MemoryRows

/-- A property of stores that stays when rows are read and their places are noted or forgotten. -/
structure ReadStable (P : Store MemoryRows → Prop) : Prop where
  with_locations : ∀ s (f : LocationIndex → LocationIndex), (∀ x, x.Sound → (f x).Sound) → P s →
    P { s with service := { s.service with locations := f s.service.locations } }
  with_rows : ∀ s rows, Recounted s.rows rows → P s → P { s with rows }

/-- A property of stores that stays whatever is cached and staged for some groups, the scheduler
included. -/
structure CallStable (G : GroupId → Prop) (P : Store MemoryRows → Prop) : Prop extends
    ReadStable P where
  with_lookup : ∀ s (key : ContentKey), G key.toGroupId → P s →
    P { s with service := { s.service with content := (s.service.content.get key).2 } }
  with_put : ∀ s (key : ContentKey) value, G key.toGroupId → P s →
    P { s with service := { s.service with content := (s.service.content.put key value).2 } }
  with_call : ∀ s (command : StagingCommand) g, command.IsFor g → G g → P s →
    P { s with service := { s.service with staging := s.service.staging.perform command } }
  with_scheduler : ∀ s scheduler, P s → P { s with service := { s.service with scheduler } }

/-- A property of stores that stays whatever is cached and staged. -/
structure CacheStable (P : Store MemoryRows → Prop) : Prop extends ReadStable P where
  with_content : ∀ s content, P s → P { s with service := { s.service with content } }
  with_staging : ∀ s staging, P s → P { s with service := { s.service with staging } }
  with_scheduler : ∀ s scheduler, P s → P { s with service := { s.service with scheduler } }

variable {P : Store MemoryRows → Prop} {α : Type}

/-- Whatever is cached, the tables stay what they are. -/
theorem cacheStable_tables (tables : Std.HashMap TableId TableState) :
    CacheStable fun s => s.tables = tables where
  with_locations _ _ _ hs := hs
  with_rows _ _ _ hs := hs
  with_content _ _ hs := hs
  with_staging _ _ hs := hs
  with_scheduler _ _ hs := hs

theorem keeps_tableState (table : TableId) : Keeps (tableState table) P := by
  refine .of_runs fun s hs => ?_
  cases htable : s.tables[table]? with
  | none => exact ⟨_, runs_tableState_error htable hs⟩
  | some state => exact ⟨_, runs_tableState htable hs⟩

theorem keeps_fingerprint (key : Key) : Keeps (fingerprint key) P := by
  refine .of_runs fun s hs => ?_
  cases hkey : key.fingerprint s.unpacker with
  | error cause => exact ⟨_, runs_fingerprint_error hkey hs⟩
  | ok group => exact ⟨_, runs_fingerprint hkey hs⟩

theorem keeps_groupStats (table : TableId) (key : Key) : Keeps (groupStats table key) P :=
  .bind (keeps_fingerprint key) fun _ => .bind .get fun _ => .pure _

/-- Reading a version of a table that there is. -/
theorem ends_getVersion {s : Store MemoryRows} {table : TableId} {key : Key} {seq : Nat} (hs : P s)
    (hread : ∀ state group, s.tables[table]? = some state → key.fingerprint s.unpacker = .ok group →
      P (readColumns ⟨⟨table, group⟩, seq⟩ 0 #[] state.columns s).2) :
    Ends (getVersion table key seq) s fun _ => P := by
  cases htable : s.tables[table]? with
  | none => exact (Runs.bind_error (runs_tableState_error htable hs)).ends fun _ => id
  | some state =>
    refine Ends.bind_of_eq (tableState_eq htable) ?_
    cases hkey : key.fingerprint s.unpacker with
    | error cause => exact (Runs.bind_error (runs_fingerprint_error hkey hs)).ends fun _ => id
    | ok group => exact Ends.bind_of_eq (fingerprint_eq hkey) (hread state group htable hkey)

/-- Reading a column of a table that there is. -/
theorem ends_getColumn {s : Store MemoryRows} {table : TableId} {key : Key} {seq column : Nat}
    (hs : P s)
    (hresolve : ∀ state group, s.tables[table]? = some state → column < state.columns →
      key.fingerprint s.unpacker = .ok group → P (resolve ⟨⟨table, group⟩, seq⟩ column s).2) :
    Ends (getColumn table key seq column) s fun _ => P := by
  cases htable : s.tables[table]? with
  | none => exact (Runs.bind_error (runs_tableState_error htable hs)).ends fun _ => id
  | some state =>
    refine Ends.bind_of_eq (tableState_eq htable) ?_
    split
    · rename_i hcolumn
      cases hkey : key.fingerprint s.unpacker with
      | error cause => exact (Runs.bind_error (runs_fingerprint_error hkey hs)).ends fun _ => id
      | ok group =>
        exact Ends.bind_of_eq (fingerprint_eq hkey) (hresolve state group htable hcolumn hkey)
    · exact hs

/-! ## Reading rows -/

namespace ReadStable

variable (h : ReadStable P)

include h

theorem keeps_locations {f : LocationIndex → α × LocationIndex}
    (hf : ∀ x, x.Sound → (f x).2.Sound) : Keeps (locations f) P :=
  fun s hs => h.with_locations s (fun x => (f x).2) hf hs

theorem keeps_recordLocation (location : Location) (v : VersionId) :
    Keeps (recordLocation location v) P :=
  h.keeps_locations fun _ hx => hx.record location v

/-- Asking the rows. -/
theorem keeps_reading {action : RowM MemoryRows α} (haction : ∀ m, Recounted m (action m).2) :
    Keeps (onRows .reading action) P :=
  fun s hs => h.with_rows s _ (haction s.rows) hs

theorem keeps_recordAll (table : TableId) (seq : Nat) (found : Option StoredRow)
    (rows : List (Location × StoredRow)) : Keeps (recordAll table seq found rows) P := by
  induction rows generalizing found with
  | nil => exact .pure found
  | cons first rest ih => exact .bind (h.keeps_recordLocation _ _) fun _ => ih _

theorem keeps_findRow (v : VersionId) : Keeps (findRow v) P := by
  refine .bind (h.keeps_reading fun m => recounted_find v) fun found => ?_
  cases found with
  | some found => exact .bind (h.keeps_recordLocation _ _) fun _ => .pure _
  | none =>
    refine .bind (h.keeps_reading fun m => recounted_scan v.toGroupId) fun rows => ?_
    exact h.keeps_recordAll _ _ _ _

theorem keeps_locate (v : VersionId) : Keeps (locate v) P := by
  refine .bind (h.keeps_locations fun _ hx => hx.locationOf v) fun cached => ?_
  cases cached with
  | none => exact h.keeps_findRow v
  | some location =>
    have hmissed : Keeps (do
        locations fun x => ((), (x.forgetReverse v).forgetForward ⟨v.table, location⟩)
        findRow v) P :=
      .bind (h.keeps_locations fun _ hx => (hx.forgetReverse v).forgetForward ⟨v.table, location⟩)
        fun _ => h.keeps_findRow v
    refine .bind (h.keeps_reading fun m => recounted_fetch ⟨v.table, location⟩) fun row => ?_
    cases row with
    | none => exact hmissed
    | some row =>
      simp only
      split
      · exact .pure _
      · exact hmissed

theorem runs_recordSeqs {s : Store MemoryRows} (hs : P s) (table : TableId)
    (rows : List (Location × StoredRow)) :
    Runs (recordSeqs table rows) s (.ok (rows.map (·.2.seq))) P := by
  induction rows generalizing s with
  | nil => exact .pure hs
  | cons first rest ih =>
    obtain ⟨location, row⟩ := first
    have hrecord : Runs (recordLocation location ⟨⟨table, row.group⟩, row.seq⟩) s (.ok ()) P :=
      ⟨_, rfl, h.keeps_recordLocation _ _ s hs⟩
    exact Runs.bind hrecord fun s₁ hs₁ => Runs.bind (ih hs₁) fun s₂ hs₂ => .pure hs₂

/-- The history of a group is found in its rows. -/
theorem runs_history {s : Store MemoryRows} (hs : P s) {table : TableId} {key : Key}
    {state : TableState} {group : Fingerprint} (htable : s.tables[table]? = some state)
    (hkey : key.fingerprint s.unpacker = .ok group) :
    Runs (history table key) s
      (.ok ((s.rows.ofGroup ⟨table, group⟩).map (·.2.seq)).mergeSort) P := by
  refine Runs.bind (P := (· = s)) (runs_tableState htable rfl) ?_
  rintro s rfl
  refine Runs.bind (P := (· = s)) (runs_fingerprint hkey rfl) ?_
  rintro s rfl
  have hscan : P { s with rows := (s.rows.scan ⟨table, group⟩).2 } :=
    h.with_rows s _ (recounted_scan ⟨table, group⟩) hs
  refine Runs.bind (runs_onRows rfl hscan) fun s₁ hs₁ => ?_
  exact Runs.bind (h.runs_recordSeqs hs₁ table _) fun s₂ hs₂ => .pure hs₂

theorem keeps_history (table : TableId) (key : Key) : Keeps (history table key) P := by
  refine .bind (keeps_tableState table) fun _ => .bind (keeps_fingerprint key) fun group => ?_
  refine .bind (h.keeps_reading fun m => recounted_scan ⟨table, group⟩) fun rows => ?_
  exact .bind (.of_runs fun s hs => ⟨_, h.runs_recordSeqs hs table rows⟩) fun _ => .pure _

theorem keeps_seqAt (table : TableId) (location : Location) : Keeps (seqAt table location) P := by
  have hfound : ∀ row : StoredRow, Keeps (do
      recordLocation location ⟨⟨table, row.group⟩, row.seq⟩
      return some row.seq) P :=
    fun row => .bind (h.keeps_recordLocation _ _) fun _ => .pure _
  have hforget : Keeps (locations fun x => ((), x.forgetForward ⟨table, location⟩)) P :=
    h.keeps_locations fun _ hx => hx.forgetForward ⟨table, location⟩
  refine .bind (keeps_tableState table) fun _ => ?_
  refine .bind (h.keeps_locations fun _ hx => hx.seqAt ⟨table, location⟩) fun cached => ?_
  refine .bind (h.keeps_reading fun m => recounted_fetch ⟨table, location⟩) fun row => ?_
  cases row with
  | none =>
    split
    · exact .pure cached
    · simp only
      split
      · exact .bind hforget fun _ => .pure none
      · exact .pure none
  | some row =>
    split
    · exact .pure cached
    · simp only
      split
      · exact .bind hforget fun _ => hfound row
      · exact hfound row

end ReadStable

/-! ## Rebuilding and staging -/

namespace CallStable

variable {G : GroupId → Prop} (h : CallStable G P)

include h

theorem keeps_lookup (key : ContentKey) (hkey : G key.toGroupId) :
    Keeps (content (·.get key)) P :=
  fun s hs => h.with_lookup s key hkey hs

theorem keeps_put (key : ContentKey) (hkey : G key.toGroupId) (value : Bytes) :
    Keeps (content (·.put key value)) P :=
  fun s hs => h.with_put s key value hkey hs

theorem keeps_scheduler (f : Scheduler → α × Scheduler) : Keeps (scheduler f) P :=
  fun s hs => h.with_scheduler s _ hs

theorem keeps_descend {group : GroupId} (hgroup : G group) (column seq : Nat)
    (later : List (Nat × Bytes)) : Keeps (descend group column seq later) P := by
  -- bases are earlier versions
  induction seq using Nat.strongRecOn generalizing later with
  | ind seq ih =>
    rw [descend]
    refine .bind (h.keeps_lookup (contentKey ⟨group, seq⟩ column) hgroup) fun cached => ?_
    cases cached with
    | some cached => exact .pure _
    | none =>
      refine .bind (h.keeps_locate ⟨group, seq⟩) fun row => ?_
      cases row.bind (·.columns[column]?) with
      | none => exact .pure none
      | some record =>
        refine .bind .get fun s => ?_
        cases s.codec.tagOf record with
        | error cause => exact .throw _
        | ok tag =>
          simp only
          split
          · exact .pure _
          · split
            · rename_i base hbase
              exact ih base (Tag.baseSeq_lt hbase).1 _
            · exact .pure none

theorem keeps_ascend {group : GroupId} (hgroup : G group) (column : Nat) (current : Option Bytes)
    (records : List (Nat × Bytes)) : Keeps (ascend group column current records) P := by
  induction records generalizing current with
  | nil => exact .pure current
  | cons first later ih =>
    refine .bind .get fun s => ?_
    cases s.codec.decode (current.getD #[]) first.2 with
    | error cause => exact .throw _
    | ok decoded =>
      exact .bind (h.keeps_put (contentKey ⟨group, first.1⟩ column) hgroup decoded)
        fun _ => ih (some decoded)

theorem keeps_resolve {v : VersionId} (hv : G v.toGroupId) (column : Nat) :
    Keeps (resolve v column) P := by
  unfold resolve
  split
  · exact .pure none
  · refine .bind (h.keeps_descend hv _ _ _) fun chain => ?_
    cases chain with
    | none => exact .pure none
    | some chain => exact h.keeps_ascend hv _ _ _

theorem keeps_readColumns {v : VersionId} (hv : G v.toGroupId) (column : Nat) (done : Array Bytes)
    (count : Nat) : Keeps (readColumns v column done count) P := by
  induction count generalizing column done with
  | zero => exact .pure _
  | succ count ih =>
    refine .bind (h.keeps_resolve hv column) fun content => ?_
    cases content with
    | none => exact .pure none
    | some value => exact ih (column + 1) (done.push value)

theorem keeps_resolveColumns {v : VersionId} (hv : G v.toGroupId) (column count : Nat) :
    Keeps (resolveColumns v column count) P := by
  induction count generalizing column with
  | zero => exact .pure _
  | succ count ih =>
    exact .bind (h.keeps_resolve hv column) fun _ => .bind (ih (column + 1)) fun _ => .pure _

theorem keeps_warmRows {group : GroupId} (hgroup : G group) (columns seq count : Nat) :
    Keeps (warmRows group columns seq count) P := by
  induction count generalizing seq with
  | zero => exact .pure _
  | succ count ih =>
    exact .bind (h.keeps_resolveColumns hgroup _ _) fun _ => .bind (ih (seq + 1)) fun _ => .pure _

/-- The slot is claimed for the group of the version. -/
theorem ends_claimSlot {v : VersionId} (hv : G v.toGroupId) (depth columns : Nat)
    {s : Store MemoryRows} (hs : P s) :
    Ends (claimSlot v depth columns) s fun r s' =>
      P s' ∧ ∀ token, r = .ok token → token.owner = v.toGroupId := by
  let claimed := s.service.staging.acquire v.toGroupId depth columns
  have howner : claimed.1.owner = v.toGroupId :=
    StagingBuffer.owner_acquire s.service.staging v.toGroupId depth columns
  have hclaimed : P { s with service := { s.service with staging := claimed.2.2 } } :=
    h.with_call s (.acquire v.toGroupId depth columns) v.toGroupId rfl hv hs
  refine Ends.bind_of_eq (staging_eq _ s) ?_
  show Ends (if claimed.2.1 = true ∧ 1 < v.seq then _ else _) _ _
  split
  · refine Ends.bind (R := fun _ => P) ?_ (fun _ s' hs' => ⟨hs', ?_⟩) fun _ _ hs' => ⟨hs', nofun⟩
    · refine (Keeps.bind (h.keeps_warmRows hv _ _ _) fun rows => ?_).ends hclaimed
      refine .bind (fun s' hs' => ?_) fun _ => .pure _
      exact h.with_call s' (.populate claimed.1 rows) v.toGroupId howner hv hs'
    · rintro token ⟨⟩
      exact howner
  · refine ⟨hclaimed, ?_⟩
    rintro token ⟨⟩
    exact howner

theorem keeps_missingBases {v : VersionId} (hv : G v.toGroupId) (column : Nat)
    (bases : List RecentBase) (distance count : Nat) :
    Keeps (missingBases v column bases distance count) P := by
  induction count generalizing distance with
  | zero => exact .pure _
  | succ count ih =>
    unfold missingBases
    simp only
    split
    · exact ih (distance + 1)
    · refine .bind (h.keeps_resolve (v := ⟨v.toGroupId, v.seq - distance⟩) hv _) fun content => ?_
      cases content with
      | none => exact ih (distance + 1)
      | some content => exact .bind (ih (distance + 1)) fun _ => .pure _

section Tokens

variable {v : VersionId} {token : Token} (hv : G v.toGroupId) (htoken : G token.owner)

include htoken

theorem keeps_push (seq column : Nat) (value : Bytes) :
    Keeps (staging (·.push token seq column value)) P :=
  fun s hs => h.with_call s (.push token seq column value) token.owner rfl htoken hs

theorem keeps_commit (seq : Nat) : Keeps (staging (·.commit token seq)) P :=
  fun s hs => h.with_call s (.commit token seq) token.owner rfl htoken hs

theorem keeps_recentBases (target column limit : Nat) :
    Keeps (staging (·.recentBases token target column limit)) P :=
  fun s hs => h.with_call s (.recentBases token target column limit) token.owner rfl htoken hs

include hv

theorem keeps_collectBases (column depth : Nat) : Keeps (collectBases v column depth token) P := by
  refine .bind (h.keeps_recentBases htoken _ _ _) fun staged => ?_
  split
  · exact .pure _
  · exact .bind (h.keeps_missingBases hv _ _ _ _) fun _ => .pure _

theorem keeps_encodeColumn (column : Nat) (settings : TableSettings) (value : Bytes) :
    Keeps (encodeColumn v column settings token value) P := by
  refine .bind .get fun s => ?_
  simp only
  split
  · exact .throw _
  · split
    · exact .pure _
    · exact .bind (h.keeps_collectBases hv htoken _ _) fun _ => h.keeps_scheduler _

theorem keeps_encodeColumns (column : Nat) (settings : TableSettings) (done : Array TaggedRecord)
    (values : List Bytes) : Keeps (encodeColumns v column settings token done values) P := by
  induction values generalizing column done with
  | nil => exact .pure done
  | cons value rest ih =>
    exact .bind (h.keeps_encodeColumn hv htoken _ _ _) fun record =>
      ih (column + 1) (done.push record)

end Tokens

/-! ## After a row was stored -/

variable {s : Store MemoryRows} (hs : P s)

include hs

theorem runs_stageColumns {token : Token} (htoken : G token.owner) (seq column : Nat)
    (values : List Bytes) : Runs (stageColumns token seq column values) s (.ok ()) P := by
  induction values generalizing s column with
  | nil => exact .pure hs
  | cons value rest ih =>
    exact Runs.bind (runs_staging (h.keeps_push htoken seq column value s hs)) fun s' hs' =>
      ih hs' (column + 1)

theorem runs_cacheColumns {v : VersionId} (hv : G v.toGroupId) (column : Nat)
    (values : List Bytes) : Runs (cacheColumns v column values) s (.ok ()) P := by
  induction values generalizing s column with
  | nil => exact .pure hs
  | cons value rest ih =>
    have hput := h.with_put s (contentKey v column) value hv hs
    exact Runs.bind (runs_content hput) fun s' hs' => ih hs' (column + 1)

/-- Nothing that is left to do once a row is stored can fail. -/
theorem runs_publish {token : Token} (htoken : G token.owner) {v : VersionId}
    (hv : G v.toGroupId) (location : Location) (values : List Bytes) (result : α) :
    Runs (do
      stageColumns token v.seq 0 values
      let _ ← staging (·.commit token v.seq)
      recordLocation location v
      cacheColumns v 0 values
      return result) s (.ok result) P := by
  refine Runs.bind (h.runs_stageColumns hs htoken v.seq 0 values) fun s₁ hs₁ => ?_
  refine Runs.bind (runs_staging (h.keeps_commit htoken v.seq s₁ hs₁)) fun s₂ hs₂ => ?_
  have hrecord : Runs (recordLocation location v) s₂ (.ok ()) P :=
    runs_locations (f := fun x => ((), x.record location v))
      (h.with_locations s₂ (·.record location v) (fun _ hx => hx.record location v) hs₂)
  refine Runs.bind hrecord fun s₃ hs₃ => ?_
  exact Runs.bind (h.runs_cacheColumns hs₃ hv 0 values) fun s₄ hs₄ => .pure hs₄

end CallStable

/-! ## Whatever is cached and staged -/

namespace CacheStable

variable (h : CacheStable P)

include h

/-- It does not matter for which group something is cached or staged. -/
theorem callStable : CallStable (fun _ => True) P where
  toReadStable := h.toReadStable
  with_lookup s _ _ hs := h.with_content s _ hs
  with_put s _ _ _ hs := h.with_content s _ hs
  with_call s _ _ _ _ hs := h.with_staging s _ hs
  with_scheduler := h.with_scheduler

theorem keeps_content (f : ContentCache → α × ContentCache) : Keeps (content f) P :=
  fun s hs => h.with_content s _ hs

theorem keeps_staging (f : StagingBuffer → α × StagingBuffer) : Keeps (staging f) P :=
  fun s hs => h.with_staging s _ hs

theorem keeps_getVersion (table : TableId) (key : Key) (seq : Nat) :
    Keeps (getVersion table key seq) P :=
  fun s hs => ends_getVersion hs fun state _ _ _ =>
    h.callStable.keeps_readColumns trivial 0 #[] state.columns s hs

theorem keeps_getColumn (table : TableId) (key : Key) (seq column : Nat) :
    Keeps (getColumn table key seq column) P :=
  fun s hs => ends_getColumn hs fun _ _ _ _ _ => h.callStable.keeps_resolve trivial column s hs

theorem keeps_claimSlot (v : VersionId) (depth columns : Nat) :
    Keeps (claimSlot v depth columns) P :=
  fun _ hs => (h.callStable.ends_claimSlot (v := v) trivial depth columns hs).1

theorem keeps_encodeColumns (v : VersionId) (column : Nat) (settings : TableSettings)
    (token : Token) (done : Array TaggedRecord) (values : List Bytes) :
    Keeps (encodeColumns v column settings token done values) P :=
  h.callStable.keeps_encodeColumns trivial trivial column settings done values

theorem runs_publish {s : Store MemoryRows} (hs : P s) (token : Token) (v : VersionId)
    (location : Location) (values : List Bytes) (result : α) :
    Runs (do
      stageColumns token v.seq 0 values
      let _ ← staging (·.commit token v.seq)
      recordLocation location v
      cacheColumns v 0 values
      return result) s (.ok result) P :=
  h.callStable.runs_publish hs trivial trivial location values result

end CacheStable

end VersionChain.StoreM
