import VersionChain.Proofs.Cache.Supersession
import VersionChain.Proofs.Store.RowChanges
import VersionChain.Proofs.Store.Runs

/-!
# Columns beyond those of a row

The resolver takes any number for a column, but contents are cached under numbers of 16 bits. No row
has more columns than that. So for a number of 16 bits it gives the content of the column that was
asked for, and nothing where the row has no such column. For a larger number no row has a column,
and yet it may give a content: what is cached for the column with the same last 16 bits.

* `StoreM.resolve_beyond` — where no row has the column;
* `Agrees.runs_resolve`, `Agrees.runs_resolve_beyond` — what the resolver gives in a store that
  agrees with a ledger;
* `Run.cached_insert` — an insert leaves the content of the last column in the cache;
* `Request`, `Run.served` — runs that go to the resolver as well;
* `Run.Holds` — what a stored version has in a column;
* `Run.resolves_columns` — what the resolver gives throughout such a run;
* `Run.resolves_column_beyond` — a content that it gives for a column that no row has.
-/

namespace VersionChain

open StoreM MemoryRows

/-- Contents are cached for the last 16 bits of a column. -/
theorem says_contentKey_mod {contents : Histories} {g : GroupId} {seq column : Nat}
    {value : Bytes} : Says contents (contentKey ⟨g, seq⟩ column) value ↔
      contentAt (contents g) seq (column % 65536) = some value := by
  unfold Says contentKey
  rw [UInt16.toNat_ofNat']

/-! ## Columns that no row has -/

section Beyond

variable {P : ContentKey → Bytes → Prop} {s : Store MemoryRows} {g : GroupId} {column : Nat}
  {lookup : Nat → Option StoredRow}

/-- Where the row of a version has no such column, the content is what is cached, and nothing
else. -/
theorem StoreM.resolve_beyond (hserves : s.service.content.Serves P)
    (hfinds : Finds s.rows g lookup) {seq : Nat} (hseq : 0 < seq)
    (hbeyond : (lookup seq).bind (·.columns[column]?) = none) :
    Runs (resolve ⟨g, seq⟩ column) s
      (.ok (s.service.content.get (contentKey ⟨g, seq⟩ column)).1) (Quiet P s) := by
  obtain ⟨s₁, hread, hs₁⟩ := runs_content_get hserves (contentKey ⟨g, seq⟩ column)
  unfold resolve
  rw [if_neg (Nat.ne_of_gt hseq)]
  cases hcached : (s.service.content.get (contentKey ⟨g, seq⟩ column)).1 with
  | some cached =>
    have hdescend : descend g column seq [] s = (.ok (some ⟨some cached, []⟩), s₁) := by
      rw [descend, bind_eq hread, hcached]
      rfl
    rw [Runs, bind_eq hdescend]
    exact ⟨s₁, rfl, hs₁⟩
  | none =>
    obtain ⟨s₂, hlocate, hs₂⟩ := runs_locate (v := ⟨g, seq⟩) hs₁.serves (hfinds.congr hs₁.rows)
    have hdescend : descend g column seq [] s = (.ok none, s₂) := by
      rw [descend, bind_eq hread, hcached]
      dsimp only
      rw [bind_eq hlocate, hbeyond]
      rfl
    rw [Runs, bind_eq hdescend]
    exact ⟨s₂, rfl, hs₁.trans hs₂⟩

end Beyond

section State

variable {s : Store MemoryRows} {l : Ledger} {latest : GroupId → Nat} {column : Nat}

theorem Represented.size_le {history : List (List Bytes)} {columns seq : Nat} {row : StoredRow}
    (h : Represented history seq row) (hfull : Full history columns) :
    row.columns.size ≤ columns := by
  by_contra hwide
  -- the last column would have a content
  have hlt : row.columns.size - 1 < row.columns.size := by omega
  obtain ⟨value, hvalue, -⟩ := rebuilds_iff.mp ((h _).2 _ (Array.getElem?_eq_getElem hlt))
  cases seq with
  | zero => cases hvalue
  | succ seq =>
    obtain ⟨values, hvalues, hcolumn⟩ := Option.bind_eq_some_iff.mp hvalue
    have hlength := (hfull values (List.mem_of_getElem? hvalues)).1
    have := (List.getElem?_eq_some_iff.mp hcolumn).1
    omega

/-- No row has more columns than a table can have. -/
theorem Mirrors.columns_le (h : Mirrors s l) {v : VersionId} {row : StoredRow}
    (hrow : s.rows.stored v = some row) : row.columns.size ≤ maxColumns := by
  have hfiled := h.legible.filed v.toGroupId
  cases htable : l.tables v.table with
  | none =>
    have hseq := (hfiled.stored v.seq).mp ⟨row, hrow⟩
    rw [h.sound.absent v.toGroupId htable] at hseq
    simp at hseq
    omega
  | some state =>
    have hrepresented := hfiled.row v.seq row hrow
    exact Nat.le_trans (hrepresented.size_le (h.sound.full v.toGroupId state htable))
      (h.sound.narrow v.table state htable)

/-- The content of a column that a row can have. -/
theorem Agrees.runs_resolve (h : Agrees s l latest) (v : VersionId) (hcolumn : column < 65536) :
    Runs (resolve v column) s (.ok (contentAt (l.histories v.toGroupId) v.seq column))
      (Calm l.histories s) :=
  (h.mirrors.legible.forGroup v.toGroupId).runs_resolve v.seq hcolumn

/-- For a column that no row can have, what is cached for the column with the same number. -/
theorem Agrees.runs_resolve_beyond (h : Agrees s l latest) (v : VersionId)
    (hcolumn : 65536 ≤ column) : Runs (resolve v column) s
      (.ok (s.service.content.get (contentKey v column)).1) (Calm l.histories s) := by
  have hserves := h.mirrors.legible.serves
  cases hseq : v.seq with
  | zero =>
    have hnone : (s.service.content.get (contentKey v column)).1 = none := by
      cases hcached : (s.service.content.get (contentKey v column)).1 with
      | none => rfl
      | some value =>
        -- there is no version 0
        have hsays := (hserves.get _).1 value hcached
        unfold Says contentKey at hsays
        simp only [hseq] at hsays
        cases hsays
    rw [hnone]
    refine ⟨s, ?_, quiet_refl hserves⟩
    unfold resolve
    rw [if_pos hseq]
    rfl
  | succ seq =>
    have hfinds := finds_stored h.mirrors.legible.valid v.toGroupId
    refine resolve_beyond hserves hfinds (hseq ▸ Nat.succ_pos seq) ?_
    cases hrow : s.rows.stored v with
    | none => rfl
    | some row =>
      have hle := h.mirrors.columns_le hrow
      unfold maxColumns at hle
      exact Array.getElem?_eq_none (by omega)

theorem keeps_resolve (l : Ledger) (v : VersionId) (column : Nat) :
    Keeps (resolve v column) (Agreeing l) := by
  intro s hs
  rcases Nat.lt_or_ge column 65536 with hcolumn | hcolumn
  · obtain ⟨s', hrun, hcalm⟩ := hs.runs_resolve v hcolumn
    rw [hrun]
    exact hs.calm hcalm
  · obtain ⟨s', hrun, hcalm⟩ := hs.runs_resolve_beyond v hcolumn
    rw [hrun]
    exact hs.calm hcalm

/-- What is cached for a column is a content of the version. -/
theorem Agrees.contentAt_of_cached (h : Agrees s l latest) {v : VersionId} {value : Bytes}
    (hcached : (s.service.content.get (contentKey v column)).1 = some value) :
    contentAt (l.histories v.toGroupId) v.seq (column % 65536) = some value :=
  says_contentKey_mod.mp ((h.mirrors.legible.serves.get _).1 value hcached)

end State

/-! ## What an insert leaves in the cache -/

namespace StoreM

open ContentCache

/-- The content cache accounts for its values, within these bounds. -/
def Accounts (capacity byteBudget maxEntry : Nat) (s : Store MemoryRows) : Prop :=
  s.service.content.Accounted capacity byteBudget maxEntry

variable {capacity byteBudget maxEntry : Nat} {s : Store MemoryRows} {value : Bytes}

theorem callStable_accounts :
    CallStable (fun _ => True) (Accounts capacity byteBudget maxEntry) where
  with_locations _ _ _ hs := hs
  with_rows _ _ _ hs := hs
  with_lookup _ key _ hs := hs.get key
  with_put _ key value _ hs := (hs.put key value).2
  with_call _ _ _ _ _ hs := hs
  with_scheduler _ _ hs := hs

theorem keeps_createTable_accounts (table : TableId) (columns : Nat) (settings : TableSettings) :
    Keeps (createTable table columns settings : StoreM MemoryRows Unit)
      (Accounts capacity byteBudget maxEntry) := by
  intro s hs
  by_cases hcond : settings.validate = .ok () ∧ columns ≤ maxColumns ∧ s.tables[table]? = none
  · obtain ⟨hvalid, hnarrow, hnew⟩ := hcond
    rw [createTable_eq hvalid hnarrow hnew]
    exact hs.invalidate table
  · obtain ⟨cause, heq⟩ := createTable_eq_error hcond
    rw [heq]
    exact hs

theorem keeps_allocateSeq_accounts (g : GroupId) :
    Keeps (allocateSeq g) (Accounts capacity byteBudget maxEntry) := by
  refine .bind (fun _ hs => hs) fun seq => ?_
  split
  · exact .pure seq
  · exact .bind (fun _ hs => hs) fun stored => fun _ hs => hs

/-- The content of the last column is cached last. -/
theorem Accounts.runs_cacheColumns (h : Accounts capacity byteBudget maxEntry s) (v : VersionId)
    (column : Nat) (earlier : List Bytes) (hadmits : Admits capacity byteBudget maxEntry value) :
    Runs (cacheColumns v column (earlier ++ [value])) s (.ok ()) fun s' =>
      (s'.service.content.get (contentKey v (column + earlier.length))).1 = some value := by
  induction earlier generalizing s column with
  | nil => exact Runs.bind (runs_content (h.get_put _ hadmits)) fun s' hs' => .pure hs'
  | cons first rest ih =>
    have hput := callStable_accounts.with_put s (contentKey v column) first trivial h
    refine Runs.bind (runs_content hput) fun s' hs' => ?_
    rw [List.length_cons, Nat.add_comm rest.length 1, ← Nat.add_assoc]
    exact ih hs' (column + 1)

theorem Accounts.runs_publish (h : Accounts capacity byteBudget maxEntry s) (token : Token)
    (v : VersionId) (location : Location) (earlier : List Bytes)
    (hadmits : Admits capacity byteBudget maxEntry value) (outcome : Outcome) :
    Runs (do
      stageColumns token v.seq 0 (earlier ++ [value])
      let _ ← staging (·.commit token v.seq)
      recordLocation location v
      cacheColumns v 0 (earlier ++ [value])
      return outcome) s (.ok outcome) fun s' =>
        (s'.service.content.get (contentKey v earlier.length)).1 = some value := by
  have hstable : CallStable _ (Accounts capacity byteBudget maxEntry) := callStable_accounts
  refine Runs.bind (hstable.runs_stageColumns h trivial v.seq 0 _) fun s₁ h₁ => ?_
  refine Runs.bind (runs_staging (hstable.keeps_commit trivial v.seq s₁ h₁)) fun s₂ h₂ => ?_
  have hrecord : Runs (recordLocation location v) s₂ (.ok ())
      (Accounts capacity byteBudget maxEntry) :=
    runs_locations (f := fun x => ((), x.record location v)) h₂
  refine Runs.bind hrecord fun s₃ h₃ => ?_
  have hcached := h₃.runs_cacheColumns v 0 earlier hadmits
  rw [Nat.zero_add] at hcached
  exact Runs.bind hcached fun s₄ h₄ => .pure h₄

/-- The content of the last column of what was stored is cached. -/
def CachesLast (table : TableId) (column : Nat) (value : Bytes) :
    Except StoreError Outcome → Store MemoryRows → Prop
  | .ok outcome, s =>
    (s.service.content.get (contentKey ⟨⟨table, outcome.group⟩, outcome.seq⟩ column)).1 = some value
  | .error _, _ => True

theorem Accounts.ends_storeVersion (h : Accounts capacity byteBudget maxEntry s) (v : VersionId)
    (settings : TableSettings) (earlier : List Bytes)
    (hadmits : Admits capacity byteBudget maxEntry value) :
    Ends (storeVersion v settings (earlier ++ [value])) s
      (CachesLast v.table earlier.length value) := by
  have hstable : CallStable _ (Accounts capacity byteBudget maxEntry) := callStable_accounts
  refine Ends.bind (hstable.ends_claimSlot (v := v) trivial _ _ h) (fun token s₁ h₁ => ?_)
    fun _ _ _ => trivial
  refine Ends.bind ((hstable.keeps_encodeColumns trivial trivial _ _ _ _).ends h₁.1)
    (fun records s₂ h₂ => ?_) fun _ _ _ => trivial
  refine Ends.bind (R := fun _ => Accounts capacity byteBudget maxEntry) h₂
    (fun location s₃ h₃ => ?_) fun _ _ _ => trivial
  exact (h₃.runs_publish token v location earlier hadmits _).ends fun _ hs => hs

theorem Accounts.ends_insertRow (h : Accounts capacity byteBudget maxEntry s) (table : TableId)
    (key : Key) (earlier : List Bytes) (hadmits : Admits capacity byteBudget maxEntry value) :
    Ends (insertRow table key (earlier ++ [value])) s
      (CachesLast table earlier.length value) := by
  refine Ends.bind ((keeps_fingerprint key).ends h) (fun group s₁ h₁ => ?_) fun _ _ _ => trivial
  refine Ends.bind ((keeps_tableState table).ends h₁) (fun state s₂ h₂ => ?_) fun _ _ _ => trivial
  split
  · exact trivial
  · refine Ends.bind ((keeps_allocateSeq_accounts _).ends h₂) (fun seq s₃ h₃ => ?_)
      fun _ _ _ => trivial
    refine Ends.caught (h₃.ends_storeVersion ⟨⟨table, group⟩, seq⟩ _ earlier hadmits)
      (fun _ _ hs => hs) fun e s₄ _ => ?_
    exact trivial

end StoreM

/-- A value that is short enough is cached once it was stored in the last column. -/
theorem Run.cached_insert {capacity byteBudget maxEntry : Nat} {r : Run} {value : Bytes}
    (h : Accounts capacity byteBudget maxEntry r.store)
    (hadmits : ContentCache.Admits capacity byteBudget maxEntry value) (transaction : Option Nat)
    (table : TableId) (key : Key) (earlier : List Bytes) :
    CachesLast table earlier.length value (r.insert transaction table key (earlier ++ [value])).1
      (r.insert transaction table key (earlier ++ [value])).2.store :=
  (insert_spec (h.ends_insertRow table key earlier hadmits)
    (fun result _ _ hs => by cases result <;> exact hs) transaction).1

/-! ## Runs -/

/-- What can be asked of a store and of its resolver. -/
inductive Request where
  | command (command : Command)
  /-- The content of a column, whatever its number. -/
  | resolve (v : VersionId) (column : Nat)

namespace Run

/-- Does what is asked. -/
def serve (services : Nat → ServiceSettings) (r : Run) : Request → Run
  | .command command => r.step services command
  | .resolve v column => r.perform (StoreM.resolve v column)

/-- A run from the start that goes to the resolver as well. -/
def served (services : Nat → ServiceSettings) (indexed : Bool) (coder : DiffCoder)
    (unpacker : Unpacker) (requests : List Request) : Run :=
  requests.foldl (serve services) (start services indexed coder unpacker)

/-- The row of a version has a column of this number, and this is the content of it. -/
def Holds (r : Run) (v : VersionId) (column : Nat) (value : Bytes) : Prop :=
  ∃ row, r.store.rows.live? v = some row ∧ column < row.columns.size ∧
    contentAt (r.log v.toGroupId) v.seq column = some value

end Run

theorem exists_follows_served (services : Nat → ServiceSettings) (indexed : Bool)
    (coder : DiffCoder) (unpacker : Unpacker) (requests : List Request) :
    ∃ l, Follows (.served services indexed coder unpacker requests) l := by
  unfold Run.served
  induction requests using List.reverseRecOn with
  | nil => exact ⟨_, follows_after services indexed coder unpacker []⟩
  | append_singleton earlier request ih =>
    obtain ⟨l, hfollows⟩ := ih
    rw [List.foldl_append]
    cases request with
    | command command => exact ⟨_, hfollows.step services command⟩
    | resolve v column => exact ⟨l, hfollows.perform (keeps_resolve l v column)⟩

/-- The contents of a version are those in the columns of its row. -/
theorem Follows.holds_iff {r : Run} {l : Ledger} (h : Follows r l) {v : VersionId} {column : Nat}
    {value : Bytes} : r.Holds v column value ↔
      contentAt (l.histories v.toGroupId) v.seq column = some value := by
  unfold Run.Holds
  rw [show r.log = _ from h.log, h.agrees.mirrors.legible.valid.live?_eq]
  constructor
  · rintro ⟨row, -, -, hvalue⟩
    exact hvalue
  · intro hvalue
    have hfiled := h.agrees.mirrors.legible.filed v.toGroupId
    obtain ⟨row, hrow⟩ := (hfiled.stored v.seq).mpr (seq_of_contentAt hvalue)
    refine ⟨row, hrow, ?_, hvalue⟩
    by_contra hwide
    have hnone := (hfiled.row v.seq row hrow column).1
      (Array.getElem?_eq_none (Nat.le_of_not_lt hwide))
    rw [hnone] at hvalue
    cases hvalue

/-- No row has a column with a number of more than 16 bits. -/
theorem Follows.not_holds {r : Run} {l : Ledger} (h : Follows r l) {v : VersionId} {column : Nat}
    (hcolumn : 65536 ≤ column) (value : Bytes) : ¬ r.Holds v column value := by
  rintro ⟨row, hrow, hwide, -⟩
  rw [h.agrees.mirrors.legible.valid.live?_eq] at hrow
  have hle := h.agrees.mirrors.columns_le hrow
  unfold maxColumns at hle
  omega

namespace Run

/-- Throughout a run, the resolver gives the content of the column that is asked for, if the row of
the version has it, and nothing otherwise; but for a number that no column can have it gives what is
cached for the column with the same last 16 bits. -/
theorem resolves_columns (services : Nat → ServiceSettings) (indexed : Bool) (coder : DiffCoder)
    (unpacker : Unpacker) (requests : List Request) (v : VersionId) (column : Nat) :
    let r := served services indexed coder unpacker requests
    ∃ answer, (StoreM.resolve v column r.store).1 = .ok answer ∧
      (column < 65536 → ∀ value, answer = some value ↔ r.Holds v column value) ∧
      (65536 ≤ column → (∀ value, ¬ r.Holds v column value) ∧
        answer = (r.store.service.content.get (contentKey v column)).1 ∧
        ∀ value, answer = some value → r.Holds v (column % 65536) value) := by
  intro r
  obtain ⟨l, hfollows⟩ := exists_follows_served services indexed coder unpacker requests
  have hagrees : Agrees r.store l l.latest := hfollows.agrees
  have hholds {column : Nat} {value : Bytes} : r.Holds v column value ↔
      contentAt (l.histories v.toGroupId) v.seq column = some value := hfollows.holds_iff
  rcases Nat.lt_or_ge column 65536 with hcolumn | hcolumn
  · refine ⟨_, (hagrees.runs_resolve v hcolumn).eq.1, fun _ value => hholds.symm, fun hbeyond => ?_⟩
    exact absurd hcolumn (Nat.not_lt.mpr hbeyond)
  · refine ⟨_, (hagrees.runs_resolve_beyond v hcolumn).eq.1, fun hwithin => ?_,
      fun _ => ⟨hfollows.not_holds hcolumn, rfl, fun value hcached => ?_⟩⟩
    · exact absurd hwithin (Nat.not_lt.mpr hcolumn)
    · exact hholds.mpr (hagrees.contentAt_of_cached hcached)

/-- A version has one column, and for the column 65536 its content is given. -/
theorem resolves_column_beyond :
    let r := served (fun _ => {}) true {} .inRowOnly
      [.command (.createTable 1 1 {}), .command (.insert none 1 .null [#[97, 98, 99]])]
    let v : VersionId := ⟨⟨1, .zero⟩, 1⟩
    r.Holds v 0 #[97, 98, 99] ∧ (∀ value, ¬ r.Holds v 65536 value) ∧
    (StoreM.resolve v 65536 r.store).1 = .ok (some #[97, 98, 99]) := by
  intro r v
  let earlier : Run := after (fun _ => {}) true {} .inRowOnly [.createTable 1 1 {}]
  have hearlier : Follows earlier _ := follows_after (fun _ => {}) true {} .inRowOnly
    [.createTable 1 1 {}]
  obtain ⟨hresult, hfollows⟩ := hearlier.insert none 1 .null [#[97, 98, 99]]
  have hcached : (r.store.service.content.get (contentKey v 65536)).1 = some #[97, 98, 99] := by
    have haccounts : Accounts (capacityForBudget 64 ContentCache.entryBytes)
        (min (64 * mebibyte) maxCount) mebibyte earlier.store :=
      keeps_createTable_accounts 1 1 {} _ (ContentCache.Accounted.init _ _ _)
    have hadmits : ContentCache.Admits (capacityForBudget 64 ContentCache.entryBytes)
        (min (64 * mebibyte) maxCount) mebibyte #[97, 98, 99] := by decide
    have hlast := cached_insert haccounts hadmits none 1 .null []
    rw [List.nil_append, hresult] at hlast
    exact hlast
  have hbeyond : 65536 ≤ 65536 := Nat.le_refl _
  refine ⟨hfollows.holds_iff.mpr rfl, hfollows.not_holds hbeyond, ?_⟩
  rw [← hcached]
  exact (hfollows.agrees.runs_resolve_beyond v hbeyond).eq.1

end Run

end VersionChain
