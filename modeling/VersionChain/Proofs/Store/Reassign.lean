import VersionChain.Proofs.Store.Assigned
import VersionChain.Proofs.Store.Ledger

/-!
# Inserting where rows are missing

An insert gets a number beyond all rows that are left. If the number was given out before, it stands
for the new contents from now on; the caches must not know those that it stood for until then.

* `Forgotten` — the caches know nothing of a version;
* `Remembers` — all that a store remembers goes by what the numbers were assigned;
* `Honors.ends_publish`, `Honors.ends_storeVersion` — an insert once its row is stored, and once its
  number is given out;
* `Remembers.ends_insertRow` — a whole insert.
-/

namespace VersionChain

open StoreM MemoryRows

/-- Nothing is left of a version in the caches: none of its contents is cached, and no version from
it on is staged for its group. -/
def Forgotten (s : Store MemoryRows) (v : VersionId) : Prop :=
  (∀ column, (s.service.content.get ⟨v, column⟩).1 = none) ∧
  ∀ ring, s.service.staging.ringFor v.toGroupId = some ring →
    ∀ (pos : Nat) row, ring.region.rows[pos]? = some row → row.seq < v.seq

/-- All that a store remembers goes by what the numbers were assigned. The numbers that were assigned
for a group are those from 1 up to the largest one that was given out. -/
structure Remembers (assigned : Assigned) (issued : GroupId → Nat) (s : Store MemoryRows) :
    Prop where
  honors : Honors assigned s
  rings : s.service.staging.Rings (contentOf assigned) issued
  numbered : Numbered issued s
  gapless : ∀ v, (assigned v).isSome ↔ 1 ≤ v.seq ∧ v.seq ≤ issued v.toGroupId
  valid : ∀ (table : TableId) state, s.tables[table]? = some state →
    state.settings.validate = .ok () ∧ state.columns ≤ maxColumns
  fits : ∀ v values, assigned v = some values →
    ∃ state, s.tables[v.table]? = some state ∧ values.length = state.columns

variable {assigned assigned' : Assigned} {issued bound : GroupId → Nat} {s s' : Store MemoryRows}
  {g : GroupId} {v : VersionId} {seq column : Nat} {values : List Bytes}
  {settings : TableSettings}

/-! ## Giving out a number anew -/

theorem contentOf_update (assigned : Assigned) (v : VersionId) (values : Option (List Bytes))
    (g : GroupId) (seq column : Nat) :
    contentOf (Function.update assigned v values) g seq column =
      if ⟨g, seq⟩ = v then values.bind (·[column]?) else contentOf assigned g seq column := by
  unfold contentOf
  by_cases h : (⟨g, seq⟩ : VersionId) = v
  · rw [h, Function.update_self, if_pos rfl]
  · rw [Function.update_of_ne h, if_neg h]

/-- A number that was not assigned says nothing yet. -/
theorem contentOf_update_of_none (h : assigned v = none) (values : Option (List Bytes)) {g : GroupId}
    {seq column : Nat} {value : Bytes} (hvalue : contentOf assigned g seq column = some value) :
    contentOf (Function.update assigned v values) g seq column = some value := by
  rw [contentOf_update, if_neg]
  · exact hvalue
  · rintro rfl
    unfold contentOf at hvalue
    rw [h] at hvalue
    cases hvalue

/-- Without a number, less is said. -/
theorem contentOf_update_none {value : Bytes}
    (h : contentOf (Function.update assigned v none) g seq column = some value) :
    contentOf assigned g seq column = some value := by
  rw [contentOf_update] at h
  split at h
  · cases h
  · exact h

/-- What goes by some of the numbers goes by all of them. -/
theorem Honors.mono (h : Honors assigned s)
    (hcontent : ∀ g seq column value, contentOf assigned g seq column = some value →
      contentOf assigned' g seq column = some value)
    (hshort : ∀ v values, assigned' v = some values →
      ∀ value ∈ values, value.size < Diff.lengthLimit) : Honors assigned' s where
  coder := h.coder
  valid := h.valid
  rows v row hrow := (h.rows v row hrow).imp fun seq column value _ =>
    hcontent v.toGroupId seq column value
  serves := h.serves.imp fun key value => hcontent key.toGroupId key.seq key.column.toNat value
  short := hshort

/-- Rows may be missing, and be put away and counted differently. -/
theorem Honors.with_rows (h : Honors assigned s) {rows : MemoryRows} (hvalid : rows.Valid)
    (hstored : ∀ v row, rows.stored v = some row → s.rows.stored v = some row) :
    Honors assigned { s with rows } :=
  ⟨h.coder, hvalid, fun v row hrow => h.rows v row (hstored v row hrow), h.serves, h.short⟩

/-- If nothing is left of a version, its number says nothing any more. -/
theorem Honors.forget (h : Honors assigned s) (hgranted : Granted issued v.toGroupId v.seq s)
    (hforgotten : Forgotten s v) : Honors (Function.update assigned v none) s where
  coder := h.coder
  valid := h.valid
  rows w row hrow := by
    -- the rows that are left have smaller numbers
    refine (h.rows w row hrow).imp fun seq column value hseq hvalue => ?_
    rw [contentOf_update, if_neg]
    · exact hvalue
    · rintro rfl
      have hlt : w.seq < seq := hgranted.new w.seq row hrow
      omega
  serves := by
    refine ⟨h.serves.wellFormed, fun key value hholds => ?_⟩
    unfold Recorded
    rw [contentOf_update, if_neg]
    · exact h.serves.holds key value hholds
    · intro heq
      have hkey : key = ⟨v, key.column⟩ := by rw [← heq]
      rw [hkey] at hholds
      exact h.serves.not_holds_of_get (hforgotten.1 key.column) value hholds
  short w values hvalues := by
    by_cases hw : w = v
    · rw [hw, Function.update_self] at hvalues
      cases hvalues
    · rw [Function.update_of_ne hw] at hvalues
      exact h.short w values hvalues

theorem rings_forget {b : StagingBuffer} (h : b.Rings (contentOf assigned) issued)
    (hforgotten : ∀ ring, b.ringFor v.toGroupId = some ring →
      ∀ (pos : Nat) row, ring.region.rows[pos]? = some row → row.seq < v.seq) :
    b.Rings (contentOf (Function.update assigned v none))
      (Function.update issued v.toGroupId (v.seq - 1)) where
  valid := h.valid
  records g ring hring := by
    have hrecords := h.records g ring hring
    have hkept : ∀ {seq column value}, (g = v.toGroupId → seq < v.seq) →
        contentOf assigned g seq column = some value →
          contentOf (Function.update assigned v none) g seq column = some value := by
      intro seq column value hseq hvalue
      rw [contentOf_update, if_neg]
      · exact hvalue
      · rintro rfl
        exact absurd (hseq rfl) (Nat.lt_irrefl _)
    have hbefore : ∀ (pos : Nat) row, ring.region.rows[pos]? = some row →
        g = v.toGroupId → row.seq < v.seq := by
      rintro pos row hrow rfl
      exact hforgotten ring hring pos row hrow
    refine ⟨hrecords.cursor, fun pos row hrow column value hcell => ?_, hrecords.positive,
      fun pos row hrow hcommitted => ?_, hrecords.once⟩
    · exact hkept (hbefore pos row hrow) (hrecords.cells pos row hrow column value hcell)
    · by_cases hg : g = v.toGroupId
      · have hlt := hbefore pos row hrow hg
        rw [hg, Function.update_self]
        omega
      · rw [Function.update_of_ne hg]
        exact hrecords.le_latest pos row hrow hcommitted

/-! ## Inserting -/

/-- The largest number of each group once a version is stored. -/
def issuedWith (issued : GroupId → Nat) (v : VersionId) : GroupId → Nat :=
  Function.update issued v.toGroupId (max (issued v.toGroupId) v.seq)

theorem issuedWith_self (issued : GroupId → Nat) (v : VersionId) :
    issuedWith issued v v.toGroupId = max (issued v.toGroupId) v.seq := Function.update_self _ _ _

theorem issuedWith_of_ne (hg : g ≠ v.toGroupId) : issuedWith issued v g = issued g :=
  Function.update_of_ne hg _ _

/-- With its version stored, the number is one that was given out. -/
theorem Granted.push_issuedWith (h : Granted issued v.toGroupId v.seq s) {rows : MemoryRows}
    {row : StoredRow} (hvalid : rows.Valid)
    (hstored : ∀ w, rows.stored w = if w = v then some row else s.rows.stored w) :
    Numbered (issuedWith issued v) { s with rows } := by
  refine h.push hvalid hstored (fun other hother => issuedWith_of_ne hother) ?_ ?_
  · rw [issuedWith_self]
    exact Nat.le_max_left _ _
  · rw [issuedWith_self]
    exact Nat.le_max_right _ _

/-- The version was stored, and its number stands for its contents if it stood for nothing before;
or nothing differs but caches. -/
def Reassigned (assigned : Assigned) (bound issued : GroupId → Nat) (v : VersionId)
    (values : List Bytes) : Except StoreError Outcome → Store MemoryRows → Prop
  | .ok outcome, s => outcome.group = v.group ∧ outcome.seq = v.seq ∧
    (assigned v = none → bound v.toGroupId < v.seq →
      Honors (Function.update assigned v (some values)) s ∧
      s.service.staging.Rings (contentOf (Function.update assigned v (some values)))
        (Function.update bound v.toGroupId v.seq) ∧
      Numbered (issuedWith issued v) s)
  | .error _, s => Honors assigned s ∧ s.service.staging.Rings (contentOf assigned) bound ∧
    Granted issued v.toGroupId v.seq s

/-- A row of records that lead back to the values goes by them. -/
theorem restoresRow_update (assigned : Assigned) (v : VersionId) {values : List Bytes}
    {records : List TaggedRecord}
    (hrecords : ∀ (k : Nat) record, records[k]? = some record →
      ∃ value, values[k]? = some value ∧
        Restores (contentOf assigned v.toGroupId · (0 + k)) v.seq record.bytes value) :
    RestoresRow (Function.update assigned v (some values)) v
      ⟨v.group, v.seq, (#[] ++ records.toArray).map TaggedRecord.bytes⟩ := by
  intro column bytes hbytes
  have hmapped : (records[column]?).map TaggedRecord.bytes = some bytes := by simpa using hbytes
  obtain ⟨record, hrecord, rfl⟩ := Option.map_eq_some_iff.mp hmapped
  obtain ⟨value, hvalue, hrestores⟩ := hrecords column record hrecord
  rw [Nat.zero_add] at hrestores
  refine ⟨value, ?_, hrestores.imp fun earlier base hearlier hbase => ?_⟩
  · rw [contentOf_update, if_pos rfl]
    exact hvalue
  · -- bases are earlier versions
    rw [contentOf_update, if_neg]
    · exact hbase
    · intro heq
      exact absurd (congrArg VersionId.seq heq) (Nat.ne_of_lt hearlier)

/-- Storing the row of a version whose number stands for nothing yet. -/
theorem Honors.push (h : Honors assigned s) (hnone : assigned v = none)
    (hshort : ∀ value ∈ values, value.size < Diff.lengthLimit)
    {rows : MemoryRows} {row : StoredRow} (hvalid : rows.Valid)
    (hstored : ∀ w, rows.stored w = if w = v then some row else s.rows.stored w)
    (hrow : RestoresRow (Function.update assigned v (some values)) v row) :
    Honors (Function.update assigned v (some values)) { s with rows } where
  coder := h.coder
  valid := hvalid
  rows w other hother := by
    rw [hstored] at hother
    split at hother
    · rename_i hw
      cases hother
      rw [hw]
      exact hrow
    · exact (h.rows w other hother).imp fun _ _ _ _ => contentOf_update_of_none hnone _
  serves := h.serves.imp fun _ _ => contentOf_update_of_none hnone _
  short w found hfound := by
    by_cases hw : w = v
    · rw [hw, Function.update_self] at hfound
      cases hfound
      exact hshort
    · rw [Function.update_of_ne hw] at hfound
      exact h.short w found hfound

/-- What is left to do once the row is stored. -/
theorem Honors.runs_publish (h : Honors (Function.update assigned v (some values)) s)
    (hnone : assigned v = none) {token : Token} {depth : Nat} (howner : token.owner = v.toGroupId)
    (htends : s.service.staging.Tends token (contentOf assigned) bound (bound v.toGroupId) depth)
    (hbound : bound v.toGroupId < v.seq) (hcolumns : values.length ≤ maxColumns)
    (location : Location) {α : Type} (result : α) :
    Runs (do
      stageColumns token v.seq 0 values
      let _ ← staging (·.commit token v.seq)
      recordLocation location v
      cacheColumns v 0 values
      return result) s (.ok result) fun s' =>
        Honors (Function.update assigned v (some values)) s' ∧
        s'.service.staging.Rings (contentOf (Function.update assigned v (some values)))
          (Function.update bound v.toGroupId v.seq) := by
  have hself : ∀ (k : Nat) value, values[k]? = some value →
      contentOf (Function.update assigned v (some values)) v.toGroupId v.seq (0 + k) =
        some value := by
    intro k value hk
    rw [contentOf_update, if_pos rfl, Nat.zero_add]
    exact hk
  have htends' : s.service.staging.Tends token
      (contentOf (Function.update assigned v (some values)))
      (Function.update bound v.toGroupId v.seq) (bound v.toGroupId) depth := by
    refine htends.imp (fun _ _ _ => contentOf_update_of_none hnone _) fun g hg => ?_
    rw [howner] at hg
    refine ⟨?_, Function.update_of_ne hg _ _⟩
    funext seq column
    rw [contentOf_update, if_neg fun heq => hg (congrArg VersionId.toGroupId heq)]
  refine (StoreM.runs_publish h.serves htends'.self hbound ?_ ?_ location result).imp
    fun s' hs' => ?_
  · rw [howner]
    exact hself
  · intro k value hk
    have hlt := (List.getElem?_eq_some_iff.mp hk).1
    unfold maxColumns at hcolumns
    exact (recorded_contentKey (by omega)).mpr (hself k value hk)
  · refine ⟨h.restages hs'.2, (hs'.1.tends htends'.others).rings ?_⟩
    rw [howner, Function.update_self]

/-- With the row stored, its number stands for the values if it stood for nothing before. -/
theorem Honors.ends_publish (h : Honors assigned s) (hgranted : Granted issued v.toGroupId v.seq s)
    {token : Token} {depth : Nat} (howner : token.owner = v.toGroupId)
    (htends : s.service.staging.Tends token (contentOf assigned) bound (bound v.toGroupId) depth)
    (hcolumns : values.length ≤ maxColumns)
    (hshort : ∀ value ∈ values, value.size < Diff.lengthLimit) {rows : MemoryRows}
    {records : List TaggedRecord}
    (hrecords : ∀ (k : Nat) record, records[k]? = some record →
      ∃ value, values[k]? = some value ∧
        Restores (contentOf assigned v.toGroupId · (0 + k)) v.seq record.bytes value)
    (hrows : Replaced s.rows rows v.table ((s.rows.rowsOf v.table).push
      ⟨v.group, v.seq, (#[] ++ records.toArray).map TaggedRecord.bytes⟩))
    (location : Location) {outcome : Outcome} (hgroup : outcome.group = v.group)
    (hseq : outcome.seq = v.seq) :
    Ends (do
      stageColumns token v.seq 0 values
      let _ ← staging (·.commit token v.seq)
      recordLocation location v
      cacheColumns v 0 values
      return outcome) { s with rows } fun r s' =>
        Reassigned assigned bound issued v values r s' ∧ s'.tables = s.tables := by
  obtain ⟨hvalid, hstored⟩ := stored_push hrows h.valid hgranted.stored_eq_none
  have hnumbered := hgranted.push_issuedWith hvalid hstored
  have htables := (cacheStable_tables s.tables).runs_publish (s := { s with rows }) rfl token v
    location values outcome
  by_cases hnone : assigned v = none ∧ bound v.toGroupId < v.seq
  · have hpushed : Honors (Function.update assigned v (some values)) { s with rows } :=
      h.push hnone.1 hshort hvalid hstored (restoresRow_update assigned v hrecords)
    have hpublished := (hpushed.runs_publish hnone.1 howner htends hnone.2 hcolumns location
      outcome).and ((cacheStable_numbered _).runs_publish hnumbered token v location values outcome)
    refine (hpublished.and htables).ends fun s' hs' => ⟨⟨hgroup, hseq, fun _ _ => ?_⟩, hs'.2⟩
    exact ⟨hs'.1.1.1, hs'.1.1.2, hs'.1.2⟩
  · refine htables.ends fun s' hs' => ⟨⟨hgroup, hseq, fun hfresh hlater => ?_⟩, hs'⟩
    exact absurd ⟨hfresh, hlater⟩ hnone

/-- With its number given out, a version is stored under it, or the rows stay what they are. -/
theorem Honors.ends_storeVersion (h : Honors assigned s)
    (hrings : s.service.staging.Rings (contentOf assigned) bound)
    (hgranted : Granted issued v.toGroupId v.seq s) (hbound : v.seq ≤ bound v.toGroupId + 1)
    (hsettings : settings.validate = .ok ()) (hcolumns : values.length ≤ maxColumns) :
    Ends (storeVersion v settings values) s fun r s' =>
      Reassigned assigned bound issued v values r s' ∧ s'.tables = s.tables := by
  have hdepth := Ledger.depth_of_validate hsettings
  have hstable := cacheStable_granted issued v.toGroupId v.seq
  have hnarrow : 0 + values.length ≤ 65536 := by
    unfold maxColumns at hcolumns
    omega
  obtain ⟨token, howner, s₁, hclaim, hminds, hs₁⟩ :=
    (h.recalls v.toGroupId).runs_claimSlot hrings.valid (hrings.records v.toGroupId) hdepth hcolumns
      hbound
  have htends : s₁.service.staging.Tends token (contentOf assigned) bound (bound v.toGroupId)
      settings.depth := StagingBuffer.Minds.tends (howner.symm ▸ hminds) fun g _ => hrings.records g
  have h₁ := h.restages hs₁
  have hgranted₁ : Granted issued v.toGroupId v.seq s₁ := by
    have hkept := hstable.keeps_claimSlot v settings.depth values.length s hgranted
    rw [hclaim] at hkept
    exact hkept
  have hencode := (h₁.ends_encodeColumns hminds.tracks hgranted.pos hdepth.2 hnarrow #[]).and
    ((hstable.keeps_encodeColumns v 0 settings token #[] values).ends hgranted₁)
  have hbetween : ∀ {s₂}, Quiet (Recorded assigned) s₁ s₂ → Honors assigned s₂ ∧
      s₂.service.staging.Rings (contentOf assigned) bound ∧ s₂.tables = s.tables := by
    intro s₂ hs₂
    refine ⟨h₁.restages hs₂.restages, ?_, hs₂.tables.trans hs₁.tables⟩
    rw [hs₂.staging]
    exact htends.rings (by rw [howner])
  refine Ends.bind_of_eq hclaim (Ends.bind hencode (fun records s₂ hs₂ => ?_) fun e s₂ hs₂ => ?_)
  · obtain ⟨⟨hquiet, hrecords⟩, hgranted₂⟩ := hs₂
    obtain ⟨h₂, hrings₂, htables₂⟩ := hbetween hquiet
    obtain ⟨hshort, later, rfl, hvalues⟩ := hrecords records rfl
    let row : StoredRow := ⟨v.group, v.seq, (#[] ++ later.toArray).map TaggedRecord.bytes⟩
    rcases append_cases s₂.rows v.table row with ⟨cause, rows, happend, hrows⟩ |
      ⟨location, rows, happend, hrows⟩
    · -- the row is not taken
      have hvalid := h₂.valid.congr hrows
      have hstored : ∀ w found, rows.stored w = some found → s₂.rows.stored w = some found :=
        fun w _ hfound => (stored_congr hrows w).symm.trans hfound
      refine (Runs.bind_error (runs_onRows_error (Q := (· = { s₂ with rows })) happend rfl)).ends ?_
      rintro _ rfl
      exact ⟨⟨h₂.with_rows hvalid hstored, hrings₂, hgranted₂.with_rows hvalid hstored⟩, htables₂⟩
    · -- the row becomes that of the version
      have htends₂ : s₂.service.staging.Tends token (contentOf assigned) bound
          (bound v.toGroupId) settings.depth := by
        rw [hquiet.staging]
        exact htends
      refine Ends.bind_of_eq (onRows_eq happend) ?_
      refine (h₂.ends_publish hgranted₂ howner htends₂ hcolumns hshort hvalues hrows location rfl
        rfl).imp fun r s' hs' => ?_
      exact ⟨hs'.1, hs'.2.trans htables₂⟩
  · obtain ⟨⟨hquiet, -⟩, hgranted₂⟩ := hs₂
    obtain ⟨h₂, hrings₂, htables₂⟩ := hbetween hquiet
    exact ⟨⟨h₂, hrings₂, hgranted₂⟩, htables₂⟩

/-- The number of a version stands for its contents from now on. -/
theorem Remembers.update (h : Remembers assigned issued s)
    (hhonors : Honors (Function.update assigned v (some values)) s')
    (hrings : s'.service.staging.Rings (contentOf (Function.update assigned v (some values)))
      (issuedWith issued v))
    (hnumbered : Numbered (issuedWith issued v) s') (htables : s'.tables = s.tables)
    {state : TableState} (hstate : s.tables[v.table]? = some state)
    (hlength : values.length = state.columns) (hpos : 1 ≤ v.seq)
    (hnext : v.seq ≤ issued v.toGroupId + 1) :
    Remembers (Function.update assigned v (some values)) (issuedWith issued v) s' where
  honors := hhonors
  rings := hrings
  numbered := hnumbered
  gapless w := by
    by_cases hw : w = v
    · rw [hw, Function.update_self, issuedWith_self]
      simp only [Option.isSome_some, true_iff]
      exact ⟨hpos, Nat.le_max_right _ _⟩
    · rw [Function.update_of_ne hw, h.gapless w]
      by_cases hg : w.toGroupId = v.toGroupId
      · -- the number is one of those before, or the next one
        have hseq : w.seq ≠ v.seq := by
          intro hseq
          apply hw
          rw [show w = ⟨w.toGroupId, w.seq⟩ from rfl, hg, hseq]
        rw [hg, issuedWith_self]
        omega
      · rw [issuedWith_of_ne hg]
  valid := by
    rw [htables]
    exact h.valid
  fits w found hfound := by
    rw [htables]
    by_cases hw : w = v
    · rw [hw, Function.update_self] at hfound
      cases hfound
      rw [hw]
      exact ⟨state, hstate, hlength⟩
    · rw [Function.update_of_ne hw] at hfound
      exact h.fits w found hfound

/-- A version was inserted, and its number stands for its contents if nothing was left of a version
that had the number before; or nothing differs but caches. -/
def Inserted (assigned : Assigned) (issued : GroupId → Nat) (s : Store MemoryRows)
    (table : TableId) (values : List Bytes) : Except StoreError Outcome → Store MemoryRows → Prop
  | .ok outcome, s' =>
    let v : VersionId := ⟨⟨table, outcome.group⟩, outcome.seq⟩
    (assigned v ≠ none → Forgotten s v) →
      Remembers (Function.update assigned v (some values)) (issuedWith issued v) s'
  | .error _, s' => Remembers assigned issued s'

/-- With a number given out, a version is stored, or the number goes back. What counts until then is
`known`: all that was assigned, or all but what the number stood for. -/
theorem Remembers.ends_stored (h : Remembers assigned issued s) {s₁ : Store MemoryRows}
    (htables : s₁.tables = s.tables) {state : TableState}
    (hstate : s.tables[v.table]? = some state) (hlength : values.length = state.columns)
    (hgranted : Granted issued v.toGroupId v.seq s₁) {known : Assigned}
    (hknown : Honors known s₁) (hrings : s₁.service.staging.Rings (contentOf known) bound)
    (hsub : ∀ g seq column value, contentOf known g seq column = some value →
      contentOf assigned g seq column = some value)
    (hsame : Function.update known v (some values) = Function.update assigned v (some values))
    (hle : ∀ g, bound g ≤ issued g) (hbound : v.seq ≤ bound v.toGroupId + 1)
    (hfresh : (assigned v ≠ none → Forgotten s v) →
      known v = none ∧ bound v.toGroupId < v.seq) :
    Ends (tryCatch (storeVersion v state.settings values) fun error => do
      let _ ← sequences (·.rollback v.toGroupId v.seq)
      throw error) s₁ (Inserted assigned issued s v.table values) := by
  obtain ⟨hsettings, hnarrow⟩ := h.valid v.table state hstate
  have hstore := hknown.ends_storeVersion hrings hgranted hbound hsettings (hlength ▸ hnarrow)
  refine Ends.caught hstore ?_ fun e s₂ hs₂ => ?_
  · rintro outcome s₂ ⟨⟨hgroup, hseq, hstored⟩, htables₂⟩
    have hv : (⟨⟨v.table, outcome.group⟩, outcome.seq⟩ : VersionId) = v := by rw [hgroup, hseq]
    unfold Inserted
    simp only
    rw [hv]
    intro hforgotten
    obtain ⟨hnone, hlater⟩ := hfresh hforgotten
    obtain ⟨hhonors, hrings₂, hnumbered⟩ := hstored hnone hlater
    rw [hsame] at hhonors hrings₂
    refine h.update hhonors (hrings₂.mono (fun g => ?_) fun _ _ _ _ hvalue => hvalue) hnumbered
      (htables₂.trans htables) hstate hlength hgranted.pos hgranted.next
    by_cases hg : g = v.toGroupId
    · rw [hg, Function.update_self, issuedWith_self]
      exact Nat.le_max_right _ _
    · rw [Function.update_of_ne hg, issuedWith_of_ne hg]
      exact hle g
  · -- the number goes back
    obtain ⟨⟨hhonors, hrings₂, hgranted₂⟩, htables₂⟩ := hs₂
    have hassigned := hhonors.mono hsub h.honors.short
    refine Ends.bind_of_eq (sequences_eq _ s₂) ?_
    refine ⟨⟨hassigned.coder, hassigned.valid, hassigned.rows, hassigned.serves, hassigned.short⟩,
      hrings₂.mono hle hsub, hgranted₂.rollback, h.gapless, ?_, ?_⟩
    all_goals
      show ∀ _, _
      rw [htables₂.trans htables]
    · exact h.valid
    · exact h.fits

/-- Giving out a number makes no difference to anything else. -/
theorem numberStable_remembers (assigned : Assigned) (issued : GroupId → Nat)
    (s : Store MemoryRows) : NumberStable fun s' => Honors assigned s' ∧
      s'.service.staging.Rings (contentOf assigned) issued ∧ s'.tables = s.tables ∧
      ∀ v, Forgotten s v → Forgotten s' v where
  with_sequences _ _ hs :=
    ⟨⟨hs.1.coder, hs.1.valid, hs.1.rows, hs.1.serves, hs.1.short⟩, hs.2.1, hs.2.2.1, hs.2.2.2⟩
  with_rows _ _ hrows hs :=
    ⟨hs.1.with_rows (hrows.valid hs.1.valid) fun v _ hrow => (hrows.stored v).symm.trans hrow,
      hs.2.1, hs.2.2.1, hs.2.2.2⟩

/-- An insert stores a version under a number that stands for it from now on, if nothing is left of
a version that had the number before. -/
theorem Remembers.ends_insertRow (h : Remembers assigned issued s) (table : TableId) (key : Key)
    (values : List Bytes) :
    Ends (insertRow table key values) s (Inserted assigned issued s table values) := by
  cases hkey : key.fingerprint s.unpacker with
  | error cause => exact (Runs.bind_error (runs_fingerprint_error hkey h)).ends fun _ hs => hs
  | ok group =>
    refine Ends.bind_of_eq (fingerprint_eq hkey) ?_
    cases htable : s.tables[table]? with
    | none => exact (Runs.bind_error (runs_tableState_error htable h)).ends fun _ hs => hs
    | some state =>
      refine Ends.bind_of_eq (tableState_eq htable) ?_
      split
      · exact h
      · rename_i hlength
        rw [ne_eq, Decidable.not_not] at hlength
        let g : GroupId := ⟨table, group⟩
        obtain ⟨seq, s₁, hseq, hgranted, hhonors, hrings, htables, hforgotten⟩ :=
          h.numbered.runs_allocateSeq (numberStable_remembers assigned issued s)
            ⟨h.honors, h.rings, rfl, fun _ hv => hv⟩ g
        let v : VersionId := ⟨g, seq⟩
        refine Ends.bind_of_eq hseq ?_
        by_cases hstale : assigned v ≠ none ∧ Forgotten s v
        · -- the number stands for nothing until its version is stored
          have hgone := hforgotten v hstale.2
          refine h.ends_stored (v := v) htables htable hlength hgranted
            (hhonors.forget (v := v) hgranted hgone) (rings_forget hrings hgone.2)
            (fun _ _ _ _ => contentOf_update_none) (Function.update_idem _ _ _) (fun other => ?_) ?_
            fun _ => ⟨Function.update_self _ _ _, ?_⟩
          · by_cases hother : other = g
            · rw [hother, Function.update_self]
              exact Nat.sub_le_of_le_add hgranted.next
            · rw [Function.update_of_ne hother]
          · rw [Function.update_self]
            exact Nat.le_succ_of_pred_le (Nat.le_refl _)
          · rw [Function.update_self]
            exact Nat.sub_lt hgranted.pos Nat.one_pos
        · refine h.ends_stored (v := v) htables htable hlength hgranted hhonors hrings
            (fun _ _ _ _ hvalue => hvalue) rfl (fun _ => Nat.le_refl _) hgranted.next ?_
          -- the number was never given out
          intro hcleared
          have hnone : assigned v = none := by
            by_contra hsome
            exact hstale ⟨hsome, hcleared hsome⟩
          refine ⟨hnone, ?_⟩
          by_contra hle
          have hsome := (h.gapless v).mpr ⟨hgranted.pos, Nat.not_lt.mp hle⟩
          rw [hnone] at hsome
          cases hsome

end VersionChain
