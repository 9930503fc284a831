import VersionChain.Proofs.Store.Numbering

/-!
# One group of a store

What a store gives for one group depends on the history of that group alone. The rows of other
groups may be missing or hold anything, and so may what is cached and staged for them; they compete
for the same caches, but whatever is given up for them is found again in the rows of the group.

* `Backs` — the rows, the contents and the ring of a group are those of its history;
* `Upholds` — and so are its numbers;
* `Upholds.runs_getVersion`, `Upholds.runs_getColumn`, `Upholds.runs_latestSeq`,
  `Upholds.runs_history` — reading from the group;
* `Backs.ends_storeVersion`, `Upholds.ends_insertRow` — inserting into it.
-/

namespace VersionChain

open StoreM MemoryRows StagingBuffer

variable {g : GroupId} {history : List (List Bytes)} {s s' : Store MemoryRows} {coder : DiffCoder}
  {settings : TableSettings} {state : TableState} {key : Key} {values : List Bytes}
  {issued : GroupId → Nat} {token : Token} {b : StagingBuffer} {seq column held depth : Nat}

/-! ## A group and its history -/

/-- A content that is cached for the group is that of the history. Of other groups nothing is said. -/
def SaysOf (g : GroupId) (history : List (List Bytes)) (key : ContentKey) (value : Bytes) : Prop :=
  key.toGroupId = g → contentAt history key.seq key.column.toNat = some value

theorem saysOf_contentKey (hcolumn : column < 65536) {value : Bytes} :
    SaysOf g history (contentKey ⟨g, seq⟩ column) value ↔
      contentAt history seq column = some value := by
  unfold SaysOf contentKey
  simp only [forall_const]
  rw [UInt16.toNat_ofNat_of_lt' hcolumn]

/-- The rows of a group stand for its history, and what is cached and staged for it is right. -/
structure Backs (g : GroupId) (history : List (List Bytes)) (s : Store MemoryRows) : Prop where
  filed : Filed s.rows g history
  serves : s.service.content.Serves (SaysOf g history)
  staged : s.service.staging.Valid
  ring : ∀ ring, s.service.staging.ringFor g = some ring →
    ring.Records (contentAt history) history.length

/-- The numbers of the group are those of its history as well. -/
structure Upholds (g : GroupId) (history : List (List Bytes)) (s : Store MemoryRows) : Prop where
  backs : Backs g history s
  numbered : ∃ issued : GroupId → Nat, issued g = history.length ∧ Numbered issued s

theorem Upholds.valid (h : Upholds g history s) : s.rows.Valid := by
  obtain ⟨issued, -, hnumbered⟩ := h.numbered
  exact hnumbered.valid

/-- The rows may be put away and counted differently, and those of other groups may be any. -/
theorem Backs.with_rows (h : Backs g history s) {rows : MemoryRows}
    (hstored : ∀ seq, rows.stored ⟨g, seq⟩ = s.rows.stored ⟨g, seq⟩) :
    Backs g history { s with rows } :=
  ⟨h.filed.congr hstored, h.serves, h.staged, h.ring⟩

theorem Backs.legible (h : Backs g history s) (hvalid : s.rows.Valid)
    (hcodec : s.codec = coder.codec) : LegibleFor (SaysOf g history) s g history where
  decode := by
    rw [hcodec]
    rfl
  tagOf := by
    rw [hcodec]
    rfl
  valid := hvalid
  filed := h.filed
  serves := h.serves
  right _ _ _ hcolumn := saysOf_contentKey hcolumn

/-- Between two steps of an insert into the group, the ring of its token is right. -/
theorem Backs.minded (h : Backs g history s) (hs' : Restages (SaysOf g history) s s')
    (hminds : Minds b s'.service.staging token (contentAt history) held depth)
    (howner : token.owner = g) (hheld : held ≤ history.length) : Backs g history s' where
  filed := h.filed.congr fun seq => hs'.rows.stored ⟨g, seq⟩
  serves := hs'.serves
  staged := hminds.tracks.valid
  ring ring hring := by
    rw [← howner] at hring
    exact (hminds.tracks.records hring).mono hheld fun _ _ _ hvalue => hvalue

theorem Upholds.quiet (h : Upholds g history s) (hs' : Quiet (SaysOf g history) s s') :
    Upholds g history s' where
  backs := {
    filed := h.backs.filed.congr fun seq => hs'.rows.stored ⟨g, seq⟩
    serves := hs'.serves
    staged := by
      rw [hs'.staging]
      exact h.backs.staged
    ring := by
      rw [hs'.staging]
      exact h.backs.ring }
  numbered := by
    obtain ⟨issued, hissued, hnumbered⟩ := h.numbered
    exact ⟨issued, hissued, hnumbered.congr hs'.sequences hs'.rows⟩

theorem readStable_upholds (g : GroupId) (history : List (List Bytes)) :
    ReadStable (Upholds g history) where
  with_locations _ _ hf hs := hs.quiet ⟨rfl, rfl, hs.backs.serves, hf _⟩
  with_rows _ _ hrows hs := hs.quiet ⟨rfl, hrows, hs.backs.serves, id⟩

/-! ## Reading -/

section Reads

variable (h : Upholds g history s) (htable : s.tables[g.table]? = some state)
  (hkey : key.fingerprint s.unpacker = .ok g.group)

include h htable hkey

theorem Upholds.runs_getVersion (hcodec : s.codec = coder.codec) (hnarrow : state.columns ≤ maxColumns)
    (seq : Nat) :
    Runs (getVersion g.table key seq) s (.ok (gather history seq 0 #[] state.columns))
      (Quiet (SaysOf g history) s) := by
  refine Runs.bind_of_eq (tableState_eq htable) (Runs.bind_of_eq (fingerprint_eq hkey) ?_)
  refine (h.backs.legible h.valid hcodec).runs_readColumns seq ?_ #[]
  unfold maxColumns at hnarrow
  omega

theorem Upholds.runs_getColumn (hcodec : s.codec = coder.codec) (hnarrow : state.columns ≤ maxColumns)
    (seq : Nat) (hcolumn : column < state.columns) :
    Runs (getColumn g.table key seq column) s (.ok (contentAt history seq column))
      (Quiet (SaysOf g history) s) := by
  refine Runs.bind_of_eq (tableState_eq htable) ?_
  rw [if_pos hcolumn]
  refine Runs.bind_of_eq (fingerprint_eq hkey) ?_
  refine (h.backs.legible h.valid hcodec).runs_resolve seq ?_
  unfold maxColumns at hnarrow
  omega

omit h htable hkey in
theorem numberStable_backs (g : GroupId) (history : List (List Bytes)) (m : MemoryRows) :
    NumberStable fun s => Backs g history s ∧ Recounted m s.rows where
  with_sequences _ _ hs := ⟨⟨hs.1.filed, hs.1.serves, hs.1.staged, hs.1.ring⟩, hs.2⟩
  with_rows _ _ hrows hs :=
    ⟨hs.1.with_rows fun seq => hrows.stored ⟨g, seq⟩, hs.2.trans hrows⟩

theorem Upholds.runs_latestSeq :
    Runs (latestSeq g.table key) s
      (.ok (if history.length = 0 then none else some history.length)) fun s' =>
        Upholds g history s' ∧ Recounted s.rows s'.rows := by
  obtain ⟨issued, hissued, hnumbered⟩ := h.numbered
  obtain ⟨seq, hcurrent, hruns⟩ := hnumbered.runs_latestSeq (numberStable_backs g history s.rows)
    ⟨h.backs, rfl⟩ htable hkey
  have hgapless : GaplessFor s.rows g (issued g) := by
    rw [hissued]
    exact h.backs.filed.stored
  obtain rfl := hgapless.eq_of_current hcurrent
  rw [hissued] at hruns
  exact hruns.imp fun s' hs' => ⟨⟨hs'.2.1, issued, hissued, hs'.1⟩, hs'.2.2⟩

theorem Upholds.runs_history :
    Runs (StoreM.history g.table key) s (.ok (List.range' 1 history.length)) fun s' =>
      Upholds g history s' ∧ Recounted s.rows s'.rows := by
  have hstable : ReadStable fun s' => Upholds g history s' ∧ Recounted s.rows s'.rows :=
    { with_locations := fun x f hf hs =>
        ⟨(readStable_upholds g history).with_locations x f hf hs.1, hs.2⟩
      with_rows := fun x rows hrows hs =>
        ⟨(readStable_upholds g history).with_rows x rows hrows hs.1, hs.2.trans hrows⟩ }
  have hruns := hstable.runs_history ⟨h, rfl⟩ htable hkey
  have hgapless : GaplessFor s.rows g history.length := h.backs.filed.stored
  rw [hgapless.mergeSort_seqs h.valid] at hruns
  exact hruns

end Reads

/-! ## Storing the next version -/

/-- What an insert tells of a version, and the records that were stored for it. Where its row lies
does not matter. -/
structure Written where
  group : Fingerprint
  seq : Nat
  tags : List Tag
  rawBytes : Nat
  storedBytes : Nat
  records : Option (Array Bytes)
  deriving DecidableEq, Repr

/-- What is left of an outcome without its location, with the records that lie there. -/
def writtenAs (m : MemoryRows) (table : TableId) (outcome : Outcome) : Written where
  group := outcome.group
  seq := outcome.seq
  tags := outcome.tags
  rawBytes := outcome.rawBytes
  storedBytes := outcome.storedBytes
  records := (m.row? ⟨table, outcome.location⟩).map (·.columns)

/-- What storing the version after a history gives, unless its row is refused. -/
def storing (coder : DiffCoder) (settings : TableSettings) (g : GroupId)
    (history : List (List Bytes)) (refusal : Option RowError) (values : List Bytes) :
    Except StoreError Written :=
  let records := recordsFor coder settings history 0 values
  if ∀ value ∈ values, value.size < Diff.lengthLimit then
    match refusal with
    | some cause => .error (.rows (.appending (history.length + 1) g.table) cause)
    | none => .ok {
        group := g.group
        seq := history.length + 1
        tags := records.map (·.tag)
        rawBytes := totalSize values
        storedBytes := totalSize (records.map (·.bytes))
        records := some (records.map (·.bytes)).toArray }
  else .error .noKeyframe

/-- The version was stored, or its number is still to be given back. -/
def StoredAfter (issued : GroupId → Nat) (g : GroupId) (history : List (List Bytes))
    (values : List Bytes) (places : Nat) : Except StoreError Outcome → Store MemoryRows → Prop
  | .ok _, s => Upholds g (history ++ [values]) s ∧ (s.rows.places g.table).size = places + 1
  | .error _, s => (Backs g history s ∧ Granted issued g (history.length + 1) s) ∧
    (s.rows.places g.table).size = places

/-- What is left to do once the row is stored. -/
theorem Backs.ends_publish (h : Backs g history s)
    (hgranted : Granted issued g (history.length + 1) s) (hissued : issued g = history.length)
    (hminds : Minds b s.service.staging token (contentAt history) history.length depth)
    (howner : token.owner = g) (hcolumns : values.length ≤ maxColumns) {rows : MemoryRows}
    {row : StoredRow} (hversion : row.group = g.group ∧ row.seq = history.length + 1)
    (hrow : Represented (history ++ [values]) (history.length + 1) row)
    (hroom : (s.rows.places g.table).size < slotLimit)
    (hrows : Replaced s.rows rows g.table ((s.rows.rowsOf g.table).push row)) {α : Type}
    (result : α) :
    Runs (do
      stageColumns token (history.length + 1) 0 values
      let _ ← staging (·.commit token (history.length + 1))
      recordLocation (locationOf g.table (s.rows.places g.table).size) ⟨g, history.length + 1⟩
      cacheColumns ⟨g, history.length + 1⟩ 0 values
      return result) { s with rows } (.ok result) fun s' =>
        s'.rows.row? ⟨g.table, locationOf g.table (s.rows.places g.table).size⟩ = some row ∧
        Upholds g (history ++ [values]) s' ∧
        (s'.rows.places g.table).size = (s.rows.places g.table).size + 1 := by
  obtain ⟨group, seq, columns⟩ := row
  obtain ⟨rfl, rfl⟩ : group = g.group ∧ seq = history.length + 1 := hversion
  obtain ⟨hvalid, hstored⟩ := stored_push hrows hgranted.valid hgranted.stored_eq_none
  have hplaces : rows.places g.table = (s.rows.places g.table).push (some _) :=
    congrArg TableRows.rows ((hrows.rowsOf g.table).trans (if_pos rfl))
  have hfiled : Filed rows g (history ++ [values]) := by
    refine h.filed.append values (fun seq => ?_) hrow
    rw [hstored]
    by_cases hseq : seq = history.length + 1
    · rw [if_pos hseq, hseq]
      exact if_pos rfl
    · rw [if_neg hseq]
      exact if_neg fun heq => hseq (congrArg VersionId.seq heq)
  -- with one version more, what was cached and staged is still right
  have hserves : s.service.content.Serves (SaysOf g (history ++ [values])) :=
    h.serves.imp fun _ _ hvalue hkey => contentAt_append values (hvalue hkey)
  have hminds' : Minds b s.service.staging token (contentAt (history ++ [values])) history.length
      depth :=
    ⟨hminds.tracks.mono (Nat.le_refl _) fun _ _ _ => contentAt_append values, hminds.others⟩
  have hvalues : ∀ (k : Nat) value, values[k]? = some value →
      contentAt (history ++ [values]) (history.length + 1) (0 + k) = some value := by
    intro k value hk
    rw [Nat.zero_add, contentAt_append_last]
    exact hk
  have hcached : ∀ (k : Nat) value, values[k]? = some value →
      SaysOf g (history ++ [values]) (contentKey ⟨g, history.length + 1⟩ (0 + k)) value := by
    intro k value hk
    have hlt := (List.getElem?_eq_some_iff.mp hk).1
    unfold maxColumns at hcolumns
    exact (saysOf_contentKey (by omega)).mpr (hvalues k value hk)
  have hnumbered : Numbered (Function.update issued g (history.length + 1)) { s with rows } := by
    refine hgranted.push hvalid hstored (fun other hother => Function.update_of_ne hother _ _) ?_ ?_
    · rw [Function.update_self, hissued]
      exact Nat.le_succ _
    · rw [Function.update_self]
  refine (StoreM.runs_publish (s := { s with rows }) (v := ⟨g, history.length + 1⟩) hserves hminds'
    (Nat.lt_succ_self _) hvalues hcached _ result).imp fun s' hs' => ?_
  obtain ⟨hpublished, hrest⟩ := hs'
  have hafter : s'.rows.places g.table = (s.rows.places g.table).push (some _) :=
    (hrest.rows.places g.table).trans hplaces
  refine ⟨?_, ⟨?_, ⟨_, ?_, hnumbered.congr hrest.sequences hrest.rows⟩⟩, ?_⟩
  · rw [row?_locationOf g.table hroom, hafter, Array.getElem?_push_size]
    rfl
  · have hpushed : Backs g (history ++ [values]) { s with rows } := by
      refine ⟨hfiled, hserves, h.staged, fun ring hring => ?_⟩
      exact (h.ring ring hring).mono (by rw [List.length_append]; exact Nat.le_add_right _ _)
        fun _ _ _ => contentAt_append values
    exact hpushed.minded hrest hpublished howner (by rw [List.length_append]; exact Nat.le_refl _)
  · rw [Function.update_self, List.length_append]
    rfl
  · rw [hafter, Array.size_push]

/-- With its number given out, the next version is stored with the records that the history calls
for, unless its row is refused. -/
theorem Backs.ends_storeVersion (h : Backs g history s)
    (hgranted : Granted issued g (history.length + 1) s) (hissued : issued g = history.length)
    (hcodec : s.codec = coder.codec) (hsettings : settings.validate = .ok ())
    (hcolumns : values.length ≤ maxColumns) (hfull : Full history values.length) :
    Ends (storeVersion ⟨g, history.length + 1⟩ settings values) s fun r s' =>
      r.map (writtenAs s'.rows g.table) =
        storing coder settings g history (s.rows.refusal g.table) values ∧
      StoredAfter issued g history values (s.rows.places g.table).size r s' := by
  have hdepth := Ledger.depth_of_validate hsettings
  have hlegible := h.legible hgranted.valid hcodec
  obtain ⟨token, howner, s₁, hclaim, hminds, hs₁⟩ := hlegible.recalls.runs_claimSlot
    (v := ⟨g, history.length + 1⟩) h.staged h.ring hdepth hcolumns (Nat.le_refl _)
  have hready : Ready (SaysOf g history) s₁ (fun _ => history) coder settings.depth values.length g
      token :=
    ⟨hlegible.restages hs₁, hs₁.codec.trans hcodec, hfull, hcolumns, hminds.tracks⟩
  have hall : 0 + values.length ≤ values.length := Nat.le_of_eq (Nat.zero_add _)
  obtain ⟨s₂, hencode, hquiet⟩ := hready.runs_encodeColumns hall #[]
  rw [Array.empty_append] at hencode
  -- nothing but caches has changed so far
  have hs₂ : Restages (SaysOf g history) s s₂ := hs₁.trans hquiet.restages
  rw [← hquiet.staging] at hminds
  have h₂ := h.minded hs₂ hminds howner (Nat.le_refl _)
  have hgranted₂ := hgranted.congr hs₂.sequences hs₂.rows
  have hplaces : s₂.rows.places g.table = s.rows.places g.table := hs₂.rows.places g.table
  have hrefusal : s₂.rows.refusal g.table = s.rows.refusal g.table := by
    unfold MemoryRows.refusal
    rw [hplaces, hs₂.rows.rejecting]
  refine Ends.bind_of_eq hclaim ?_
  unfold storing
  simp only
  by_cases hshort : ∀ value ∈ values, value.size < Diff.lengthLimit
  · rw [if_pos hshort] at hencode ⊢
    refine Ends.bind_of_eq hencode ?_
    rw [List.map_toArray, ← hrefusal]
    let row : StoredRow := ⟨g.group, history.length + 1,
      ((recordsFor coder settings history 0 values).map (·.bytes)).toArray⟩
    rcases s₂.rows.append_refusal g.table row with ⟨cause, rows, hrefused, happend, hrows⟩ |
      ⟨rows, haccepted, hroom, happend, hrows⟩
    · -- the row is not taken
      have hstored := stored_congr hrows
      rw [hrefused]
      refine (Runs.bind_error (runs_onRows_error (Q := (· = { s₂ with rows })) happend rfl)).ends ?_
      rintro _ rfl
      refine ⟨rfl, ⟨h₂.with_rows fun seq => hstored ⟨g, seq⟩, ?_⟩, ?_⟩
      · exact hgranted₂.with_rows (hgranted₂.valid.congr hrows) fun v _ hrow =>
          (hstored v).symm.trans hrow
      · rw [← hplaces]
        unfold MemoryRows.places
        rw [hrows]
    · -- the row becomes that of the next version
      rw [haccepted, ← hplaces]
      refine Ends.bind_of_eq (onRows_eq happend) ?_
      refine (h₂.ends_publish hgranted₂ hissued hminds howner hcolumns ⟨rfl, rfl⟩
        (represented_next hfull hdepth.2 hshort g.group) hroom hrows _).ends
          fun s' hs' => ⟨?_, hs'.2⟩
      simp only [Except.map, writtenAs, hs'.1]
      rfl
  · -- a value is too long
    rw [if_neg hshort] at hencode ⊢
    refine (Runs.bind_error (Q := (· = s₂)) ⟨s₂, hencode, rfl⟩).ends ?_
    rintro _ rfl
    exact ⟨rfl, ⟨h₂, hgranted₂⟩, congrArg Array.size hplaces⟩

/-! ## Inserting -/

/-- What an insert into a group gives, by its table and its history. -/
def inserting (coder : DiffCoder) (g : GroupId) (state : Option TableState)
    (history : List (List Bytes)) (refusal : Option RowError) (values : List Bytes) :
    Except StoreError Written :=
  match state with
  | none => .error (.noTable g.table)
  | some state =>
    if values.length ≠ state.columns then
      .error (.columnCount g.table state.columns values.length)
    else storing coder state.settings g history refusal values

/-- The history has one version more, or nothing has changed. -/
def InsertedAfter (g : GroupId) (history : List (List Bytes)) (values : List Bytes) (places : Nat) :
    Except StoreError Outcome → Store MemoryRows → Prop
  | .ok _, s => Upholds g (history ++ [values]) s ∧ (s.rows.places g.table).size = places + 1
  | .error _, s => Upholds g history s ∧ (s.rows.places g.table).size = places

/-- An insert into the group gives what its history calls for. -/
theorem Upholds.ends_insertRow (h : Upholds g history s) (hcodec : s.codec = coder.codec)
    (hkey : key.fingerprint s.unpacker = .ok g.group)
    (hfits : ∀ state, s.tables[g.table]? = some state → state.settings.validate = .ok () ∧
      state.columns ≤ maxColumns ∧ Full history state.columns) (values : List Bytes) :
    Ends (insertRow g.table key values) s fun r s' =>
      r.map (writtenAs s'.rows g.table) = inserting coder g s.tables[g.table]? history
        (s.rows.refusal g.table) values ∧
      InsertedAfter g history values (s.rows.places g.table).size r s' := by
  refine Ends.bind_of_eq (fingerprint_eq hkey) ?_
  cases htable : s.tables[g.table]? with
  | none =>
    refine (Runs.bind_error (runs_tableState_error (Q := (· = s)) htable rfl)).ends ?_
    rintro _ rfl
    exact ⟨rfl, h, rfl⟩
  | some state =>
    obtain ⟨hsettings, hnarrow, hfull⟩ := hfits state htable
    refine Ends.bind_of_eq (tableState_eq htable) ?_
    unfold inserting
    simp only
    by_cases hlength : values.length = state.columns
    · rw [if_neg (not_not.mpr hlength), if_neg (not_not.mpr hlength)]
      obtain ⟨issued, hissued, hnumbered⟩ := h.numbered
      have hstable : NumberStable fun s' =>
          (Backs g history s' ∧ Recounted s.rows s'.rows) ∧ s'.codec = s.codec :=
        { with_sequences := fun x sequences hs =>
            ⟨(numberStable_backs g history s.rows).with_sequences x sequences hs.1, hs.2⟩
          with_rows := fun x rows hrows hs =>
            ⟨(numberStable_backs g history s.rows).with_rows x rows hrows hs.1, hs.2⟩ }
      obtain ⟨seq, s₁, hseq, hgranted, ⟨hbacks, hrows⟩, hcodec₁⟩ :=
        hnumbered.runs_allocateSeq hstable ⟨⟨h.backs, rfl⟩, rfl⟩ g
      have hgapless : GaplessFor s₁.rows g (issued g) := by
        rw [hissued]
        exact hbacks.filed.stored
      obtain rfl := hgapless.eq_of_granted hgranted
      rw [hissued] at hgranted hseq
      refine Ends.bind_of_eq hseq ?_
      have hstore := hbacks.ends_storeVersion hgranted hissued (hcodec₁.trans hcodec) hsettings
        (hlength ▸ hnarrow) (hlength ▸ hfull)
      rw [show s₁.rows.refusal g.table = s.rows.refusal g.table by
        unfold MemoryRows.refusal; rw [hrows.places, hrows.rejecting], hrows.places] at hstore
      refine hstore.caught (fun outcome s₂ hs₂ => hs₂) fun e s₂ hs₂ => ?_
      -- the number goes back
      obtain ⟨hresult, ⟨h₂, hgranted₂⟩, hplaces⟩ := hs₂
      refine Ends.bind_of_eq (sequences_eq _ s₂) ⟨hresult, ⟨?_, issued, hissued, ?_⟩, hplaces⟩
      · exact ⟨h₂.filed, h₂.serves, h₂.staged, h₂.ring⟩
      · exact hgranted₂.rollback
    · rw [if_pos hlength, if_pos hlength]
      exact ⟨rfl, h, rfl⟩

end VersionChain
