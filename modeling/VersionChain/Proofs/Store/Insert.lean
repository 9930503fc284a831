import VersionChain.Proofs.Store.Agreement
import VersionChain.Proofs.Store.Bases
import VersionChain.Proofs.Store.Numbers
import VersionChain.Proofs.Store.Slots

/-!
# Inserting into a store

An insert does to a store what it does to its ledger: it gives the same outcome or the same error,
and the store agrees with the ledger afterwards. An insert that fails gives its number back, and
what it staged is right all the same.

* `Working` — in the middle of an insert;
* `Mirrors.append` — storing the row of the next version;
* `Agrees.runs_storeVersion` — an insert once its number is given out;
* `Agrees.runs_insertRow` — a whole insert.
-/

namespace VersionChain

open StoreM MemoryRows

/-- In the middle of an insert into a group: the token of the group is current, and none but the
first `held` of its versions are staged. -/
structure Working (s : Store MemoryRows) (l : Ledger) (latest : GroupId → Nat) (g : GroupId)
    (token : Token) (held depth : Nat) : Prop where
  mirrors : Mirrors s l
  advises : s.service.sequences.Advises latest
  owner : token.owner = g
  tracks : s.service.staging.Tracks token (contentAt (l.histories g)) held depth
  others : ∀ other, other ≠ g → ∀ ring, s.service.staging.ringFor other = some ring →
    ring.Records (contentAt (l.histories other)) (l.histories other).length

variable {s s' : Store MemoryRows} {l : Ledger} {latest : GroupId → Nat} {g : GroupId}
  {token : Token} {held depth columns : Nat} {settings : TableSettings} {values : List Bytes}

theorem Working.calm (h : Working s l latest g token held depth)
    (hcalm : Calm l.histories s s') : Working s' l latest g token held depth where
  mirrors := h.mirrors.calm hcalm
  advises := by
    rw [hcalm.sequences]
    exact h.advises
  owner := h.owner
  tracks := by
    rw [hcalm.staging]
    exact h.tracks
  others := by
    rw [hcalm.staging]
    exact h.others

/-- The staging buffer as a whole. -/
theorem Working.tends (h : Working s l latest g token held depth) :
    s.service.staging.Tends token (fun g => contentAt (l.histories g))
      (fun g => (l.histories g).length) held depth where
  tracks := by
    rw [h.owner]
    exact h.tracks
  others := by
    rw [h.owner]
    exact h.others

theorem Working.agrees (h : Working s l latest g token held depth)
    (hheld : held ≤ (l.histories g).length) : Agrees s l latest where
  mirrors := h.mirrors
  advises := h.advises
  stages := stages_iff.mpr (h.tends.rings (by rw [h.owner]; exact hheld))

/-! ## Staging versions -/

theorem StoreM.LegibleFor.restages {P : ContentKey → Bytes → Prop} {history : List (List Bytes)}
    (h : LegibleFor P s g history) (hs' : Restages P s s') : LegibleFor P s' g history :=
  LegibleFor.quiet (s := { s with service := { s.service with staging := s'.service.staging } })
    ⟨h.decode, h.tagOf, h.valid, h.filed, h.serves, h.right⟩ hs'

/-- Over rows that stand for a history, what is rebuilt is right. -/
theorem StoreM.LegibleFor.recalls {P : ContentKey → Bytes → Prop} {history : List (List Bytes)}
    (h : LegibleFor P s g history) : Recalls P g (contentAt history) s where
  serves := h.serves
  resolve _ hs' seq _ hcolumn :=
    ⟨_, (h.restages hs').runs_resolve seq hcolumn, fun _ hvalue => hvalue⟩

/-- A store that agrees, but for what is being staged. -/
theorem Mirrors.working (h : Mirrors s l) (hadvises : s.service.sequences.Advises latest)
    (howner : token.owner = g)
    (htends : s'.service.staging.Tends token (fun g => contentAt (l.histories g))
      (fun g => (l.histories g).length) held depth)
    (hrest : Restages (Says l.histories) s s') : Working s' l latest g token held depth := by
  obtain ⟨htracks, hothers⟩ := htends
  rw [howner] at htracks hothers
  have hstaged : Mirrors { s with service := { s.service with staging := s'.service.staging } } l :=
    h.of_rest rfl
  refine ⟨hstaged.calm hrest, ?_, howner, htracks, hothers⟩
  rw [hrest.sequences]
  exact hadvises

theorem Agrees.runs_claimSlot (h : Agrees s l latest) (g : GroupId)
    (hdepth : 1 ≤ depth ∧ depth ≤ maxDepth) (hcolumns : columns ≤ maxColumns) :
    ∃ token, Runs (claimSlot (next l.histories g) depth columns) s (.ok token) fun s' =>
      Working s' l latest g token (l.histories g).length depth := by
  have hrings := stages_iff.mp h.stages
  obtain ⟨token, howner, hruns⟩ := (h.mirrors.legible.forGroup g).recalls.runs_claimSlot
    (v := next l.histories g) hrings.valid (hrings.records g) hdepth hcolumns (Nat.le_refl _)
  refine ⟨token, hruns.imp fun s' hs' => h.mirrors.working h.advises howner ?_ hs'.2⟩
  exact StagingBuffer.Minds.tends (howner.symm ▸ hs'.1) fun g _ => hrings.records g

/-! ## Storing the row -/

theorem histories_append (l : Ledger) (g : GroupId) (settings : TableSettings)
    (values : List Bytes) (other : GroupId) : (l.append g settings values).histories other =
      if other = g then l.histories g ++ [values] else l.histories other := by
  show Function.update l.histories g _ other = _
  split
  · rename_i heq
    rw [heq, Function.update_self]
  · rename_i hne
    rw [Function.update_of_ne hne]

/-- What a version contains does not change when later ones are stored. -/
theorem contentAt_histories_append (settings : TableSettings) {other : GroupId}
    {seq column : Nat} {content : Bytes}
    (h : contentAt (l.histories other) seq column = some content) :
    contentAt ((l.append g settings values).histories other) seq column = some content := by
  rw [histories_append]
  split
  · rename_i heq
    rw [heq] at h
    exact contentAt_append values h
  · exact h

theorem Mirrors.append (h : Mirrors s l) {state : TableState}
    (hstate : l.tables g.table = some state) (hlength : values.length = state.columns)
    (hshort : ∀ value ∈ values, value.size < Diff.lengthLimit) {rows : MemoryRows}
    (hrows : Replaced s.rows rows g.table
      ((s.rows.rowsOf g.table).push (l.row g state.settings values))) :
    Mirrors { s with rows } (l.append g state.settings values) := by
  have hfiled := h.legible.filed g
  -- versions are stored without gaps, so the next one is not stored yet
  have hnew : s.rows.stored ⟨g, (l.histories g).length + 1⟩ = none := by
    cases hstored : s.rows.stored ⟨g, (l.histories g).length + 1⟩ with
    | none => rfl
    | some row =>
      have := ((hfiled.stored _).mp ⟨row, hstored⟩).2
      omega
  obtain ⟨hvalid, hstored⟩ := stored_push hrows h.legible.valid hnew
  refine ⟨h.sound.append hstate hlength hshort,
    ⟨h.legible.decode, h.legible.tagOf, hvalid, fun other => ?_, ?_, h.legible.sound⟩,
    h.codec, h.unpacker, h.tables, fun table => ?_, ?_⟩
  · rw [histories_append]
    split
    · rename_i heq
      rw [heq]
      have hdepth := (Ledger.depth_of_validate (h.sound.valid g.table state hstate)).2
      have hrow : Represented _ _ (l.row g state.settings values) :=
        represented_next (h.sound.full g state hstate) hdepth hshort g.group
      refine hfiled.append values (fun seq => ?_) hrow
      rw [hstored]
      by_cases hseq : seq = (l.histories g).length + 1
      · rw [if_pos hseq, hseq]
        exact if_pos rfl
      · rw [if_neg hseq]
        exact if_neg fun heq => hseq (congrArg VersionId.seq heq)
    · rename_i hne
      refine (h.legible.filed other).congr fun seq => ?_
      rw [hstored]
      exact if_neg fun heq => hne (congrArg VersionId.toGroupId heq)
  · exact h.legible.serves.imp fun key value hvalue =>
      contentAt_histories_append state.settings hvalue
  · refine h.places_replaced hrows ?_ table
    rw [← h.places g.table]
    rfl
  · exact hrows.rejecting.trans h.rejecting

/-- Once the row is stored, the version can be staged. -/
theorem Working.append (h : Working s l latest g token held depth) {state : TableState}
    (hstate : l.tables g.table = some state) (hlength : values.length = state.columns)
    (hshort : ∀ value ∈ values, value.size < Diff.lengthLimit) {rows : MemoryRows}
    (hrows : Replaced s.rows rows g.table
      ((s.rows.rowsOf g.table).push (l.row g state.settings values))) :
    Working { s with rows } (l.append g state.settings values) latest g token held depth where
  mirrors := h.mirrors.append hstate hlength hshort hrows
  advises := h.advises
  owner := h.owner
  tracks := h.tracks.mono (Nat.le_refl held) fun _ _ _ hcontent =>
    contentAt_histories_append state.settings hcontent
  others other hother ring hring := by
    rw [histories_append, if_neg hother]
    exact h.others other hother ring hring

/-! ## Inserting -/

theorem Working.ready (h : Working s l latest g token (l.histories g).length depth)
    {state : TableState} (hstate : l.tables g.table = some state) :
    Ready (Says l.histories) s l.histories l.coder depth state.columns g token where
  legible := h.mirrors.legible.forGroup g
  codec := h.mirrors.codec
  full := h.mirrors.sound.full g state hstate
  narrow := h.mirrors.sound.narrow g.table state hstate
  tracks := h.tracks

/-- What is left to do once the row is stored. -/
theorem Working.runs_publish (h : Working s l latest g token held depth) {location : Location}
    {seq : Nat} (hheld : held < seq) (hseq : seq = (l.histories g).length)
    (hlength : values.length ≤ maxColumns)
    (hvalues : ∀ (k : Nat) value, values[k]? = some value →
      contentAt (l.histories g) seq (0 + k) = some value) {α : Type} (result : α) :
    Runs (do
      stageColumns token seq 0 values
      let _ ← staging (·.commit token seq)
      recordLocation location ⟨g, seq⟩
      cacheColumns ⟨g, seq⟩ 0 values
      return result) s (.ok result) fun s' => Agrees s' l latest := by
  have hstaged : ∀ (k : Nat) value, values[k]? = some value →
      contentAt (l.histories token.owner) seq (0 + k) = some value := by
    rw [h.owner]
    exact hvalues
  have hcached : ∀ (k : Nat) value, values[k]? = some value →
      Says l.histories (contentKey ⟨g, seq⟩ (0 + k)) value := by
    intro k value hk
    have hlt := (List.getElem?_eq_some_iff.mp hk).1
    unfold maxColumns at hlength
    exact (says_contentKey (by omega)).mpr (hvalues k value hk)
  refine (StoreM.runs_publish (v := ⟨g, seq⟩) h.mirrors.legible.serves h.tends.self hheld hstaged
    hcached location result).imp fun s' hs' => ?_
  exact (h.mirrors.working h.advises h.owner (hs'.1.tends h.tends.others) hs'.2).agrees (Nat.le_of_eq hseq)

/-- With its number given out, an insert does to the store what it does to the ledger. -/
theorem Agrees.runs_storeVersion (h : Agrees s l latest) {state : TableState}
    (hstate : l.tables g.table = some state) (hlength : values.length = state.columns) :
    Runs (storeVersion (next l.histories g) state.settings values) s
      (l.store g state.settings values).1 fun s' =>
        Agrees s' (l.store g state.settings values).2 latest := by
  have hdepth := Ledger.depth_of_validate (h.mirrors.sound.valid g.table state hstate)
  have hnarrow := h.mirrors.sound.narrow g.table state hstate
  obtain ⟨token, hclaim⟩ := h.runs_claimSlot g hdepth (hlength ▸ hnarrow)
  refine Runs.bind hclaim fun s₁ hs₁ => ?_
  have hall : 0 + values.length ≤ state.columns := by omega
  have hencode := (hs₁.ready hstate).runs_encodeColumns hall #[]
  rw [show #[] ++ (recordsFor l.coder state.settings (l.histories g) 0 values).toArray =
    (l.records g state.settings values).toArray from Array.empty_append] at hencode
  unfold Ledger.store
  simp only
  by_cases hshort : ∀ value ∈ values, value.size < Diff.lengthLimit
  · rw [if_pos hshort] at hencode ⊢
    refine Runs.bind hencode fun s₂ hs₂ => ?_
    have h₂ := hs₁.calm hs₂
    have hagrees := h₂.agrees (Nat.le_refl _)
    rw [List.map_toArray]
    by_cases hrejecting : 0 < l.rejecting
    · -- the row is rejected
      rw [if_pos hrejecting]
      rw [← h₂.mirrors.rejecting] at hrejecting
      refine Runs.bind_error (runs_onRows_error (append_rejected hrejecting) ?_)
      exact hagrees.with_rows (fun _ => rfl) (by rw [h₂.mirrors.rejecting])
    · rw [if_neg hrejecting]
      rw [← h₂.mirrors.rejecting, Nat.not_lt, Nat.le_zero] at hrejecting
      by_cases hfull : slotLimit ≤ (l.places g.table).size
      · -- the table is full
        rw [if_pos hfull]
        rw [← h₂.mirrors.places] at hfull
        obtain ⟨rows, happend, hrows⟩ := append_full (l.row g state.settings values)
          hrejecting hfull
        refine Runs.bind_error (runs_onRows_error happend ?_)
        refine hagrees.with_rows (fun table => ?_) (hrows.rejecting.trans h₂.mirrors.rejecting)
        rw [hrows.rowsOf]
        split
        · rename_i htable
          rw [htable]
        · rfl
      · -- the row is taken, and becomes that of the next version
        rw [if_neg hfull]
        rw [← h₂.mirrors.places, Nat.not_le] at hfull
        obtain ⟨rows, happend, hrows⟩ := append_ok (l.row g state.settings values)
          hrejecting hfull
        refine Runs.bind (P := (· = { s₂ with rows })) (runs_onRows happend rfl) ?_
        rintro s₃ rfl
        have hlast : (l.histories g).length + 1 =
            ((l.append g state.settings values).histories g).length := by
          rw [histories_append, if_pos rfl, List.length_append, List.length_singleton]
        rw [h₂.mirrors.places]
        refine (h₂.append hstate hlength hshort hrows).runs_publish (Nat.lt_succ_self _) hlast
          (hlength ▸ hnarrow) (fun k value hk => ?_) _
        rw [histories_append, if_pos rfl, Nat.zero_add, contentAt_append_last]
        exact hk
  · -- a value is too long
    rw [if_neg hshort] at hencode ⊢
    exact Runs.bind_error (hencode.imp fun s₂ hs₂ => (hs₁.calm hs₂).agrees (Nat.le_refl _))

theorem latest_append (l : Ledger) (g : GroupId) (settings : TableSettings)
    (values : List Bytes) :
    (l.append g settings values).latest = Function.update l.latest g (l.latest g + 1) := by
  funext other
  unfold Ledger.latest
  rw [histories_append]
  by_cases hother : other = g
  · rw [if_pos hother, hother, Function.update_self, List.length_append, List.length_singleton]
  · rw [if_neg hother, Function.update_of_ne hother]

/-- The cached numbers of a store that agrees with a ledger, and those of its rows. -/
theorem Agrees.numbered (h : Agrees s l l.latest) :
    Numbered l.latest s ∧ Gapless s.rows l.latest := by
  have hgapless : Gapless s.rows l.latest := fun g => (h.mirrors.legible.filed g).stored
  have habove : ∀ g, Above s.rows g (l.latest g) :=
    fun g later row hrow => ((hgapless g later).mp ⟨row, hrow⟩).2
  refine ⟨⟨h.mirrors.legible.valid, habove, fun g => ⟨h.advises.wellFormed, ?_⟩⟩, hgapless⟩
  intro seq hseq
  rw [h.advises.holds g seq hseq]
  exact ⟨habove g, Nat.le_refl _⟩

/-- What a store has besides its cached numbers. -/
theorem numberStable_mirrors (l : Ledger) :
    NumberStable fun s => Mirrors s l ∧ Stages s.service.staging l.histories where
  with_sequences _ _ hs := ⟨hs.1.of_rest rfl, hs.2⟩
  with_rows _ _ hrows hs := ⟨hs.1.calm ⟨rfl, hrows, hs.1.legible.serves, id⟩, hs.2⟩

/-- The number that is given out is the one after the latest. -/
theorem Agrees.runs_allocateSeq (h : Agrees s l l.latest) (g : GroupId) :
    Runs (allocateSeq g) s (.ok (l.latest g + 1)) fun s' =>
      Agrees s' l (Function.update l.latest g (l.latest g + 1)) := by
  obtain ⟨seq, s₁, hruns, hgranted, hmirrors, hstages⟩ :=
    h.numbered.1.runs_allocateSeq (numberStable_mirrors l) ⟨h.mirrors, h.stages⟩ g
  have hgapless : Gapless s₁.rows l.latest := fun g => (hmirrors.legible.filed g).stored
  obtain rfl := (hgapless.forGroup g).eq_of_granted hgranted
  refine ⟨s₁, hruns, hmirrors, ⟨hgranted.granted.wellFormed, fun other seq hseq => ?_⟩, hstages⟩
  by_cases hother : other = g
  · subst hother
    rw [Function.update_self]
    exact hgranted.granted.holds seq hseq
  · rw [Function.update_of_ne hother]
    exact (hgapless.forGroup other).eq_of_current ((hgranted.cached other hother).holds seq hseq)

/-- A number is used up exactly if the version is stored. -/
theorem latest_store (l : Ledger) (g : GroupId) (settings : TableSettings)
    (values : List Bytes) :
    (∃ outcome, (l.store g settings values).1 = .ok outcome ∧
      (l.store g settings values).2.latest = Function.update l.latest g (l.latest g + 1)) ∨
    ∃ error, (l.store g settings values).1 = .error error ∧
      (l.store g settings values).2.latest = l.latest := by
  unfold Ledger.store
  simp only
  split
  · split
    · exact .inr ⟨_, rfl, rfl⟩
    · split
      · exact .inr ⟨_, rfl, rfl⟩
      · exact .inl ⟨_, rfl, latest_append l g settings values⟩
  · exact .inr ⟨_, rfl, rfl⟩

/-- An insert does to the store what it does to the ledger. -/
theorem Agrees.runs_insertRow (h : Agrees s l l.latest) (table : TableId) (key : Key)
    (values : List Bytes) :
    Runs (insertRow table key values) s (l.insert table key values).1 fun s' =>
      Agrees s' (l.insert table key values).2 (l.insert table key values).2.latest := by
  unfold insertRow Ledger.insert
  rw [← h.mirrors.unpacker, ← h.mirrors.tables]
  cases hkey : key.fingerprint s.unpacker with
  | error cause => exact Runs.bind_error (runs_fingerprint_error hkey h)
  | ok group =>
    refine Runs.bind (P := (· = s)) (runs_fingerprint hkey rfl) ?_
    rintro s rfl
    cases htable : s.tables[table]? with
    | none => exact Runs.bind_error (runs_tableState_error htable h)
    | some state =>
      refine Runs.bind (P := (· = s)) (runs_tableState htable rfl) ?_
      rintro s rfl
      simp only
      split
      · exact .throw h
      · rename_i hlength
        rw [ne_eq, Decidable.not_not] at hlength
        have hstate : l.tables table = some state := (h.mirrors.tables table).symm.trans htable
        refine Runs.bind (h.runs_allocateSeq ⟨table, group⟩) fun s₁ hs₁ => ?_
        have hstore : Runs (storeVersion ⟨⟨table, group⟩, l.latest ⟨table, group⟩ + 1⟩ state.settings
            values) s₁ _ _ := hs₁.runs_storeVersion hstate hlength
        rcases latest_store l ⟨table, group⟩ state.settings values with
          ⟨outcome, hresult, hlatest⟩ | ⟨error, hresult, hlatest⟩
        · rw [hresult] at hstore ⊢
          rw [hlatest]
          exact Runs.tryCatch_ok hstore
        · rw [hresult] at hstore ⊢
          rw [hlatest]
          -- the number goes back
          refine Runs.tryCatch_error hstore fun s₂ hs₂ => ?_
          have hback := hs₂.advises.rollback ⟨table, group⟩
            (fun other hother => Function.update_of_ne hother _ l.latest)
            (Function.update_self _ _ l.latest)
          refine Runs.bind (P := fun s' => Agrees s'
            (l.store ⟨table, group⟩ state.settings values).2 l.latest)
            (runs_sequences ⟨hs₂.mirrors.of_rest rfl, hback, hs₂.stages⟩) fun s₃ hs₃ => ?_
          exact .throw hs₃

/-- An insert that publishes its statistics. -/
theorem Agrees.runs_insert (h : Agrees s l l.latest) (table : TableId) (key : Key)
    (values : List Bytes) :
    Runs (StoreM.insert table key values) s (l.insert table key values).1 fun s' =>
      Agrees s' (l.insert table key values).2 (l.insert table key values).2.latest := by
  have hrow := h.runs_insertRow table key values
  unfold StoreM.insert
  cases hresult : (l.insert table key values).1 with
  | error cause =>
    rw [hresult] at hrow
    exact Runs.bind_error hrow
  | ok outcome =>
    rw [hresult] at hrow
    exact Runs.bind hrow fun s₁ hs₁ =>
      Runs.bind (runs_modify (hs₁.with_statistics _)) fun s₂ hs₂ => .pure hs₂

end VersionChain
