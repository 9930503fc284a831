import Mathlib.Data.List.Perm.Subperm
import VersionChain.Proofs.Staging.Tokens
import VersionChain.Proofs.Store.Records
import VersionChain.Proofs.Store.Resolve
import VersionChain.Store.Insert

/-!
# Where bases come from

The bases for the next version of a group come from the staging buffer, and those that are not
staged are rebuilt. However many are staged, together they are the latest versions, each once and
the nearest first; so the record of a value is the one that the history calls for.

* `Ready` — the token of the group is current, and the rows stand for its history;
* `Ready.runs_collectBases` — the bases are the latest versions;
* `Ready.runs_encodeColumns` — the records are those that the history calls for.
-/

namespace VersionChain

variable {history : List (List Bytes)} {column : Nat}

/-! ## Staged and missing bases -/

/-- Bases in strictly ascending order are known by their members. -/
theorem eq_basesFrom {bases : List RecentBase} {distance count : Nat}
    (hsorted : bases.Pairwise fun a b => a.distance < b.distance)
    (hperm : bases.Perm (basesFrom history column distance count)) :
    bases = basesFrom history column distance count := by
  have hanti : ∀ a b : RecentBase, a ∈ bases → b ∈ basesFrom history column distance count →
      a.distance < b.distance → b.distance < a.distance → a = b :=
    fun _ _ _ _ hlt hgt => absurd hlt (Nat.lt_asymm hgt)
  exact hperm.eq_of_pairwise hanti hsorted (pairwise_basesFrom distance count)

theorem nodup_of_distances {bases : List RecentBase}
    (hsorted : bases.Pairwise fun a b => a.distance < b.distance) : bases.Nodup :=
  hsorted.imp fun hlt heq => Nat.ne_of_lt hlt (congrArg RecentBase.distance heq)

/-- What is offered to the next version is among the latest ones. -/
theorem mem_basesFrom_of_offers {depth : Nat} {base : RecentBase}
    (h : Ring.Offers (contentAt history) (history.length + 1) column depth base) :
    base ∈ basesFrom history column 1 (min depth history.length) := by
  obtain ⟨hpos, hbefore, hdistance, hnear, hcontent⟩ := h
  exact mem_basesFrom.mpr ⟨by omega, by omega, by omega, hcontent⟩

/-- Bases that are as many as they can be are all there are. -/
theorem eq_basesFrom_of_length {bases : List RecentBase} {count : Nat}
    (hsorted : bases.Pairwise fun a b => a.distance < b.distance)
    (hmem : ∀ base ∈ bases, base ∈ basesFrom history column 1 count)
    (hlength : bases.length = count) : bases = basesFrom history column 1 count := by
  have hsub : bases.Subperm (basesFrom history column 1 count) :=
    (nodup_of_distances hsorted).subperm hmem
  refine eq_basesFrom hsorted (hsub.perm_of_length_le ?_)
  rw [hlength]
  exact (List.length_filterMap_le _ _).trans (Nat.le_of_eq List.length_range')

/-- Bases that are among the latest, and the others behind them. -/
theorem sortByDistance_append {bases : List RecentBase} {count : Nat}
    (hsorted : bases.Pairwise fun a b => a.distance < b.distance)
    (hmem : ∀ base ∈ bases, base ∈ basesFrom history column 1 count)
    (hcount : count ≤ history.length) :
    RecentBase.sortByDistance (bases ++ (basesFrom history column 1 count).filter fun b =>
      !bases.any (·.seq = b.seq)) = basesFrom history column 1 count := by
  let others := (basesFrom history column 1 count).filter fun b => !bases.any (·.seq = b.seq)
  have hothers : ∀ b, b ∈ others ↔
      b ∈ basesFrom history column 1 count ∧ ∀ a ∈ bases, a.seq ≠ b.seq := by
    intro b
    rw [List.mem_filter]
    simp
  -- bases of different versions are at different distances
  have hdistinct : (bases ++ others).Pairwise fun a b => a.distance ≠ b.distance := by
    rw [List.pairwise_append]
    refine ⟨hsorted.imp Nat.ne_of_lt, ?_, ?_⟩
    · exact ((pairwise_basesFrom _ _).imp Nat.ne_of_lt).sublist List.filter_sublist
    · intro a ha b hb hdistance
      obtain ⟨hbmem, hne⟩ := (hothers b).mp hb
      obtain ⟨-, -, haseq, -⟩ := mem_basesFrom.mp (hmem a ha)
      obtain ⟨-, -, hbseq, -⟩ := mem_basesFrom.mp hbmem
      exact hne a ha (by rw [haseq, hbseq, hdistance])
  have hperm : (RecentBase.sortByDistance (bases ++ others)).Perm (bases ++ others) :=
    List.mergeSort_perm _ _
  refine eq_basesFrom (Ring.pairwise_sortByDistance hdistinct) (hperm.trans ?_)
  refine (List.perm_ext_iff_of_nodup ?_ (nodup_of_distances (pairwise_basesFrom _ _))).mpr ?_
  · exact hdistinct.imp fun hne heq => hne (congrArg RecentBase.distance heq)
  · intro b
    rw [List.mem_append, hothers]
    constructor
    · rintro (hb | ⟨hb, -⟩)
      · exact hmem b hb
      · exact hb
    · intro hb
      by_cases hstaged : ∃ a ∈ bases, a.seq = b.seq
      · -- a version has one distance and one content
        obtain ⟨a, ha, hseq⟩ := hstaged
        obtain ⟨hapos, hale, haseq, hacontent⟩ := mem_basesFrom.mp (hmem a ha)
        obtain ⟨hbpos, hble, hbseq, hbcontent⟩ := mem_basesFrom.mp hb
        have hcontent : a.content = b.content := by
          rw [hseq, hbcontent] at hacontent
          exact (Option.some.inj hacontent).symm
        have hab : a = b := by
          obtain ⟨seq, distance, content⟩ := a
          obtain ⟨seq', distance', content'⟩ := b
          simp only at *
          obtain rfl : distance = distance' := by omega
          rw [hseq, hcontent]
        exact .inl (hab ▸ ha)
      · exact .inr ⟨hb, fun a ha hseq => hstaged ⟨a, ha, hseq⟩⟩

namespace StoreM

variable {P : ContentKey → Bytes → Prop} {contents : Histories} {s s' : Store MemoryRows}
  {coder : DiffCoder} {settings : TableSettings} {columns : Nat} {g : GroupId} {token : Token}

/-- The number of the next version of a group. -/
def next (contents : Histories) (g : GroupId) : VersionId := ⟨g, (contents g).length + 1⟩

theorem runs_missingBases (h : LegibleFor P s g (contents g)) (hcolumn : column < 65536)
    (bases : List RecentBase) (distance count : Nat) :
    Runs (missingBases (next contents g) column bases distance count) s
      (.ok ((basesFrom (contents g) column distance count).filter fun b =>
        !bases.any (·.seq = b.seq))) (Quiet P s) := by
  induction count generalizing s distance with
  | zero => exact .pure (quiet_refl h.serves)
  | succ count ih =>
    have hsplit : basesFrom (contents g) column distance (count + 1) =
        (baseAt (contents g) column distance).toList ++
          basesFrom (contents g) column (distance + 1) count := by
      unfold basesFrom
      rw [List.range'_succ, List.filterMap_cons]
      cases baseAt (contents g) column distance <;> rfl
    rw [hsplit, List.filter_append]
    unfold missingBases
    simp only [show (next contents g).seq = (contents g).length + 1 from rfl]
    by_cases hstaged : bases.any (·.seq = (contents g).length + 1 - distance) = true
    · -- the version at this distance is staged
      have hskip : (baseAt (contents g) column distance).toList.filter
          (fun b => !bases.any (·.seq = b.seq)) = [] := by
        rw [List.filter_eq_nil_iff]
        intro b hb
        rw [(baseAt_eq_some.mp (Option.mem_toList.mp hb)).2.1, hstaged]
        simp
      rw [hskip, List.nil_append, if_pos hstaged]
      exact ih h (distance + 1)
    · -- its content is rebuilt
      rw [if_neg hstaged]
      have hresolve := h.runs_resolve ((contents g).length + 1 - distance) hcolumn
      cases hcontent : contentAt (contents g) ((contents g).length + 1 - distance) column with
      | none =>
        rw [hcontent] at hresolve
        refine Quiet.bind hresolve fun s₁ hs₁ => ?_
        have hnone : baseAt (contents g) column distance = none := by
          unfold baseAt
          rw [hcontent]
          rfl
        rw [hnone]
        exact ih (h.quiet hs₁) (distance + 1)
      | some content =>
        rw [hcontent] at hresolve
        refine Quiet.bind hresolve fun s₁ hs₁ => ?_
        refine Quiet.bind (ih (h.quiet hs₁) (distance + 1)) fun s₂ hs₂ => ?_
        have hsome : baseAt (contents g) column distance =
            some ⟨(contents g).length + 1 - distance, distance, content⟩ := by
          unfold baseAt
          rw [hcontent]
          rfl
        rw [hsome, Option.toList_some, List.filter_cons_of_pos (by simpa using hstaged)]
        exact .pure (quiet_refl hs₂.serves)

/-! ## The records of a version -/

/-- The token of a group is current, its ring has right contents, and the rows stand for its
history. -/
structure Ready (P : ContentKey → Bytes → Prop) (s : Store MemoryRows) (contents : Histories)
    (coder : DiffCoder) (depth columns : Nat) (g : GroupId) (token : Token) : Prop where
  legible : LegibleFor P s g (contents g)
  codec : s.codec = coder.codec
  full : Full (contents g) columns
  narrow : columns ≤ maxColumns
  tracks : s.service.staging.Tracks token (contentAt (contents g)) (contents g).length depth

theorem Ready.quiet {depth : Nat} (h : Ready P s contents coder depth columns g token)
    (hquiet : Quiet P s s') : Ready P s' contents coder depth columns g token where
  legible := h.legible.quiet hquiet
  codec := hquiet.codec.trans h.codec
  full := h.full
  narrow := h.narrow
  tracks := by
    rw [hquiet.staging]
    exact h.tracks

theorem Ready.column_lt {depth : Nat} (h : Ready P s contents coder depth columns g token)
    (hcolumn : column < columns) : column < 65536 := by
  have hnarrow := h.narrow
  unfold maxColumns at hnarrow
  omega

/-- Wherever they come from, the bases are the latest versions. -/
theorem Ready.runs_collectBases {depth : Nat} (h : Ready P s contents coder depth columns g token)
    (hcolumn : column < columns) :
    Runs (collectBases (next contents g) column depth token) s
      (.ok (basesFrom (contents g) column 1 (min depth (contents g).length)))
      (Quiet P s) := by
  obtain ⟨hoffers, hsorted, hsame⟩ := h.tracks.recentBases ((contents g).length + 1) column
    (min depth (contents g).length)
  have hmem := fun base hbase => mem_basesFrom_of_offers (hoffers base hbase)
  unfold collectBases
  refine Quiet.bind (runs_staging ?_) fun s₁ hs₁ => ?_
  · simp only [next, Nat.add_sub_cancel, hsame]
    exact quiet_refl h.legible.serves
  · have h₁ := h.legible.quiet hs₁
    simp only [next, Nat.add_sub_cancel]
    split
    · rename_i hlength
      rw [eq_basesFrom_of_length hsorted hmem hlength]
      exact .pure (quiet_refl h₁.serves)
    · refine Quiet.bind (runs_missingBases h₁ (h.column_lt hcolumn) _ 1 _) fun s₂ hs₂ => ?_
      rw [sortByDistance_append hsorted hmem (Nat.min_le_right _ _)]
      exact .pure (quiet_refl hs₂.serves)

/-- Candidates at these bases give the records that the history calls for. -/
theorem records_of_candidates {bases : List RecentBase} {value : Bytes}
    (hshort : ∀ b ∈ bases, b.content.size < Diff.lengthLimit)
    (hvalue : value.size < Diff.lengthLimit) :
    (bases.map fun b => (⟨.back (.ofNat b.distance), b.content⟩ : Candidate)).filterMap
        (Candidate.record? coder.codec value settings.extraPass) =
      bases.map fun b =>
        taggedRecord coder settings value (.back (.ofNat b.distance)) b.content := by
  rw [List.filterMap_map, ← List.filterMap_eq_map]
  refine List.filterMap_congr fun b hb => ?_
  show ((coder.encode _ b.content value settings.extraPass).record?.map _) = _
  rw [coder.encode_eq_record _ settings.extraPass (hshort b hb) hvalue]
  rfl

theorem keyframe?_eq (coder : DiffCoder) (settings : TableSettings) {value : Bytes}
    (hvalue : value.size < Diff.lengthLimit) :
    TaggedRecord.keyframe? coder.codec value settings.extraPass =
      some (taggedRecord coder settings value .keyframe #[]) := by
  show ((coder.encode .keyframe #[] value settings.extraPass).record?.map _) = _
  rw [coder.encode_eq_record .keyframe settings.extraPass (by decide) hvalue]
  rfl

/-- A value that is too long has no record. -/
theorem keyframe?_eq_none (coder : DiffCoder) (extraPass : Bool) {value : Bytes}
    (hvalue : ¬ value.size < Diff.lengthLimit) :
    TaggedRecord.keyframe? coder.codec value extraPass = none := by
  show ((coder.encode .keyframe #[] value extraPass).record?.map _) = _
  unfold DiffCoder.encode
  rw [if_neg fun hboth => hvalue hboth.1]
  rfl

theorem Ready.runs_encodeColumn
    (h : Ready P s contents coder settings.depth columns g token) (hcolumn : column < columns)
    {value : Bytes} (hvalue : value.size < Diff.lengthLimit) :
    Runs (encodeColumn (next contents g) column settings token value) s
      (.ok (recordFor coder settings (contents g) column value)) (Quiet P s) := by
  unfold encodeColumn recordFor
  refine Runs.bind (P := (· = s)) (runs_get rfl) ?_
  rintro s rfl
  simp only [h.codec, keyframe?_eq coder settings hvalue]
  show Runs (if settings.forcesKeyframe ((contents g).length + 1) then _ else _) s _ _
  split
  · exact .pure (quiet_refl h.legible.serves)
  · refine Quiet.bind (h.runs_collectBases hcolumn) fun s₁ hs₁ => ?_
    have hshort : ∀ b ∈ basesFrom (contents g) column 1 (min settings.depth (contents g).length),
        b.content.size < Diff.lengthLimit :=
      fun b hb => h.full.size_lt (mem_basesFrom.mp hb).2.2.2
    rw [← records_of_candidates hshort hvalue, ← Scheduler.execute_eq s₁.service.scheduler]
    exact runs_scheduler ⟨rfl, rfl, hs₁.serves, id⟩

theorem runs_encodeColumn_long (h : s.service.content.Serves P) (hcodec : s.codec = coder.codec)
    {v : VersionId} {value : Bytes} (hvalue : ¬ value.size < Diff.lengthLimit) :
    Runs (encodeColumn v column settings token value) s (.error .noKeyframe) (Quiet P s) := by
  unfold encodeColumn
  refine Runs.bind (P := (· = s)) (runs_get rfl) ?_
  rintro s rfl
  simp only [hcodec, keyframe?_eq_none coder settings.extraPass hvalue]
  exact .throw (quiet_refl h)

/-- The records of a version are those that the history calls for; there are none if a value is
too long. -/
theorem Ready.runs_encodeColumns
    (h : Ready P s contents coder settings.depth columns g token) {values : List Bytes}
    (hcolumns : column + values.length ≤ columns) (done : Array TaggedRecord) :
    Runs (encodeColumns (next contents g) column settings token done values) s
      (if ∀ value ∈ values, value.size < Diff.lengthLimit then
        .ok (done ++ (recordsFor coder settings (contents g) column values).toArray)
      else .error .noKeyframe) (Quiet P s) := by
  induction values generalizing s column done with
  | nil =>
    rw [if_pos fun value hvalue => (List.not_mem_nil hvalue).elim]
    simp only [recordsFor, Array.append_empty]
    exact .pure (quiet_refl h.legible.serves)
  | cons value rest ih =>
    rw [List.length_cons] at hcolumns
    have hlater : column + 1 + rest.length ≤ columns := by omega
    unfold encodeColumns
    -- the first value that is too long ends the insert
    by_cases hvalue : value.size < Diff.lengthLimit
    · refine Quiet.bind (h.runs_encodeColumn (by omega) hvalue) fun s₁ hs₁ => ?_
      have hrest := ih (h.quiet hs₁) hlater
        (done.push (recordFor coder settings (contents g) column value))
      have hpush : ∀ l : List TaggedRecord,
          done.push (recordFor coder settings (contents g) column value) ++ l.toArray =
            done ++ (recordFor coder settings (contents g) column value :: l).toArray := by
        intro l
        simp
      simp only [List.forall_mem_cons, hvalue, true_and, recordsFor]
      rw [hpush] at hrest
      exact hrest
    · rw [if_neg fun hall => hvalue (hall value List.mem_cons_self)]
      exact Runs.bind_error (runs_encodeColumn_long h.legible.serves h.codec hvalue)

end StoreM

end VersionChain
