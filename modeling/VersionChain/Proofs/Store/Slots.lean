import VersionChain.Proofs.Staging.Rings
import VersionChain.Proofs.Store.Quiet
import VersionChain.Store.Insert

/-!
# Slots for groups

Before a version is written, its group is given a slot, and a slot that was claimed anew is filled
with the versions before it; once its row is stored, the version is staged and cached. For this it
only matters that no wrong content is rebuilt. Some may be missing.

* `Restages` — nothing differs but caches, staging, the scheduler and the counters of the rows;
* `Recalls` — what is rebuilt for a group is right;
* `Recalls.runs_claimSlot` — the ring of a slot is right;
* `runs_publish` — what is left to do once a row is stored.
-/

namespace VersionChain.StoreM

open MemoryRows StagingBuffer

/-- Nothing differs but the caches of contents and locations, the staging buffer, the scheduler and
the counters of the rows, and the contents cached have a property. -/
def Restages (P : ContentKey → Bytes → Prop) (s s' : Store MemoryRows) : Prop :=
  Quiet P { s with service := { s.service with staging := s'.service.staging } } s'

/-- What is rebuilt for a group is right, now and whatever is staged and rebuilt before. -/
structure Recalls (P : ContentKey → Bytes → Prop) (g : GroupId)
    (content : Nat → Nat → Option Bytes) (s : Store MemoryRows) : Prop where
  serves : s.service.content.Serves P
  resolve : ∀ s', Restages P s s' → ∀ seq column, column < 65536 →
    ∃ found, Runs (resolve ⟨g, seq⟩ column) s' (.ok found) (Quiet P s') ∧
      ∀ value, found = some value → content seq column = some value

variable {P : ContentKey → Bytes → Prop} {content : Nat → Nat → Option Bytes}
  {b : StagingBuffer} {s s' s'' : Store MemoryRows} {g : GroupId} {token : Token}
  {held bound depth columns : Nat} {values : List Bytes}

/-! ## What differs -/

theorem Quiet.restages (h : Quiet P s s') : Restages P s s' := by
  unfold Restages
  rw [h.staging]
  exact h

theorem Restages.trans (h : Restages P s s') (h' : Restages P s' s'') : Restages P s s'' := by
  have hearlier : Quiet P { s with service := { s.service with staging := s''.service.staging } }
      { s' with service := { s'.service with staging := s''.service.staging } } := by
    refine ⟨?_, h.rows, h.serves, h.sound⟩
    have hrest := h.rest
    exact congrArg (fun x : Store MemoryRows =>
      { x with service := { x.service with staging := s''.service.staging } }) hrest
  exact Quiet.trans hearlier h'

/-- Only the staging buffer has changed. -/
theorem restages_staging (h : s.service.content.Serves P) (b : StagingBuffer) :
    Restages P s { s with service := { s.service with staging := b } } := quiet_refl h

theorem Recalls.restages (h : Recalls P g content s) (hs' : Restages P s s') :
    Recalls P g content s' where
  serves := hs'.serves
  resolve s'' hs'' := h.resolve s'' (hs'.trans hs'')

/-! ## Claiming and filling a slot -/

theorem Recalls.exists_resolveColumns (h : Recalls P g content s) (seq : Nat)
    {column count : Nat} (hcount : column + count ≤ 65536) :
    ∃ contents, Runs (resolveColumns ⟨g, seq⟩ column count) s (.ok contents) (Quiet P s) ∧
      Truthful content seq column contents := by
  induction count generalizing s column with
  | zero => exact ⟨[], .pure (quiet_refl h.serves), nofun⟩
  | succ count ih =>
    obtain ⟨first, ⟨s₁, hfirst, hs₁⟩, hright⟩ :=
      h.resolve s (quiet_refl h.serves).restages seq column (by omega)
    have hlater : column + 1 + count ≤ 65536 := by omega
    obtain ⟨rest, hrest, htrue⟩ := ih (h.restages hs₁.restages) hlater
    refine ⟨first :: rest, ?_, fun k value hk => ?_⟩
    · refine Runs.bind_of_eq hfirst (Runs.bind hrest fun s₂ hs₂ => ?_)
      exact .pure (hs₁.trans hs₂)
    · cases k with
      | zero => exact hright value (Option.some.inj hk)
      | succ k =>
        rw [Nat.add_comm k 1, ← Nat.add_assoc]
        exact htrue k value hk

theorem Recalls.exists_warmRows (h : Recalls P g content s)
    (hcolumns : columns ≤ maxColumns) (seq count : Nat) :
    ∃ rows, Runs (warmRows g columns seq count) s (.ok rows) (Quiet P s) ∧
      rows.Pairwise (fun x y => x.seq < y.seq) ∧
      ∀ row ∈ rows, seq ≤ row.seq ∧ row.seq < seq + count ∧
        Truthful content row.seq 0 row.columns := by
  induction count generalizing s seq with
  | zero => exact ⟨[], .pure (quiet_refl h.serves), .nil, fun row hrow => nomatch hrow⟩
  | succ count ih =>
    have hnarrow : 0 + columns ≤ 65536 := by
      unfold maxColumns at hcolumns
      omega
    obtain ⟨contents, ⟨s₁, hcontents, hs₁⟩, htrue⟩ := h.exists_resolveColumns seq hnarrow
    obtain ⟨rows, hrows, hascending, hbound⟩ := ih (h.restages hs₁.restages) (seq + 1)
    have hlater : ∀ row ∈ rows, seq ≤ row.seq ∧ row.seq < seq + (count + 1) ∧
        Truthful content row.seq 0 row.columns := by
      intro row hrow
      obtain ⟨hle, hlt, hrowTrue⟩ := hbound row hrow
      exact ⟨by omega, by omega, hrowTrue⟩
    refine ⟨if contents.any Option.isSome then ⟨seq, contents⟩ :: rows else rows, ?_, ?_, ?_⟩
    · refine Runs.bind_of_eq hcontents (Runs.bind hrows fun s₂ hs₂ => ?_)
      exact .pure (hs₁.trans hs₂)
    · split
      · refine List.pairwise_cons.mpr ⟨fun row hrow => ?_, hascending⟩
        exact (hbound row hrow).1
      · exact hascending
    · intro row hrow
      split at hrow
      · rcases List.mem_cons.mp hrow with rfl | hrest
        · exact ⟨Nat.le_refl _, Nat.lt_add_of_pos_right (Nat.succ_pos count), htrue⟩
        · exact hlater row hrest
      · exact hlater row hrow

/-- A slot that was claimed anew is filled with versions before the next one. -/
theorem Recalls.runs_warmSlot {v : VersionId} (h : Recalls P v.toGroupId content s)
    (hminds : Minds b s.service.staging token content 0 depth) (hcolumns : columns ≤ maxColumns)
    (hheld : v.seq ≤ held + 1) :
    Runs (warmSlot v depth columns token) s (.ok ()) fun s' =>
      Minds b s'.service.staging token content held depth ∧ Restages P s s' := by
  let first := max (v.seq - depth) 1
  obtain ⟨rows, ⟨s₁, hrows, hs₁⟩, hascending, hbound⟩ :=
    h.exists_warmRows hcolumns first (v.seq - first)
  have hfilled : Minds b (s₁.service.staging.populate token rows).2 token content held depth := by
    rw [hs₁.staging]
    refine hminds.populate hascending (fun row hrow => ?_) fun row hrow => (hbound row hrow).2.2
    obtain ⟨hle, hlt, -⟩ := hbound row hrow
    omega
  refine Runs.bind_of_eq hrows (Runs.bind (runs_staging ?_) fun s₂ hs₂ => .pure hs₂)
  exact ⟨hfilled, hs₁.restages.trans (restages_staging hs₁.serves _)⟩

/-- With a slot for its group, the ring of the group holds versions before the next one. -/
theorem Recalls.runs_claimSlot {v : VersionId} (h : Recalls P v.toGroupId content s)
    (hvalid : s.service.staging.Valid)
    (hring : ∀ ring, s.service.staging.ringFor v.toGroupId = some ring →
      ring.Records content bound)
    (hdepth : 1 ≤ depth ∧ depth ≤ maxDepth) (hcolumns : columns ≤ maxColumns)
    (hseq : v.seq ≤ bound + 1) :
    ∃ token, token.owner = v.toGroupId ∧
      Runs (claimSlot v depth columns) s (.ok token) fun s' =>
        Minds s.service.staging s'.service.staging token content bound depth ∧
          Restages P s s' := by
  have hacquired := hvalid.acquire v.toGroupId depth columns
  have hclamp : clampDepth depth = depth := by
    unfold clampDepth maxShape
    unfold maxDepth at hdepth
    omega
  rw [hclamp] at hacquired
  let acquire (b : StagingBuffer) := b.acquire v.toGroupId depth columns
  let token := (acquire s.service.staging).1
  let isNew := (acquire s.service.staging).2.1
  have hminds := hacquired.minds hdepth.1 hring
  let s₁ : Store MemoryRows :=
    { s with service := { s.service with staging := (acquire s.service.staging).2.2 } }
  have hs₁ : Restages P s s₁ := restages_staging h.serves _
  refine ⟨token, hacquired.holder, Runs.bind_of_eq (staging_eq _ s) ?_⟩
  show Runs (if isNew = true ∧ 1 < v.seq then _ else _) s₁ _ _
  split
  · rename_i hnew
    rw [if_pos hnew.1] at hminds
    refine Runs.bind ((h.restages hs₁).runs_warmSlot hminds hcolumns hseq) ?_
    exact fun s₂ hs₂ => .pure ⟨hs₂.1, hs₁.trans hs₂.2⟩
  · -- a slot that is kept, or a group without versions
    refine .pure ⟨hminds.mono ?_, hs₁⟩
    split
    · exact Nat.zero_le _
    · exact Nat.le_refl _

/-! ## Bases -/

theorem Recalls.exists_missingBases {v : VersionId} (h : Recalls P v.toGroupId content s)
    {column : Nat} (hcolumn : column < 65536) (bases : List RecentBase) {distance count : Nat}
    (hpos : 1 ≤ distance) (hbefore : distance + count ≤ v.seq)
    (hnear : distance + count ≤ depth + 1) :
    ∃ missing, Runs (missingBases v column bases distance count) s (.ok missing) (Quiet P s) ∧
      ∀ base ∈ missing, Ring.Offers content v.seq column depth base := by
  induction count generalizing s distance with
  | zero => exact ⟨[], .pure (quiet_refl h.serves), fun base hbase => nomatch hbase⟩
  | succ count ih =>
    have hlater : ∀ s', Quiet P s s' → ∃ missing,
        Runs (missingBases v column bases (distance + 1) count) s' (.ok missing) (Quiet P s') ∧
          ∀ base ∈ missing, Ring.Offers content v.seq column depth base :=
      fun s' hs' => ih (h.restages hs'.restages) (by omega) (by omega) (by omega)
    unfold missingBases
    simp only
    by_cases hstaged : bases.any (·.seq = v.seq - distance) = true
    · rw [if_pos hstaged]
      exact hlater s (quiet_refl h.serves)
    · rw [if_neg hstaged]
      obtain ⟨found, ⟨s₁, hresolve, hs₁⟩, hright⟩ := h.resolve s (quiet_refl h.serves).restages
        (v.seq - distance) column hcolumn
      obtain ⟨missing, hmissing, hoffers⟩ := hlater s₁ hs₁
      cases found with
      | none =>
        exact ⟨missing, Runs.bind_of_eq hresolve (hmissing.imp fun _ => hs₁.trans), hoffers⟩
      | some value =>
        refine ⟨⟨v.seq - distance, distance, value⟩ :: missing, ?_, fun base hbase => ?_⟩
        · refine Runs.bind_of_eq hresolve (Runs.bind hmissing fun s₂ hs₂ => ?_)
          exact .pure (hs₁.trans hs₂)
        · rcases List.mem_cons.mp hbase with rfl | hrest
          · exact {
              positive := by show 1 ≤ v.seq - distance; omega
              before := by show v.seq - distance < v.seq; omega
              distance := by show distance = v.seq - (v.seq - distance); omega
              near := by show distance ≤ depth; omega
              content := hright value rfl }
          · exact hoffers base hrest

/-- Wherever the bases of a version come from, they are right. -/
theorem Recalls.exists_collectBases {v : VersionId} (h : Recalls P v.toGroupId content s)
    {column : Nat} (hcolumn : column < 65536)
    (htracks : s.service.staging.Tracks token content held depth) (hpos : 0 < v.seq) :
    ∃ bases, Runs (collectBases v column depth token) s (.ok bases) (Quiet P s) ∧
      ∀ base ∈ bases, Ring.Offers content v.seq column depth base := by
  let wanted := min depth (v.seq - 1)
  let staged := (s.service.staging.recentBases token v.seq column wanted).1
  obtain ⟨hoffers, -, hsame⟩ := htracks.recentBases v.seq column wanted
  have hread : staging (·.recentBases token v.seq column wanted) s = (.ok staged, s) := by
    rw [staging_eq, hsame]
  by_cases hall : staged.length = wanted
  · refine ⟨staged, Runs.bind_of_eq hread ?_, hoffers⟩
    rw [if_pos hall]
    exact .pure (quiet_refl h.serves)
  · have hrebuilt : ∃ missing,
        Runs (missingBases v column staged 1 wanted) s (.ok missing) (Quiet P s) ∧
          ∀ base ∈ missing, Ring.Offers content v.seq column depth base :=
      h.exists_missingBases hcolumn staged (Nat.le_refl 1) (by omega) (by omega)
    obtain ⟨missing, hmissing, hothers⟩ := hrebuilt
    refine ⟨RecentBase.sortByDistance (staged ++ missing), Runs.bind_of_eq hread ?_, ?_⟩
    · rw [if_neg hall]
      exact Runs.bind hmissing fun s₁ hs₁ => .pure hs₁
    · intro base hbase
      rcases List.mem_append.mp ((List.mergeSort_perm _ _).mem_iff.mp hbase) with hmem | hmem
      · exact hoffers base hmem
      · exact hothers base hmem

/-! ## After a row was stored -/

theorem runs_stageColumns (hserves : s.service.content.Serves P)
    (hminds : Minds b s.service.staging token content held depth) {seq column : Nat}
    (hvalues : ∀ (k : Nat) value, values[k]? = some value →
      content seq (column + k) = some value) :
    Runs (stageColumns token seq column values) s (.ok ()) fun s' =>
      Minds b s'.service.staging token content held depth ∧ Restages P s s' := by
  induction values generalizing s column with
  | nil => exact .pure ⟨hminds, (quiet_refl hserves).restages⟩
  | cons value rest ih =>
    let s₁ : Store MemoryRows := { s with service := { s.service with
      staging := (s.service.staging.push token seq column value).2 } }
    have hpushed : Minds b s₁.service.staging token content held depth :=
      hminds.push (hvalues 0 value rfl)
    have hs₁ : Restages P s s₁ := restages_staging hserves _
    refine Runs.bind_of_eq (staging_eq _ s) ((ih hs₁.serves hpushed fun k later hk => ?_).imp ?_)
    · rw [Nat.add_assoc, Nat.add_comm 1 k]
      exact hvalues (k + 1) later hk
    · exact fun s' hs' => ⟨hs'.1, hs₁.trans hs'.2⟩

theorem runs_cacheColumns (h : s.service.content.Serves P) {v : VersionId} {column : Nat}
    (hvalues : ∀ (k : Nat) value, values[k]? = some value → P (contentKey v (column + k)) value) :
    Runs (cacheColumns v column values) s (.ok ()) (Quiet P s) := by
  induction values generalizing s column with
  | nil => exact .pure (quiet_refl h)
  | cons value rest ih =>
    refine Quiet.bind (runs_content_put h (hvalues 0 value rfl)) fun s₁ hs₁ => ?_
    refine ih hs₁.serves fun k later hk => ?_
    rw [Nat.add_assoc, Nat.add_comm 1 k]
    exact hvalues (k + 1) later hk

/-- Once its row is stored, a version is staged and cached. -/
theorem runs_publish (hserves : s.service.content.Serves P)
    (hminds : Minds b s.service.staging token content held depth) {v : VersionId}
    (hheld : held < v.seq)
    (hstaged : ∀ (k : Nat) value, values[k]? = some value →
      content v.seq (0 + k) = some value)
    (hcached : ∀ (k : Nat) value, values[k]? = some value → P (contentKey v (0 + k)) value)
    (location : Location) {α : Type} (result : α) :
    Runs (do
      stageColumns token v.seq 0 values
      let _ ← staging (·.commit token v.seq)
      recordLocation location v
      cacheColumns v 0 values
      return result) s (.ok result) fun s' =>
        Minds b s'.service.staging token content v.seq depth ∧ Restages P s s' := by
  refine Runs.bind (runs_stageColumns hserves hminds hstaged) fun s₁ hs₁ => ?_
  let s₂ : Store MemoryRows := { s₁ with service := { s₁.service with
    staging := (s₁.service.staging.commit token v.seq).2 } }
  have hcommitted : Minds b s₂.service.staging token content v.seq depth := hs₁.1.commit hheld
  have hs₂ : Restages P s s₂ := hs₁.2.trans (restages_staging hs₁.2.serves _)
  have hcommit : staging (·.commit token v.seq) s₁ =
      (.ok (s₁.service.staging.commit token v.seq).1, s₂) := staging_eq _ s₁
  refine Runs.bind_of_eq hcommit ?_
  refine Runs.bind (runs_recordLocation hs₂.serves location v) fun s₃ hs₃ => ?_
  refine Runs.bind (runs_cacheColumns hs₃.serves hcached) fun s₄ hs₄ => ?_
  have hquiet := hs₃.trans hs₄
  refine .pure ⟨?_, hs₂.trans hquiet.restages⟩
  rw [hquiet.staging]
  exact hcommitted

end VersionChain.StoreM
