import VersionChain.Proofs.Cache.Allocator
import VersionChain.Proofs.Store.Stability

/-!
# Giving out version numbers

A number that is cached for a group is not below any stored version of the group, and was given out.
So is the number that the rows give when nothing is cached. The number that is given out next is
thus beyond all that is stored, and not beyond the first one that was never given out.

* `Above` — no later version is stored;
* `Numbered` — every number that is cached is one that was given out, and none above it is stored;
* `Granted` — a number was given out for a version that is not stored yet;
* `Numbered.runs_allocateSeq`, `Granted.rollback`, `Granted.push` — giving out a number, taking it
  back, and storing its version;
* `Numbered.runs_latestSeq` — reading the latest number.
-/

namespace VersionChain

open StoreM MemoryRows SequenceAllocator

/-- No version of the group after this one is stored. -/
def Above (m : MemoryRows) (g : GroupId) (seq : Nat) : Prop :=
  ∀ later row, m.stored ⟨g, later⟩ = some row → later ≤ seq

theorem Above.congr {m m' : MemoryRows} {g : GroupId} {seq : Nat} (h : Above m g seq)
    (hstored : ∀ v, m'.stored v = m.stored v) : Above m' g seq := by
  intro later row hrow
  rw [hstored] at hrow
  exact h later row hrow

theorem Above.mono {m : MemoryRows} {g : GroupId} {seq seq' : Nat} (h : Above m g seq)
    (hle : seq ≤ seq') : Above m g seq' :=
  fun later row hrow => (h later row hrow).trans hle

/-- The largest number among the rows is above all that is stored, and nothing smaller is. -/
theorem MemoryRows.Valid.above_maxSeq {m : MemoryRows} (h : m.Valid) (g : GroupId) :
    Above m g (m.maxSeq g).1 ∧ ∀ seq, Above m g seq → (m.maxSeq g).1 ≤ seq := by
  obtain ⟨hall, hmet⟩ := (m.rowsOf g.table).maxSeq_spec g.group
  constructor
  · intro later row hrow
    obtain ⟨slot, hslot, hgroup, rfl⟩ := h.stored_eq_some.mp hrow
    exact hall slot row hslot hgroup
  · intro seq habove
    show (m.rowsOf g.table).maxSeq g.group ≤ seq
    rcases hmet with hzero | ⟨slot, row, hrow, hgroup, hseq⟩
    · rw [hzero]
      exact Nat.zero_le seq
    · rw [← hseq]
      exact habove row.seq row (h.stored_eq_some.mpr ⟨slot, hrow, hgroup, rfl⟩)

/-- A number of a group that was given out and is above all that is stored. -/
def Current (issued : GroupId → Nat) (m : MemoryRows) (g : GroupId) (seq : Nat) : Prop :=
  Above m g seq ∧ seq ≤ issued g

/-- All numbers that are cached are current. `issued` is the largest number of each group that was
given out. -/
structure Numbered (issued : GroupId → Nat) (s : Store MemoryRows) : Prop where
  valid : s.rows.Valid
  stored : ∀ g, Above s.rows g (issued g)
  cached : ∀ g, s.service.sequences.Caches g (Current issued s.rows g)

/-- The number `seq` of a group was given out, and its version is not stored yet. -/
structure Granted (issued : GroupId → Nat) (g : GroupId) (seq : Nat) (s : Store MemoryRows) :
    Prop where
  valid : s.rows.Valid
  stored : ∀ g, Above s.rows g (issued g)
  cached : ∀ other, other ≠ g → s.service.sequences.Caches other (Current issued s.rows other)
  granted : s.service.sequences.Caches g (· = seq)
  new : ∀ later row, s.rows.stored ⟨g, later⟩ = some row → later < seq
  pos : 0 < seq
  next : seq ≤ issued g + 1

variable {issued issued' : GroupId → Nat} {s : Store MemoryRows} {g : GroupId} {seq : Nat}
  {P : Store MemoryRows → Prop}

/-! ## What makes no difference -/

/-- Rows may be overwritten and put away differently, and some of them may be missing. -/
theorem Numbered.with_versions (h : Numbered issued s) {rows : MemoryRows} (hvalid : rows.Valid)
    (hstored : ∀ v row, rows.stored v = some row → ∃ row', s.rows.stored v = some row') :
    Numbered issued { s with rows } := by
  have habove : ∀ {g seq}, Above s.rows g seq → Above rows g seq := by
    intro g seq hseq later row hrow
    obtain ⟨row', hrow'⟩ := hstored _ row hrow
    exact hseq later row' hrow'
  exact ⟨hvalid, fun g => habove (h.stored g),
    fun g => (h.cached g).imp fun _ hseq => ⟨habove hseq.1, hseq.2⟩⟩

/-- The rows may be put away and counted differently, and some of them may be missing. -/
theorem Numbered.with_rows (h : Numbered issued s) {rows : MemoryRows} (hvalid : rows.Valid)
    (hstored : ∀ v row, rows.stored v = some row → s.rows.stored v = some row) :
    Numbered issued { s with rows } :=
  h.with_versions hvalid fun v row hrow => ⟨row, hstored v row hrow⟩

/-- Only the numbers that are cached and the rows matter. -/
theorem Numbered.congr {s' : Store MemoryRows} (h : Numbered issued s)
    (hsequences : s'.service.sequences = s.service.sequences) (hrows : Recounted s.rows s'.rows) :
    Numbered issued s' where
  valid := hrows.valid h.valid
  stored g := (h.stored g).congr hrows.stored
  cached g := by
    rw [hsequences]
    exact (h.cached g).imp fun _ hseq => ⟨hseq.1.congr hrows.stored, hseq.2⟩

theorem cacheStable_numbered (issued : GroupId → Nat) : CacheStable (Numbered issued) where
  with_locations _ _ _ hs := ⟨hs.valid, hs.stored, hs.cached⟩
  with_rows _ _ hrows hs :=
    hs.with_rows (hrows.valid hs.valid) fun v _ hrow => (hrows.stored v).symm.trans hrow
  with_content _ _ hs := ⟨hs.valid, hs.stored, hs.cached⟩
  with_staging _ _ hs := ⟨hs.valid, hs.stored, hs.cached⟩
  with_scheduler _ _ hs := ⟨hs.valid, hs.stored, hs.cached⟩

theorem Granted.with_rows (h : Granted issued g seq s) {rows : MemoryRows} (hvalid : rows.Valid)
    (hstored : ∀ v row, rows.stored v = some row → s.rows.stored v = some row) :
    Granted issued g seq { s with rows } := by
  have habove : ∀ {g seq}, Above s.rows g seq → Above rows g seq :=
    fun hseq later row hrow => hseq later row (hstored _ row hrow)
  exact {
    valid := hvalid
    stored := fun g => habove (h.stored g)
    cached := fun other hother => (h.cached other hother).imp fun _ hseq => ⟨habove hseq.1, hseq.2⟩
    granted := h.granted
    new := fun later row hrow => h.new later row (hstored _ row hrow)
    pos := h.pos
    next := h.next }

theorem Granted.congr {s' : Store MemoryRows} (h : Granted issued g seq s)
    (hsequences : s'.service.sequences = s.service.sequences) (hrows : Recounted s.rows s'.rows) :
    Granted issued g seq s' where
  valid := hrows.valid h.valid
  stored g := (h.stored g).congr hrows.stored
  cached other hother := by
    rw [hsequences]
    exact (h.cached other hother).imp fun _ hseq => ⟨hseq.1.congr hrows.stored, hseq.2⟩
  granted := by
    rw [hsequences]
    exact h.granted
  new later row hrow := h.new later row ((hrows.stored _).symm.trans hrow)
  pos := h.pos
  next := h.next

theorem cacheStable_granted (issued : GroupId → Nat) (g : GroupId) (seq : Nat) :
    CacheStable (Granted issued g seq) where
  with_locations _ _ _ hs :=
    ⟨hs.valid, hs.stored, hs.cached, hs.granted, hs.new, hs.pos, hs.next⟩
  with_rows _ _ hrows hs :=
    hs.with_rows (hrows.valid hs.valid) fun v _ hrow => (hrows.stored v).symm.trans hrow
  with_content _ _ hs := ⟨hs.valid, hs.stored, hs.cached, hs.granted, hs.new, hs.pos, hs.next⟩
  with_staging _ _ hs := ⟨hs.valid, hs.stored, hs.cached, hs.granted, hs.new, hs.pos, hs.next⟩
  with_scheduler _ _ hs := ⟨hs.valid, hs.stored, hs.cached, hs.granted, hs.new, hs.pos, hs.next⟩

/-- A property of stores that stays whatever numbers are cached, and when rows are read. -/
structure NumberStable (P : Store MemoryRows → Prop) : Prop where
  with_sequences : ∀ s sequences, P s → P { s with service := { s.service with sequences } }
  with_rows : ∀ s rows, Recounted s.rows rows → P s → P { s with rows }

namespace NumberStable

variable (h : NumberStable P)

include h

theorem keeps_sequences {α : Type} (f : SequenceAllocator → α × SequenceAllocator) :
    Keeps (sequences f) P := fun s hs => h.with_sequences s _ hs

theorem keeps_maxSeq (activity : RowActivity) (g : GroupId) :
    Keeps (onRows activity (RowStore.maxSeq g)) P :=
  fun s hs => h.with_rows s _ (recounted_maxSeq g) hs

theorem keeps_allocateSeq (g : GroupId) : Keeps (allocateSeq g) P := by
  refine .bind (h.keeps_sequences _) fun seq => ?_
  split
  · exact .pure seq
  · exact .bind (h.keeps_maxSeq _ g) fun _ => h.keeps_sequences _

theorem keeps_latestSeq (table : TableId) (key : Key) : Keeps (latestSeq table key) P := by
  refine .bind (keeps_tableState table) fun _ => .bind (keeps_fingerprint key) fun group => ?_
  refine .bind (h.keeps_sequences _) fun cached => ?_
  cases cached with
  | some seq => exact .pure _
  | none =>
    refine .bind (h.keeps_maxSeq _ _) fun stored => ?_
    split
    · exact .pure _
    · exact .bind (h.keeps_sequences _) fun _ => .pure _

end NumberStable

/-! ## Giving out a number -/

theorem Numbered.grant (h : Numbered issued s) {sequences : SequenceAllocator}
    (hothers : ∀ other, other ≠ g → sequences.Caches other (Current issued s.rows other))
    (hgranted : sequences.Caches g (· = seq + 1)) (hseq : Current issued s.rows g seq) :
    Granted issued g (seq + 1) { s with service := { s.service with sequences } } where
  valid := h.valid
  stored := h.stored
  cached := hothers
  granted := hgranted
  new later row hrow := Nat.lt_succ_of_le (hseq.1 later row hrow)
  pos := Nat.succ_pos seq
  next := Nat.succ_le_succ hseq.2

/-- What the rows give as the largest number is current. -/
theorem Numbered.runs_maxSeq (h : Numbered issued s) (hstable : NumberStable P) (hs : P s)
    (activity : RowActivity) (g : GroupId) :
    ∃ seq, Current issued s.rows g seq ∧
      Runs (onRows activity (RowStore.maxSeq g)) s (.ok seq) fun s' =>
        Numbered issued s' ∧ P s' ∧ Current issued s'.rows g seq := by
  have hrows := recounted_maxSeq (m := s.rows) g
  obtain ⟨habove, hleast⟩ := h.valid.above_maxSeq g
  refine ⟨(s.rows.maxSeq g).1, ⟨habove, hleast _ (h.stored g)⟩, runs_onRows rfl ?_⟩
  have hnumbered : Numbered issued { s with rows := (s.rows.maxSeq g).2 } :=
    h.with_rows (hrows.valid h.valid) fun v _ hrow => (hrows.stored v).symm.trans hrow
  exact ⟨hnumbered, hstable.with_rows s _ hrows hs, habove.congr hrows.stored, hleast _ (h.stored g)⟩

/-- The number that is given out is beyond all that is stored, and not beyond the first one that
was never given out. -/
theorem Numbered.runs_allocateSeq (h : Numbered issued s) (hstable : NumberStable P) (hs : P s)
    (g : GroupId) :
    ∃ seq, Runs (allocateSeq g) s (.ok seq) fun s' => Granted issued g seq s' ∧ P s' := by
  let s₁ : Store MemoryRows :=
    { s with service := { s.service with sequences := (s.service.sequences.next g).2 } }
  have hs₁ : P s₁ := hstable.with_sequences s _ hs
  have hothers : ∀ other, other ≠ g →
      s₁.service.sequences.Caches other (Current issued s.rows other) :=
    fun other hother => (h.cached other).perform hother.symm .next
  rcases (h.cached g).next with ⟨cached, hcached, hnext, hnew⟩ | ⟨hnext, hnew⟩
  · refine ⟨cached + 1, Runs.bind_of_eq (sequences_eq _ s) ?_⟩
    rw [hnext, if_pos (Nat.succ_ne_zero cached)]
    exact .pure ⟨h.grant hothers hnew hcached, hs₁⟩
  · -- nothing is cached for the group: its rows are asked
    have h₁ : Numbered issued s₁ := by
      refine ⟨h.valid, h.stored, fun other => ?_⟩
      by_cases hother : other = g
      · rw [hother]
        exact hnew
      · exact hothers other hother
    obtain ⟨stored, -, s₂, hread, h₂, hs₂, hcurrent⟩ :=
      h₁.runs_maxSeq hstable hs₁ (.readingMaxSeq g.table) g
    obtain ⟨hseq, hafter⟩ := (h₂.cached g).allocateAfter stored
    have hothers₂ := fun other (hother : other ≠ g) =>
      (h₂.cached other).perform hother.symm (.allocateAfter stored)
    -- what the rows gave is current, and so is what has been cached since
    obtain ⟨largest, hlargest, hcurrent⟩ : ∃ largest,
        (s₂.service.sequences.allocateAfter g stored).1 = largest + 1 ∧
          Current issued s₂.rows g largest := by
      rcases hseq with hseq | ⟨cached, hcached, hseq⟩
      · exact ⟨_, hseq, hcurrent⟩
      · exact ⟨_, hseq, hcached.1.mono (Nat.le_max_left _ _),
          Nat.max_le.mpr ⟨hcached.2, hcurrent.2⟩⟩
    rw [hlargest] at hafter
    refine ⟨largest + 1, Runs.bind_of_eq (sequences_eq _ s) ?_⟩
    rw [hnext, if_neg (fun hne => hne rfl)]
    refine Runs.bind_of_eq hread ?_
    rw [← hlargest]
    refine runs_sequences ⟨?_, hstable.with_sequences s₂ _ hs₂⟩
    rw [hlargest]
    exact h₂.grant hothers₂ hafter hcurrent

/-- The number of a version that could not be stored goes back. -/
theorem Granted.rollback (h : Granted issued g seq s) :
    Numbered issued { s with service := { s.service with
      sequences := (s.service.sequences.rollback g seq).2 } } where
  valid := h.valid
  stored := h.stored
  cached other := by
    by_cases hother : other = g
    · subst hother
      refine h.granted.rollback fun cached hcached => ?_
      have hnext := h.next
      rw [if_pos hcached, hcached]
      refine ⟨fun later row hrow => ?_, by omega⟩
      have := h.new later row hrow
      omega
    · exact (h.cached other hother).perform (Ne.symm hother) (.rollback seq)

/-- The number is not that of a version that is stored. -/
theorem Granted.stored_eq_none (h : Granted issued g seq s) : s.rows.stored ⟨g, seq⟩ = none := by
  cases hstored : s.rows.stored ⟨g, seq⟩ with
  | none => rfl
  | some row => exact absurd (h.new seq row hstored) (Nat.lt_irrefl _)

/-- With its version stored, the number is the latest one. -/
theorem Granted.push (h : Granted issued g seq s) {rows : MemoryRows} {row : StoredRow}
    (hvalid : rows.Valid)
    (hstored : ∀ v, rows.stored v = if v = ⟨g, seq⟩ then some row else s.rows.stored v)
    (hsame : ∀ other, other ≠ g → issued' other = issued other) (hle : issued g ≤ issued' g)
    (hseq : seq ≤ issued' g) : Numbered issued' { s with rows } := by
  have hself : Above rows g seq := by
    intro later other hother
    rw [hstored] at hother
    split at hother
    · rename_i heq
      exact Nat.le_of_eq (congrArg VersionId.seq heq)
    · exact Nat.le_of_lt (h.new later other hother)
  have hothers : ∀ other, other ≠ g → ∀ bound, Above s.rows other bound → Above rows other bound := by
    intro other hne bound habove later found hfound
    rw [hstored, if_neg fun heq => hne (congrArg VersionId.toGroupId heq)] at hfound
    exact habove later found hfound
  refine ⟨hvalid, fun other => ?_, fun other => ?_⟩
  · by_cases hother : other = g
    · rw [hother]
      exact hself.mono hseq
    · rw [hsame other hother]
      exact hothers other hother _ (h.stored other)
  · by_cases hother : other = g
    · subst hother
      refine h.granted.imp ?_
      rintro _ rfl
      exact ⟨hself, hseq⟩
    · refine (h.cached other hother).imp fun cached hcached => ⟨?_, ?_⟩
      · exact hothers other hother _ hcached.1
      · rw [hsame other hother]
        exact hcached.2

/-! ## Numbers without gaps -/

/-- Exactly the versions of a group from 1 up to its count are stored. -/
def GaplessFor (m : MemoryRows) (g : GroupId) (count : Nat) : Prop :=
  ∀ seq, (∃ row, m.stored ⟨g, seq⟩ = some row) ↔ 1 ≤ seq ∧ seq ≤ count

/-- Exactly the versions from 1 up to the count of the group are stored. -/
def Gapless (m : MemoryRows) (count : GroupId → Nat) : Prop :=
  ∀ g seq, (∃ row, m.stored ⟨g, seq⟩ = some row) ↔ 1 ≤ seq ∧ seq ≤ count g

variable {count : GroupId → Nat} {m m' : MemoryRows}

theorem Gapless.forGroup (h : Gapless m count) (g : GroupId) : GaplessFor m g (count g) := h g

theorem Gapless.congr (h : Gapless m count) (hstored : ∀ v, m'.stored v = m.stored v) :
    Gapless m' count := by
  intro g seq
  rw [hstored]
  exact h g seq

/-- Only the number of the last version is current. -/
theorem GaplessFor.eq_of_current (h : GaplessFor m g (count g)) (hcurrent : Current count m g seq) :
    seq = count g := by
  obtain ⟨habove, hle⟩ := hcurrent
  refine Nat.le_antisymm hle ?_
  by_cases hzero : count g = 0
  · omega
  · obtain ⟨row, hrow⟩ := (h (count g)).mpr ⟨by omega, Nat.le_refl _⟩
    exact habove _ row hrow

/-- The number that was given out is the next one. -/
theorem GaplessFor.eq_of_granted (h : GaplessFor s.rows g (count g))
    (hgranted : Granted count g seq s) : seq = count g + 1 := by
  have hpos := hgranted.pos
  have hcurrent : Current count s.rows g (seq - 1) := by
    refine ⟨fun later row hrow => ?_, ?_⟩
    · have := hgranted.new later row hrow
      omega
    · have := hgranted.next
      omega
  have := h.eq_of_current hcurrent
  omega

/-! ## Forgetting numbers and rows -/

theorem Numbered.invalidate_sequences (h : Numbered issued s) (table : TableId) :
    Numbered issued { s with service := { s.service with
      sequences := (s.service.sequences.invalidate table).2 } } :=
  ⟨h.valid, h.stored, fun g => (h.cached g).invalidate table⟩

/-- With its rows removed and its numbers forgotten, a table starts anew. -/
theorem Numbered.clear (h : Numbered issued s) {table : TableId} {rows : MemoryRows}
    (hrows : Replaced s.rows rows table {})
    (hsame : ∀ g, g.table ≠ table → issued' g = issued g) :
    Numbered issued' { s with
      service := { s.service with sequences := (s.service.sequences.invalidate table).2 }
      rows } := by
  obtain ⟨hvalid, hstored⟩ := stored_clear hrows h.valid
  have habove : ∀ g bound, (g.table ≠ table → Above s.rows g bound) → Above rows g bound := by
    intro g bound hbound later row hrow
    rw [hstored] at hrow
    split at hrow
    · cases hrow
    · rename_i htable
      exact hbound htable later row hrow
  refine ⟨hvalid, fun g => habove g _ fun htable => ?_, fun g => ?_⟩
  · rw [hsame g htable]
    exact h.stored g
  · by_cases htable : g.table = table
    · subst htable
      exact (h.cached g).invalidated
    · refine ((h.cached g).invalidate table).imp fun seq hseq => ⟨?_, ?_⟩
      · exact habove g seq fun _ => hseq.1
      · rw [hsame g htable]
        exact hseq.2

/-! ## Reading the latest number -/

/-- What is read as the latest number was given out, and no later version is stored. -/
theorem Numbered.runs_latestSeq (h : Numbered issued s) (hstable : NumberStable P) (hs : P s)
    {table : TableId} {key : Key} {state : TableState} {group : Fingerprint}
    (htable : s.tables[table]? = some state) (hkey : key.fingerprint s.unpacker = .ok group) :
    ∃ seq, Current issued s.rows ⟨table, group⟩ seq ∧
      Runs (latestSeq table key) s (.ok (if seq = 0 then none else some seq)) fun s' =>
        Numbered issued s' ∧ P s' := by
  let g : GroupId := ⟨table, group⟩
  let s₁ : Store MemoryRows :=
    { s with service := { s.service with sequences := (s.service.sequences.get g).2 } }
  have hs₁ : P s₁ := hstable.with_sequences s _ hs
  have h₁ : Numbered issued s₁ := by
    refine ⟨h.valid, h.stored, fun other => ?_⟩
    by_cases hother : other = g
    · rw [hother]
      exact (h.cached g).get
    · exact (h.cached other).perform (Ne.symm hother) .get
  cases hcached : (s.service.sequences.get g).1 with
  | some seq =>
    refine ⟨seq, (h.cached g).of_get hcached, ?_⟩
    refine Runs.bind_of_eq (tableState_eq htable) (Runs.bind_of_eq (fingerprint_eq hkey) ?_)
    refine Runs.bind_of_eq (sequences_eq _ s) ?_
    rw [hcached]
    by_cases hzero : seq = 0
    · rw [if_pos hzero, hzero]
      exact .pure ⟨h₁, hs₁⟩
    · simp only [if_neg hzero, if_pos (Nat.pos_of_ne_zero hzero)]
      exact .pure ⟨h₁, hs₁⟩
  | none =>
    -- the rows know the number if the cache does not
    obtain ⟨stored, hstored, s₂, hread, h₂, hs₂, hcurrent⟩ := h₁.runs_maxSeq hstable hs₁ .reading g
    refine ⟨stored, hstored, ?_⟩
    refine Runs.bind_of_eq (tableState_eq htable) (Runs.bind_of_eq (fingerprint_eq hkey) ?_)
    refine Runs.bind_of_eq (sequences_eq _ s) ?_
    rw [hcached]
    refine Runs.bind_of_eq hread ?_
    split
    · exact .pure ⟨h₂, hs₂⟩
    · refine Runs.bind_of_eq rfl (.pure ⟨⟨h₂.valid, h₂.stored, fun other => ?_⟩,
        hstable.with_sequences s₂ _ hs₂⟩)
      by_cases hother : other = g
      · rw [hother]
        refine (h₂.cached g).raise (fun seq hseq => ⟨?_, ?_⟩) fun _ => hcurrent
        · exact hseq.1.mono (Nat.le_max_left _ _)
        · exact Nat.max_le.mpr ⟨hseq.2, hcurrent.2⟩
      · exact (h₂.cached other).perform (Ne.symm hother) (.raise stored)

theorem Numbered.keeps_latestSeq (hstable : NumberStable P) (table : TableId) (key : Key) :
    Keeps (latestSeq table key) fun s => Numbered issued s ∧ P s := by
  refine .of_runs fun s hs => ?_
  cases htable : s.tables[table]? with
  | none => exact ⟨_, Runs.bind_error (runs_tableState_error htable hs)⟩
  | some state =>
    cases hkey : key.fingerprint s.unpacker with
    | error cause =>
      exact ⟨.error (.key cause), Runs.bind_of_eq (tableState_eq htable)
        (Runs.bind_error (runs_fingerprint_error hkey hs))⟩
    | ok group =>
      obtain ⟨seq, -, hruns⟩ := hs.1.runs_latestSeq hstable hs.2 htable hkey
      exact ⟨_, hruns⟩

end VersionChain
