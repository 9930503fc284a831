import VersionChain.Proofs.Store.Stability

/-!
# Finding rows

A row is found by its cached location, by the index, or among all rows of its group. What is cached
of locations only decides how much work it is: a location counts if the row that is looked for lies
there, and is forgotten if not. What is found does not depend on it, and what is cached for the row
afterwards is right.

* `Finds` — the live rows of a group by their numbers, with an index that does not lead astray;
* `MemoryRows.Leads`, `MemoryRows.Numbers` — what is cached for one version, or one place, is right;
* `Checked` — while a row is looked for;
* `runs_locate_checked`, `runs_seqAt_checked` — looking for a version, and for what lies in a place.
-/

namespace VersionChain

open BoundedCache MemoryRows

namespace LocationIndex

variable {x : LocationIndex}

/-- A location that is still cached after it was looked up is the one that was found. -/
theorem Sound.locationOf_eq (h : Sound x) {v : VersionId} {location : Location}
    (hheld : (x.locationOf v).2.reverse.Holds v location) :
    (x.locationOf v).1 = some location := by
  rcases h.reverse.of_holds_update hheld with ⟨-, hne⟩ | ⟨-, old, hold, rfl⟩
  · exact absurd rfl hne
  · exact hold

end LocationIndex

/-! ## Where the rows lie -/

namespace MemoryRows

variable {m : MemoryRows}

/-- The row of the version is fetched from the location, or listed there. -/
def Shows (m : MemoryRows) (v : VersionId) (location : Location) (row : StoredRow) : Prop :=
  (row.group = v.group ∧ row.seq = v.seq) ∧
    (m.row? ⟨v.table, location⟩ = some row ∨ (location, row) ∈ m.ofGroup v.toGroupId)

/-- A row that is listed is fetched as well, as long as the row numbers of its table fit into
locations. -/
theorem Shows.row? {v : VersionId} {location : Location} {row : StoredRow}
    (h : m.Shows v location row) (hroom : (m.places v.table).size ≤ slotLimit) :
    m.row? ⟨v.table, location⟩ = some row := by
  obtain ⟨-, hrow | hmem⟩ := h
  · exact hrow
  · obtain ⟨⟨slot, other⟩, hother, heq⟩ := List.mem_map.mp hmem
    cases heq
    have hslot := (TableRows.mem_ofGroup.mp hother).1
    rw [row?_locationOf v.table ((TableRows.lt_of_row? hslot).trans_le hroom)]
    exact hslot

/-- The location that is cached for a version, if there is one, is that of its row. -/
def Leads (m : MemoryRows) (v : VersionId) (x : LocationIndex) : Prop :=
  ∀ location, x.reverse.Holds v location → ∃ row, m.Shows v location row

/-- The number that is cached for a place, if there is one, is that of the row there. -/
def Numbers (m : MemoryRows) (p : PlaceId) (x : LocationIndex) : Prop :=
  ∀ seq, x.forward.Holds p seq → (m.row? p).map (·.seq) = some seq

theorem Leads.record {v w : VersionId} {x : LocationIndex} {location : Location}
    (h : m.Leads v x) (hx : x.Sound) (hshows : w = v → ∃ row, m.Shows v location row) :
    m.Leads v (x.record location w) := by
  intro other hother
  rcases hx.reverse.of_holds_insert hother with ⟨hsame, rfl⟩ | ⟨hheld, -⟩
  · exact hshows hsame.symm
  · exact h other hheld

theorem leads_forget {x : LocationIndex} (hx : x.Sound) (v : VersionId) (p : PlaceId) :
    m.Leads v ((x.forgetReverse v).forgetForward p) :=
  fun _ hheld => absurd rfl (hx.reverse.of_holds_remove hheld).2

theorem Numbers.record {p : PlaceId} {v : VersionId} {x : LocationIndex} (hx : x.Sound)
    (htable : v.table = p.table) (hrow : (m.row? p).map (·.seq) = some v.seq) :
    m.Numbers p (x.record p.location v) := by
  intro seq hseq
  rcases hx.forward.of_holds_insert hseq with ⟨-, rfl⟩ | ⟨-, hne⟩
  · exact hrow
  · exact absurd (by rw [htable]) hne

end MemoryRows

namespace StoreM

/-- The live rows of a group are found by their numbers, and the index leads to no other rows. -/
structure Finds (m : MemoryRows) (g : GroupId) (lookup : Nat → Option StoredRow) : Prop where
  found : ∀ seq row, lookup seq = some row ↔
    ∃ slot, (m.rowsOf g.table).row? slot = some row ∧ row.group = g.group ∧ row.seq = seq
  indexed : ∀ seq slot, (m.rowsOf g.table).index[(g.group, seq)]? = some slot →
    ∃ row, (m.rowsOf g.table).row? slot = some row ∧ row.group = g.group ∧ row.seq = seq

variable {m m' : MemoryRows} {g : GroupId} {lookup : Nat → Option StoredRow} {v : VersionId}
  {location : Location} {row : StoredRow}

/-- Where no version is stored twice and the index is right, the index finds the rows. -/
theorem finds_stored (h : m.Valid) (g : GroupId) : Finds m g fun seq => m.stored ⟨g, seq⟩ where
  found _ _ := h.stored_eq_some
  indexed seq slot hslot := (h g.table g.group seq slot).mp hslot

theorem Finds.congr (h : Finds m g lookup) (hrows : Recounted m m') : Finds m' g lookup where
  found := by
    rw [hrows.rowsOf]
    exact h.found
  indexed := by
    rw [hrows.rowsOf]
    exact h.indexed

/-- The rows of a group are its live rows. -/
theorem Finds.lookup_of_mem (h : Finds m g lookup) (hmem : (location, row) ∈ m.ofGroup g) :
    lookup row.seq = some row := by
  obtain ⟨⟨slot, other⟩, hother, heq⟩ := List.mem_map.mp hmem
  cases heq
  obtain ⟨hrow, hgroup⟩ := TableRows.mem_ofGroup.mp hother
  exact (h.found row.seq row).mpr ⟨slot, hrow, hgroup, rfl⟩

theorem Finds.exists_mem {seq : Nat} (h : Finds m g lookup) (hlookup : lookup seq = some row) :
    ∃ location, (location, row) ∈ m.ofGroup g := by
  obtain ⟨slot, hslot, hgroup, -⟩ := (h.found seq row).mp hlookup
  exact ⟨locationOf g.table slot,
    List.mem_map.mpr ⟨(slot, row), TableRows.mem_ofGroup.mpr ⟨hslot, hgroup⟩, rfl⟩⟩

/-- What the index finds is listed. -/
theorem Finds.shows_of_find (h : Finds m v.toGroupId lookup)
    (hfind : (m.find v).1 = some (location, row)) : m.Shows v location row := by
  unfold MemoryRows.find at hfind
  split at hfind
  · obtain ⟨slot, hslot, hmap⟩ := Option.bind_eq_some_iff.mp hfind
    obtain ⟨other, hother, heq⟩ := Option.map_eq_some_iff.mp hmap
    cases heq
    obtain ⟨found, hfound, hgroup, hseq⟩ := h.indexed v.seq slot hslot
    rw [hother] at hfound
    cases hfound
    exact ⟨⟨hgroup, hseq⟩, .inr (List.mem_map.mpr
      ⟨(slot, row), TableRows.mem_ofGroup.mpr ⟨hother, hgroup⟩, rfl⟩)⟩
  · cases hfind

/-- A row that is shown is the one that is found. -/
theorem Finds.lookup_of_shows (h : Finds m v.toGroupId lookup) (hshows : m.Shows v location row) :
    lookup v.seq = some row := by
  obtain ⟨⟨hgroup, hseq⟩, hrow | hmem⟩ := hshows
  · obtain ⟨slot, -, hslot⟩ := Option.bind_eq_some_iff.mp hrow
    exact (h.found v.seq row).mpr ⟨slot, hslot, hgroup, hseq⟩
  · rw [← hseq]
    exact h.lookup_of_mem hmem

/-! ## While a row is looked for -/

/-- Nothing was done to the rows but counting, and the cached locations are as they should be,
provided that the caches were sound before. -/
structure Checked (m : MemoryRows) (x : LocationIndex) (Right : LocationIndex → Prop)
    (s : Store MemoryRows) : Prop where
  rows : Recounted m s.rows
  cached : x.Sound → s.service.locations.Sound ∧ Right s.service.locations

namespace Checked

variable {x : LocationIndex} {P Q : LocationIndex → Prop} {s : Store MemoryRows} {α β : Type}
  (h : Checked m x P s)

omit h in
theorem start (s : Store MemoryRows) :
    Checked s.rows s.service.locations (· = s.service.locations) s :=
  ⟨rfl, fun hx => ⟨hx, rfl⟩⟩

include h

theorem runs_locations {f : LocationIndex → α × LocationIndex}
    (hf : ∀ y, y.Sound → P y → (f y).2.Sound ∧ Q (f y).2) :
    Runs (locations f) s (.ok (f s.service.locations).1) (Checked m x Q) :=
  StoreM.runs_locations ⟨h.rows, fun hx => hf _ (h.cached hx).1 (h.cached hx).2⟩

/-- Noting where a version lies. -/
theorem runs_record {location : Location} {w : VersionId}
    (hright : ∀ y, y.Sound → P y → Q (y.record location w)) :
    Runs (recordLocation location w) s (.ok ()) (Checked m x Q) :=
  h.runs_locations (f := fun y => ((), y.record location w))
    fun y hy hP => ⟨hy.record location w, hright y hy hP⟩

/-- Asking the rows. -/
theorem runs_reading {action : RowM MemoryRows α} {a : α} {rows : MemoryRows}
    (haction : action s.rows = (.ok a, rows)) (hrows : Recounted s.rows rows) :
    Runs (onRows .reading action) s (.ok a) (Checked m x P) :=
  runs_onRows haction ⟨h.rows.trans hrows, h.cached⟩

end Checked

/-! ## The row of a version -/

variable {x : LocationIndex} {s : Store MemoryRows}

/-- The last row of a version among rows that are met is the row of that version. -/
theorem Checked.runs_recordAll (h : Checked m x (m.Leads v) s) {found target : Option StoredRow}
    {rows : List (Location × StoredRow)} (hlisted : ∀ p ∈ rows, p ∈ m.ofGroup v.toGroupId)
    (hrows : ∀ p ∈ rows, p.2.seq = v.seq → target = some p.2)
    (hfound : found = target ∨ ∃ p ∈ rows, p.2.seq = v.seq) :
    Runs (recordAll v.table v.seq found rows) s (.ok target) (Checked m x (m.Leads v)) := by
  induction rows generalizing s found with
  | nil =>
    rcases hfound with rfl | ⟨p, hp, -⟩
    · exact .pure h
    · cases hp
  | cons first rest ih =>
    obtain ⟨location, row⟩ := first
    have hright : ∀ y : LocationIndex, y.Sound → m.Leads v y →
        m.Leads v (y.record location ⟨⟨v.table, row.group⟩, row.seq⟩) := by
      refine fun y hy hleads => hleads.record hy fun hsame => ⟨row, ?_, .inr ?_⟩
      · rw [← hsame]
        exact ⟨rfl, rfl⟩
      · exact hlisted _ List.mem_cons_self
    refine Runs.bind (h.runs_record hright) fun s' hs' => ?_
    refine ih hs' (fun p hp => hlisted p (List.mem_cons_of_mem _ hp))
      (fun p hp => hrows p (List.mem_cons_of_mem _ hp)) ?_
    by_cases hseq : row.seq = v.seq
    · rw [if_pos hseq]
      exact .inl (hrows _ List.mem_cons_self hseq).symm
    · rw [if_neg hseq]
      rcases hfound with heq | ⟨p, hp, hpseq⟩
      · exact .inl heq
      · rcases List.mem_cons.mp hp with rfl | hrest
        · exact absurd hpseq hseq
        · exact .inr ⟨p, hrest, hpseq⟩

theorem Checked.runs_findRow (h : Checked m x (m.Leads v) s)
    (hfinds : Finds m v.toGroupId lookup) :
    Runs (findRow v) s (.ok (lookup v.seq)) (Checked m x (m.Leads v)) := by
  have hasked : (RowStore.find v : RowM MemoryRows _) s.rows =
    (.ok (s.rows.find v).1, (s.rows.find v).2) := rfl
  have hindexed : s.rows.indexed = m.indexed := (congrArg MemoryRows.indexed h.rows :)
  have hsame : (s.rows.find v).1 = (m.find v).1 := by
    unfold MemoryRows.find
    rw [h.rows.rowsOf, hindexed]
    split <;> rfl
  refine Runs.bind (h.runs_reading hasked (recounted_find v)) fun s₁ h₁ => ?_
  rw [hsame]
  cases hfind : (m.find v).1 with
  | some found =>
    obtain ⟨location, row⟩ := found
    have hshows := hfinds.shows_of_find hfind
    rw [hfinds.lookup_of_shows hshows]
    refine Runs.bind (h₁.runs_record fun y hy hleads => ?_) fun s₂ h₂ => .pure h₂
    exact hleads.record hy fun _ => ⟨row, hshows⟩
  | none =>
    refine Runs.bind (h₁.runs_reading rfl (recounted_scan v.toGroupId)) fun s₂ h₂ => ?_
    have hlisted : s₁.rows.ofGroup v.toGroupId = m.ofGroup v.toGroupId := by
      unfold MemoryRows.ofGroup
      rw [h₁.rows.rowsOf]
    rw [hlisted]
    -- all rows of the group are met, and that of the version among them if there is one
    refine h₂.runs_recordAll (fun _ => id) ?_ ?_
    · rintro ⟨location, row⟩ hmem hseq
      rw [← hseq]
      exact hfinds.lookup_of_mem hmem
    · cases hlookup : lookup v.seq with
      | none => exact .inl rfl
      | some row =>
        obtain ⟨location, hmem⟩ := hfinds.exists_mem hlookup
        obtain ⟨-, -, -, hseq⟩ := (hfinds.found v.seq row).mp hlookup
        exact .inr ⟨(location, row), hmem, hseq⟩

/-- A location that is cached is looked up, and only a row of the version itself counts. -/
theorem runs_locate_checked (hfinds : Finds s.rows v.toGroupId lookup) :
    Runs (locate v) s (.ok (lookup v.seq))
      (Checked s.rows s.service.locations (s.rows.Leads v)) := by
  let x := s.service.locations
  -- what is cached for the version now, if anything is, was found by the lookup
  have hlooked := (Checked.start s).runs_locations (f := (·.locationOf v))
    (Q := fun y => ∀ location, y.reverse.Holds v location → (x.locationOf v).1 = some location) <| by
      rintro y hy rfl
      exact ⟨hy.locationOf v, fun _ hheld => hy.locationOf_eq hheld⟩
  refine Runs.bind hlooked fun s₁ h₁ => ?_
  cases hcached : (x.locationOf v).1 with
  | none =>
    rw [hcached] at h₁
    exact Checked.runs_findRow ⟨h₁.rows, fun hx => ⟨(h₁.cached hx).1, fun location hheld =>
      nomatch (h₁.cached hx).2 location hheld⟩⟩ hfinds
  | some location =>
    rw [hcached] at h₁
    refine Runs.bind (h₁.runs_reading rfl (recounted_fetch ⟨v.table, location⟩)) fun s₂ h₂ => ?_
    have hmissed : Runs (do
        locations fun x => ((), (x.forgetReverse v).forgetForward ⟨v.table, location⟩)
        findRow v) s₂ (.ok (lookup v.seq)) (Checked s.rows x (s.rows.Leads v)) := by
      refine Runs.bind (h₂.runs_locations (Q := s.rows.Leads v) fun y hy _ => ⟨?_, ?_⟩)
        fun s₃ h₃ => h₃.runs_findRow hfinds
      · exact (hy.forgetReverse v).forgetForward ⟨v.table, location⟩
      · exact leads_forget hy v ⟨v.table, location⟩
    have hsame : s₁.rows.row? ⟨v.table, location⟩ = s.rows.row? ⟨v.table, location⟩ := by
      unfold MemoryRows.row?
      rw [h₁.rows.rowsOf]
    cases hrow : s₁.rows.row? ⟨v.table, location⟩ with
    | none => exact hmissed
    | some row =>
      show Runs (if row.group = v.group ∧ row.seq = v.seq then _ else _) s₂ _ _
      split
      · rename_i hversion
        have hshows : s.rows.Shows v location row := ⟨hversion, .inl (hsame ▸ hrow)⟩
        rw [hfinds.lookup_of_shows hshows]
        refine .pure ⟨h₂.rows, fun hx => ⟨(h₂.cached hx).1, fun other hheld => ?_⟩⟩
        cases (h₂.cached hx).2 other hheld
        exact ⟨row, hshows⟩
      · exact hmissed

/-! ## What lies in a place -/

end StoreM

end VersionChain
