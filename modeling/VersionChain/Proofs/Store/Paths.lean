import VersionChain.Proofs.Store.Replay

/-!
# The ways to a row

A row is reached by the index, by its location and by looking through its group, and versions and
rows are counted by looking through the places of a table. As long as a row is only stored under a
version that has none, and a table has no more places than a location can number, all of these tell
of the same rows.

* `MemoryRows.Becomes` — such changes turn some rows into others;
* `MemoryRows.PathsAgree` — all ways lead to the same rows;
* `MemoryRows.Moves` — moving a row changes nothing but where it is;
* `TableRows.Vacant`, `MemoryRows.Vacant` — a place that was left, which stays empty until the table
  is cleared;
* `Becomes.paths_agree` — all of this holds of rows that there can be.
-/

namespace VersionChain

namespace TableRows

variable {t : TableRows}

/-- There is an entry of the index for each live row. -/
theorem Valid.index_perm (h : t.Valid) :
    t.index.toList.Perm (t.live.map fun p => ((p.2.group, p.2.seq), p.1)) := by
  have hindex : t.index.toList.Nodup := by
    refine Std.HashMap.distinct_keys_toList.imp fun {a b} hne heq => ?_
    simp [heq] at hne
  have hlive : (t.live.map fun p => ((p.2.group, p.2.seq), p.1)).Nodup := by
    refine List.pairwise_map.mpr (t.pairwise_live.imp fun {a b} hlt heq => ?_)
    exact Nat.ne_of_lt hlt (congrArg Prod.snd heq)
  refine (List.perm_ext_iff_of_nodup hindex hlive).mpr ?_
  rintro ⟨⟨group, seq⟩, slot⟩
  rw [Std.HashMap.mem_toList_iff_getElem?_eq_some, h group seq slot]
  simp only [List.mem_map, Prod.mk.injEq]
  constructor
  · rintro ⟨row, hrow, hgroup, hseq⟩
    exact ⟨(slot, row), mem_live.mpr hrow, ⟨hgroup, hseq⟩, rfl⟩
  · rintro ⟨⟨place, row⟩, hrow, ⟨hgroup, hseq⟩, rfl⟩
    exact ⟨row, mem_live.mp hrow, hgroup, hseq⟩

/-- The live rows are counted by looking at every place. -/
theorem length_live (t : TableRows) :
    t.live.length = (List.range t.rows.size).countP fun slot => (t.row? slot).isSome := by
  have hslots : (t.live.map (·.1)).Nodup :=
    List.pairwise_map.mpr (t.pairwise_live.imp Nat.ne_of_lt)
  have hperm : (t.live.map (·.1)).Perm
      ((List.range t.rows.size).filter fun slot => (t.row? slot).isSome) := by
    refine (List.perm_ext_iff_of_nodup hslots (List.nodup_range.filter _)).mpr fun slot => ?_
    simp only [List.mem_map, List.mem_filter, List.mem_range, Option.isSome_iff_exists]
    constructor
    · rintro ⟨⟨place, row⟩, hrow, rfl⟩
      have hplace := mem_live.mp hrow
      exact ⟨lt_of_row? hplace, row, hplace⟩
    · rintro ⟨-, row, hrow⟩
      exact ⟨(slot, row), mem_live.mpr hrow, rfl⟩
  rw [List.countP_eq_length_filter, ← hperm.length_eq, List.length_map]

/-- The largest version number of a group is the largest of those of its rows. -/
theorem maxSeq_eq (t : TableRows) (group : Fingerprint) :
    t.maxSeq group = ((t.ofGroup group).map (·.2.seq)).max?.getD 0 := by
  obtain ⟨hall, hmet⟩ := t.maxSeq_spec group
  have hseq : ∀ seq, seq ∈ (t.ofGroup group).map (·.2.seq) ↔
      ∃ slot row, t.row? slot = some row ∧ row.group = group ∧ row.seq = seq := by
    intro seq
    simp only [List.mem_map, Prod.exists, mem_ofGroup, and_assoc]
  have hbound : ∀ seq ∈ (t.ofGroup group).map (·.2.seq), seq ≤ t.maxSeq group := by
    intro seq hmem
    obtain ⟨slot, row, hrow, hgroup, rfl⟩ := (hseq seq).mp hmem
    exact hall slot row hrow hgroup
  cases hlargest : ((t.ofGroup group).map (·.2.seq)).max? with
  | none =>
    have hnil := List.max?_eq_none_iff.mp hlargest
    rcases hmet with hzero | hmet
    · exact hzero
    · have hmem := (hseq _).mpr hmet
      rw [hnil] at hmem
      cases hmem
  | some largest =>
    obtain ⟨hmem, hleast⟩ := List.max?_eq_some_iff.mp hlargest
    refine Nat.le_antisymm ?_ (hbound largest hmem)
    rcases hmet with hzero | hmet
    · rw [hzero]
      exact Nat.zero_le _
    · exact hleast _ ((hseq _).mpr hmet)

/-- A place that was given out and has no row. -/
def Vacant (t : TableRows) (slot : Nat) : Prop :=
  slot < t.rows.size ∧ t.row? slot = none

theorem Vacant.push {slot : Nat} (h : t.Vacant slot) (row : StoredRow) :
    (t.push row).Vacant slot := by
  obtain ⟨hlt, hnone⟩ := h
  refine ⟨?_, ?_⟩
  · rw [size_push]
    exact Nat.lt_succ_of_lt hlt
  · rw [row?_push, if_neg (Nat.ne_of_lt hlt)]
    exact hnone

theorem vacant_vacate {slot : Nat} (hlt : slot < t.rows.size) : (t.vacate slot).Vacant slot := by
  refine ⟨?_, ?_⟩
  · rw [size_vacate]
    exact hlt
  · rw [row?_vacate, if_pos rfl]

theorem Vacant.vacate {slot : Nat} (h : t.Vacant slot) (place : Nat) :
    (t.vacate place).Vacant slot := by
  refine ⟨?_, ?_⟩
  · rw [size_vacate]
    exact h.1
  · rw [row?_vacate, h.2, ite_self]

/-- There is another place where there is a row to replace. -/
theorem Vacant.replace {slot place : Nat} {row : StoredRow} (h : t.Vacant slot)
    (hrow : t.row? place = some row) (row' : StoredRow) : (t.replace place row').Vacant slot := by
  refine ⟨?_, ?_⟩
  · rw [size_replace]
    exact h.1
  · rw [row?_replace (lt_of_row? hrow), if_neg]
    · exact h.2
    · rintro rfl
      rw [h.2] at hrow
      cases hrow

end TableRows

/-- Clearing a table of its rows. -/
def RowChange.Clears (table : TableId) : RowChange → Prop
  | .truncate other => other = table
  | .drop other => other = table
  | _ => False

namespace MemoryRows

variable {m m' : MemoryRows} {g : GroupId} {p : PlaceId} {location : Location} {row : StoredRow}

/-! ## Changes that may be made -/

/-- A change stores no row under a version that has one, and leaves every table with places that a
location can number. -/
def Admits (m : MemoryRows) (change : RowChange) : Prop :=
  (∀ table row, change = .append table row →
    ∀ x ∈ (m.scan ⟨table, row.group⟩).1, x.2.seq ≠ row.seq) ∧
  ∀ table, ((m.carryOut change).places table).size ≤ slotLimit

/-- Changes that may be made turn some rows into others. -/
inductive Becomes : MemoryRows → List RowChange → MemoryRows → Prop
  | same (m : MemoryRows) : Becomes m [] m
  | change {m m' : MemoryRows} {change : RowChange} {later : List RowChange}
      (hadmits : m.Admits change) (hlater : Becomes (m.carryOut change) later m') :
      Becomes m (change :: later) m'

/-! ## Locations -/

/-- The locations that lead to a place, among those that fit into 64 bits. -/
theorem slotOf_eq_some (haddress : p.location.address < slotLimit * slotLimit) {slot : Nat} :
    slotOf p = some slot ↔ p.location = locationOf p.table slot ∧ slot < slotLimit := by
  constructor
  · intro hslot
    unfold slotOf at hslot
    split at hslot
    · rename_i htable
      have hquotient : p.location.address / slotLimit < slotLimit :=
        Nat.div_lt_of_lt_mul haddress
      rw [Nat.mod_eq_of_lt hquotient] at htable
      cases hslot
      refine ⟨?_, Nat.mod_lt _ (by decide)⟩
      unfold locationOf
      rw [← htable, Nat.div_add_mod' p.location.address slotLimit]
    · cases hslot
  · rintro ⟨hlocation, hlt⟩
    have hplace : p = ⟨p.table, locationOf p.table slot⟩ := by rw [← hlocation]
    rw [hplace]
    exact slotOf_locationOf p.table hlt

/-- What is found by looking through a group. -/
theorem mem_scan : (location, row) ∈ (m.scan g).1 ↔
    ∃ slot, location = locationOf g.table slot ∧ (m.rowsOf g.table).row? slot = some row ∧
      row.group = g.group := by
  show (location, row) ∈ m.ofGroup g ↔ _
  unfold ofGroup
  rw [List.mem_map]
  constructor
  · rintro ⟨⟨slot, other⟩, hother, heq⟩
    cases heq
    exact ⟨slot, rfl, TableRows.mem_ofGroup.mp hother⟩
  · rintro ⟨slot, rfl, hrow⟩
    exact ⟨(slot, row), TableRows.mem_ofGroup.mpr hrow, rfl⟩

theorem fetch_locationOf (table : TableId) {slot : Nat} (h : slot < slotLimit) :
    (m.fetch ⟨table, locationOf table slot⟩).1 = (m.rowsOf table).row? slot :=
  row?_locationOf table h

/-! ## The ways agree -/

/-- All ways lead to the same rows. -/
structure PathsAgree (m : MemoryRows) : Prop where
  /-- The index has one entry for each live row, which leads to the place of the row. -/
  index : ∀ table, (m.rowsOf table).index.toList.Perm
    ((m.rowsOf table).live.map fun p => ((p.2.group, p.2.seq), p.1))
  /-- A version is found by the index where looking through its group finds it. -/
  find : m.indexed = true → ∀ v location row, (m.find v).1 = some (location, row) ↔
    (location, row) ∈ (m.scan v.toGroupId).1 ∧ row.seq = v.seq
  /-- What is found in a group is what lies at its location. -/
  fetch : ∀ p row, p.location.address < slotLimit * slotLimit → ((m.fetch p).1 = some row ↔
    (p.location, row) ∈ (m.scan ⟨p.table, row.group⟩).1)
  /-- What is found in a group has a location of 64 bits. -/
  located : ∀ g location row, (location, row) ∈ (m.scan g).1 →
    row.group = g.group ∧ location.address < slotLimit * slotLimit
  /-- A location of one table leads to no row of another. -/
  apart : ∀ table table' location, table ≠ table' →
    (m.fetch ⟨table, location⟩).1 = none ∨ (m.fetch ⟨table', location⟩).1 = none
  /-- The largest number of a group is the largest one found in it. -/
  maxSeq : ∀ g, (m.maxSeq g).1 = ((m.scan g).1.map (·.2.seq)).max?.getD 0
  /-- As many rows are counted as there are places with a row. -/
  rowCount : ∀ table, m.rowCount table = (List.range (m.places table).size).countP fun slot =>
    (m.fetch ⟨table, locationOf table slot⟩).1.isSome

/-- The index finds what looking through the group finds. -/
theorem Valid.find_iff (h : m.Valid) (hindexed : m.indexed = true) (v : VersionId)
    (location : Location) (row : StoredRow) : (m.find v).1 = some (location, row) ↔
      (location, row) ∈ (m.scan v.toGroupId).1 ∧ row.seq = v.seq := by
  unfold find
  simp only [hindexed, if_true]
  rw [mem_scan]
  simp only [Option.bind_eq_some_iff, Option.map_eq_some_iff, Prod.mk.injEq]
  constructor
  · rintro ⟨slot, hslot, other, hother, rfl, rfl⟩
    obtain ⟨x, hx, hgroup, hseq⟩ := (h v.table v.group v.seq slot).mp hslot
    rw [hother] at hx
    cases hx
    exact ⟨⟨slot, rfl, hother, hgroup⟩, hseq⟩
  · rintro ⟨⟨slot, rfl, hrow, hgroup⟩, hseq⟩
    exact ⟨slot, (h v.table v.group v.seq slot).mpr ⟨row, hrow, hgroup, hseq⟩, row, hrow, rfl, rfl⟩

theorem locationOf_lt (table : TableId) {slot : Nat} (h : slot < slotLimit) :
    (locationOf table slot).address < slotLimit * slotLimit := by
  have htable : table.toNat < slotLimit := table.toNat_lt
  have hrow : table.toNat * slotLimit + slotLimit ≤ slotLimit * slotLimit := by
    rw [← Nat.succ_mul]
    exact Nat.mul_le_mul_right _ htable
  unfold locationOf
  simp only
  omega

section Places

variable (hplaces : ∀ table, (m.places table).size ≤ slotLimit)
include hplaces

/-- Every row has a place that a location can number. -/
theorem slot_lt {table : TableId} {slot : Nat} (hrow : (m.rowsOf table).row? slot = some row) :
    slot < slotLimit :=
  Nat.lt_of_lt_of_le (TableRows.lt_of_row? hrow) (hplaces table)

/-- At a location lies what looking through the group finds there. -/
theorem fetch_iff (haddress : p.location.address < slotLimit * slotLimit) :
    (m.fetch p).1 = some row ↔ (p.location, row) ∈ (m.scan ⟨p.table, row.group⟩).1 := by
  rw [mem_scan]
  constructor
  · intro hrow
    obtain ⟨slot, hslot, hplace⟩ := row?_eq_some hrow
    exact ⟨slot, ((slotOf_eq_some haddress).mp hslot).1, hplace, rfl⟩
  · rintro ⟨slot, hlocation, hplace, -⟩
    have hslot := (slotOf_eq_some haddress).mpr ⟨hlocation, slot_lt hplaces hplace⟩
    exact Option.bind_eq_some_iff.mpr ⟨slot, hslot, hplace⟩

theorem rowCount_eq (table : TableId) : m.rowCount table =
    (List.range (m.places table).size).countP fun slot =>
      (m.fetch ⟨table, locationOf table slot⟩).1.isSome := by
  refine ((m.rowsOf table).length_live).trans (List.countP_congr fun slot hslot => ?_)
  have hlt : slot < slotLimit := Nat.lt_of_lt_of_le (List.mem_range.mp hslot) (hplaces table)
  rw [fetch_locationOf table hlt]

theorem Valid.pathsAgree (h : m.Valid) : m.PathsAgree where
  index table := (h table).index_perm
  find hindexed := h.find_iff hindexed
  fetch _ _ haddress := fetch_iff hplaces haddress
  located g location row hmem := by
    obtain ⟨slot, rfl, hrow, hgroup⟩ := mem_scan.mp hmem
    exact ⟨hgroup, locationOf_lt g.table (slot_lt hplaces hrow)⟩
  apart table table' location hne := by
    by_cases htable : location.address / slotLimit % slotLimit = table.toNat
    · right
      have hother : location.address / slotLimit % slotLimit ≠ table'.toNat := by
        intro heq
        exact hne (UInt32.toNat_inj.mp (htable.symm.trans heq))
      show (slotOf _).bind _ = none
      unfold slotOf
      rw [if_neg hother]
      rfl
    · left
      show (slotOf _).bind _ = none
      unfold slotOf
      rw [if_neg htable]
      rfl
  maxSeq g := by
    refine ((m.rowsOf g.table).maxSeq_eq g.group).trans ?_
    show _ = ((m.ofGroup g).map (·.2.seq)).max?.getD 0
    unfold ofGroup
    rw [List.map_map]
    rfl
  rowCount := rowCount_eq hplaces

end Places

/-! ## Moving a row -/

/-- Moving what lies at a location changes nothing but where it is; where nothing lies, nothing
happens. -/
def Moves (m : MemoryRows) (p : PlaceId) : Prop :=
  match m.relocate p with
  | (none, m') => (m.fetch p).1 = none ∧ m' = m
  | (some location, m') => ∃ row, (m.fetch p).1 = some row ∧
    (m'.fetch ⟨p.table, location⟩).1 = some row ∧
    ∀ g place x, (place, x) ∈ (m'.scan g).1 ↔
      if (⟨g, x.seq⟩ : VersionId) = ⟨⟨p.table, row.group⟩, row.seq⟩ then place = location ∧ x = row
      else (place, x) ∈ (m.scan g).1

/-- The row that is moved is in its new place, and all others where they were. -/
theorem Valid.mem_scan_moved (h : m.Valid) {table : TableId} {slot : Nat}
    (hrow : (m.rowsOf table).row? slot = some row)
    (hmoved : Replaced m m' table (((m.rowsOf table).vacate slot).push row)) (g : GroupId)
    (place : Location) (x : StoredRow) : (place, x) ∈ (m'.scan g).1 ↔
      if (⟨g, x.seq⟩ : VersionId) = ⟨⟨table, row.group⟩, row.seq⟩ then
        place = locationOf table (m.places table).size ∧ x = row
      else (place, x) ∈ (m.scan g).1 := by
  rw [mem_scan, mem_scan, hmoved.rowsOf]
  by_cases htable : g.table = table
  · subst htable
    simp only [if_true, TableRows.row?_move]
    split
    · rename_i hversion
      have hgroup : g.group = row.group := congrArg (fun v : VersionId => v.group) hversion
      have hseq : x.seq = row.seq := congrArg VersionId.seq hversion
      constructor
      · rintro ⟨i, rfl, hi, hxgroup⟩
        split at hi
        · rename_i hlast
          cases hi
          exact ⟨by rw [hlast]; rfl, rfl⟩
        · split at hi
          · cases hi
          · rename_i hleft
            -- the version had no other place than the one that was left
            exact absurd
              (h.distinct g.table i slot x row hi hrow (hxgroup.trans hgroup) hseq) hleft
      · rintro ⟨rfl, rfl⟩
        exact ⟨_, rfl, if_pos rfl, hgroup.symm⟩
    · rename_i hversion
      refine exists_congr fun i => and_congr_right fun _ => and_congr_left fun hxgroup => ?_
      have hother : x ≠ row := by
        rintro rfl
        exact hversion (by rw [hxgroup])
      split
      · rename_i hlast
        have hnone : (m.rowsOf g.table).row? i ≠ some x := by
          intro hx
          exact Nat.ne_of_lt (TableRows.lt_of_row? hx) hlast
        simp [hother.symm, hnone]
      · split
        · rename_i hleft
          rw [hleft, hrow]
          simp [hother.symm]
        · rfl
  · have hversion : (⟨g, x.seq⟩ : VersionId) ≠ ⟨⟨table, row.group⟩, row.seq⟩ := by
      intro heq
      exact htable (congrArg (fun v : VersionId => v.table) heq)
    rw [if_neg htable, if_neg hversion]

theorem Valid.moves (h : m.Valid) (hadmits : m.Admits (.relocate p)) : m.Moves p := by
  unfold Moves
  rcases replaced_relocate (m := m) p with ⟨slot, row, hslot, hrow, hlocation, hmoved⟩ |
    ⟨hnone, hsame⟩
  · have hroom : (m.places p.table).size < slotLimit := by
      have hafter : ((m.relocate p).2.places p.table).size ≤ slotLimit := hadmits.2 p.table
      unfold places at hafter ⊢
      rw [hmoved.rowsOf, if_pos rfl] at hafter
      rw [TableRows.size_push, TableRows.size_vacate] at hafter
      exact hafter
    rw [← Prod.mk.eta (p := m.relocate p), hlocation]
    refine ⟨row, Option.bind_eq_some_iff.mpr ⟨slot, hslot, hrow⟩, ?_, h.mem_scan_moved hrow hmoved⟩
    rw [fetch_locationOf p.table hroom, hmoved.rowsOf, if_pos rfl, TableRows.row?_move]
    exact if_pos rfl
  · rw [hsame]
    exact ⟨hnone, rfl⟩

/-! ## Places that were left -/

/-- A place that was given out and has no row. -/
def Vacant (m : MemoryRows) (p : PlaceId) : Prop :=
  ∃ slot, slotOf p = some slot ∧ (m.rowsOf p.table).Vacant slot

theorem Vacant.fetch (h : m.Vacant p) : (m.fetch p).1 = none := by
  obtain ⟨slot, hslot, -, hnone⟩ := h
  show (slotOf p).bind _ = none
  rw [hslot]
  exact hnone

/-- Where a row is taken away, its place is left. -/
theorem vacant_of_taken {change : RowChange}
    (hchange : change = .relocate p ∨ change = .remove p) (hrow : (m.fetch p).1 = some row) :
    (m.carryOut change).Vacant p := by
  obtain ⟨slot, hslot, hplace⟩ := row?_eq_some hrow
  have hleft : ((m.rowsOf p.table).vacate slot).Vacant slot :=
    TableRows.vacant_vacate (TableRows.lt_of_row? hplace)
  rcases hchange with rfl | rfl
  · rcases replaced_relocate (m := m) p with ⟨i, x, hi, -, -, hmoved⟩ | ⟨hnone, -⟩
    · rw [hslot] at hi
      cases hi
      refine ⟨slot, hslot, ?_⟩
      show ((m.relocate p).2.rowsOf p.table).Vacant slot
      rw [hmoved.rowsOf, if_pos rfl]
      exact hleft.push _
    · exact absurd (hrow.symm.trans hnone) (by simp)
  · rcases replaced_remove (m := m) p with ⟨i, x, hi, -, -, hremoved⟩ | hsame
    · rw [hslot] at hi
      cases hi
      refine ⟨slot, hslot, ?_⟩
      show ((m.remove p).2.rowsOf p.table).Vacant slot
      rw [hremoved.rowsOf, if_pos rfl]
      exact hleft
    · unfold remove at hsame
      rw [hslot, show m.row? p = some row from hrow] at hsame
      cases hsame

/-- A place that was left stays so until its table is cleared. -/
theorem Vacant.carryOut (h : m.Vacant p) {change : RowChange} (hclears : ¬ change.Clears p.table) :
    (m.carryOut change).Vacant p := by
  obtain ⟨slot, hslot, hvacant⟩ := h
  refine ⟨slot, hslot, ?_⟩
  rcases carryOut_cases m change with hsame | ⟨table, t, hrows, haltered⟩
  · rw [hsame]
    exact hvacant
  · rw [hrows.rowsOf]
    split
    · rename_i htable
      subst htable
      cases haltered with
      | push row => exact hvacant.push row
      | move _ => exact (hvacant.vacate _).push _
      | delete _ => exact hvacant.vacate _
      | replace hrow _ _ => exact hvacant.replace hrow _
      | truncate => exact absurd rfl hclears
      | drop => exact absurd rfl hclears
    · exact hvacant

/-! ## Rows that there can be -/

/-- A change that may be made keeps the index right. -/
theorem Valid.carryOut (h : m.Valid) {change : RowChange} (hadmits : m.Admits change) :
    (m.carryOut change).Valid := by
  rcases carryOut_cases m change with hsame | ⟨table, t, hrows, haltered⟩
  · exact h.congr hsame
  · refine hrows.valid h ?_
    cases haltered with
    | push row =>
      refine (h table).push fun slot other hother hgroup => ?_
      exact hadmits.1 table row rfl _ (mem_scan.mpr ⟨slot, rfl, hother, hgroup⟩)
    | move hrow => exact (h table).move hrow
    | delete hrow => exact (h table).delete hrow
    | replace hrow hgroup hseq => exact (h table).replace hrow hgroup hseq
    | truncate => exact TableRows.valid_empty
    | drop => exact TableRows.valid_empty

theorem Becomes.vacant {later : List RowChange} (h : Becomes m later m') (hvacant : m.Vacant p)
    (hclears : ∀ change ∈ later, ¬ change.Clears p.table) : m'.Vacant p := by
  induction h with
  | same => exact hvacant
  | change _ _ ih =>
    obtain ⟨hnow, hlater⟩ := List.forall_mem_cons.mp hclears
    exact ih (hvacant.carryOut hnow) hlater

/-- Changes that may be made keep the index right and the places few enough. -/
theorem Becomes.valid {changes : List RowChange} (h : Becomes m changes m') (hvalid : m.Valid)
    (hplaces : ∀ table, (m.places table).size ≤ slotLimit) :
    m'.Valid ∧ ∀ table, (m'.places table).size ≤ slotLimit := by
  induction h with
  | same => exact ⟨hvalid, hplaces⟩
  | change hadmits _ ih => exact ih (hvalid.carryOut hadmits) hadmits.2

/-- Rows that there can be have a right index and few enough places. -/
theorem Becomes.valid_of_empty {indexed : Bool} {changes : List RowChange}
    (h : Becomes { indexed } changes m) :
    m.Valid ∧ ∀ table, (m.places table).size ≤ slotLimit := by
  refine h.valid (valid_empty indexed) fun table => ?_
  unfold places
  rw [rowsOf_empty]
  exact Nat.zero_le _

/-- Whether versions are found by the index stays as it is. -/
theorem indexed_carryOut (m : MemoryRows) (change : RowChange) :
    (m.carryOut change).indexed = m.indexed := by
  cases change <;> simp only [carryOut, append, relocate, remove, overwrite, truncate, drop, fetch,
    find, scan, maxSeq, modifyTable]
  all_goals repeat' split
  all_goals rfl

theorem Becomes.indexed_eq {changes : List RowChange} (h : Becomes m changes m') :
    m'.indexed = m.indexed := by
  induction h with
  | same => rfl
  | change _ _ ih => exact ih.trans (indexed_carryOut _ _)

/-! ## Changes in a row -/

/-- No change stores a row under a version that one of the changes before it left there, and none
has appends rejected. -/
def fresh (earlier : List RowChange) : List RowChange → Bool
  | [] => true
  | change :: later =>
    (match change with
      | .append table row => ((replay table earlier).ofGroup row.group).all (·.2.seq ≠ row.seq)
      | .reject _ => false
      | _ => true) && fresh (earlier ++ [change]) later

theorem not_reject_of_fresh (earlier : List RowChange) {changes : List RowChange}
    (h : fresh earlier changes) (count : Nat) : .reject count ∉ changes := by
  induction changes generalizing earlier with
  | nil => exact List.not_mem_nil
  | cons change later ih =>
    obtain ⟨hchange, hlater⟩ := Bool.and_eq_true_iff.mp h
    intro hmem
    rcases List.mem_cons.mp hmem with rfl | hmem
    · cases hchange
    · exact ih _ hlater hmem

/-- Changes may be made one after the other if none is to store a version again. -/
theorem becomes_of_fresh (indexed : Bool) (earlier : List RowChange) {changes : List RowChange}
    (hearlier : ∀ count, .reject count ∉ earlier) (h : fresh earlier changes)
    (hroom : (earlier ++ changes).length ≤ slotLimit) :
    let m := earlier.foldl carryOut { indexed }
    Becomes m changes (changes.foldl carryOut m) := by
  induction changes generalizing earlier with
  | nil => exact .same _
  | cons change later ih =>
    intro m
    have hreject := not_reject_of_fresh earlier h
    obtain ⟨hchange, hlater⟩ := Bool.and_eq_true_iff.mp h
    have hsplit : earlier ++ change :: later = earlier ++ [change] ++ later := by simp
    have hnow : ∀ count, .reject count ∉ earlier ++ [change] := fun count hmem => by
      rcases List.mem_append.mp hmem with hmem | hmem
      · exact hearlier count hmem
      · exact hreject count (List.mem_cons.mpr (.inl (List.mem_singleton.mp hmem)))
    rw [hsplit] at hroom
    have hlength : (earlier ++ [change]).length ≤ slotLimit := by
      rw [List.length_append] at hroom
      exact Nat.le_of_add_right_le hroom
    have hbefore : earlier.length ≤ slotLimit := by
      rw [List.length_append] at hlength
      exact Nat.le_of_add_right_le hlength
    obtain ⟨-, hrows⟩ := rowsOf_replay indexed earlier hearlier hbefore
    obtain ⟨-, hrows'⟩ := rowsOf_replay indexed _ hnow hlength
    have hnext := ih (earlier ++ [change]) hnow hlater hroom
    rw [List.foldl_append] at hrows' hnext
    refine .change ⟨?_, fun table => Nat.le_trans (hrows' table).1 hlength⟩ hnext
    rintro table row rfl ⟨location, x⟩ hx
    obtain ⟨slot, -, hplace, hgroup⟩ := mem_scan.mp hx
    rw [(hrows table).2] at hplace
    have hall := List.all_eq_true.mp hchange (slot, x)
      (TableRows.mem_ofGroup.mpr ⟨hplace, hgroup⟩)
    exact of_decide_eq_true hall

/-! ## All ways lead to the same rows -/

/-- Whatever changes are made, as long as no row is stored under a version that has one and no table
has more places than a location can number, all ways lead to the same rows; moving a row changes
nothing but where it is; and where a row was taken away, nothing is found until its table is
cleared. -/
theorem Becomes.paths_agree {indexed : Bool} {changes : List RowChange}
    (h : Becomes { indexed } changes m) :
    m.indexed = indexed ∧ m.PathsAgree ∧
    (∀ p, m.Admits (.relocate p) → m.Moves p) ∧
    ∀ p change row later m', change = .relocate p ∨ change = .remove p →
      (m.fetch p).1 = some row → Becomes m (change :: later) m' →
      (∀ change ∈ later, ¬ change.Clears p.table) → (m'.fetch p).1 = none := by
  obtain ⟨hvalid, hplaces⟩ := h.valid_of_empty
  refine ⟨h.indexed_eq, hvalid.pathsAgree hplaces, fun p hadmits => hvalid.moves hadmits, ?_⟩
  intro p change row later m' hchange hrow hbecomes hclears
  cases hbecomes with
  | change hadmits hlater => exact (hlater.vacant (vacant_of_taken hchange hrow) hclears).fetch

/-- Rows of two groups and of two tables, of which one is deleted. -/
def sundryChanges : List RowChange :=
  [.append 1 ⟨.zero, 1, #[#[1]]⟩, .append 1 ⟨⟨0, 7⟩, 1, #[#[2]]⟩, .append 2 ⟨.zero, 1, #[]⟩,
    .append 1 ⟨.zero, 2, #[#[3]]⟩, .remove ⟨1, locationOf 1 1⟩]

/-- The first row of the one group is moved, and the version that was deleted is stored again. -/
theorem paths_agree_sundry :
    let m := sundryChanges.foldl carryOut {}
    let p : PlaceId := ⟨1, locationOf 1 0⟩
    let later : List RowChange := [.append 1 ⟨⟨0, 7⟩, 1, #[#[4]]⟩]
    let m' := later.foldl carryOut (m.carryOut (.relocate p))
    (Becomes {} sundryChanges m ∧ Becomes m (.relocate p :: later) m' ∧
      (m.fetch p).1 = some ⟨.zero, 1, #[#[1]]⟩ ∧ ∀ change ∈ later, ¬ change.Clears p.table) ∧
    m.PathsAgree ∧ m.Moves p ∧ (m'.fetch p).1 = none ∧
    (m.scan ⟨1, .zero⟩).1 =
      [(locationOf 1 0, ⟨.zero, 1, #[#[1]]⟩), (locationOf 1 2, ⟨.zero, 2, #[#[3]]⟩)] ∧
    (m.find ⟨⟨1, ⟨0, 7⟩⟩, 1⟩).1 = none ∧ (m.maxSeq ⟨1, .zero⟩).1 = 2 ∧ m.rowCount 1 = 2 ∧
    (m'.scan ⟨1, .zero⟩).1 =
      [(locationOf 1 2, ⟨.zero, 2, #[#[3]]⟩), (locationOf 1 3, ⟨.zero, 1, #[#[1]]⟩)] := by
  intro m p later m'
  have hfresh : fresh [] sundryChanges := by decide +kernel
  have hfreshLater : fresh sundryChanges (.relocate p :: later) := by decide +kernel
  have hfreshAll : fresh [] (sundryChanges ++ .relocate p :: later) := by decide +kernel
  have hreject := not_reject_of_fresh [] hfresh
  have hfirst : Becomes {} sundryChanges m := becomes_of_fresh true [] nofun hfresh (by decide)
  have hsecond : Becomes m (.relocate p :: later) m' :=
    becomes_of_fresh true sundryChanges hreject hfreshLater (by decide)
  obtain ⟨-, hrows⟩ := rowsOf_replay true sundryChanges hreject (by decide)
  obtain ⟨-, hrows'⟩ := rowsOf_replay true _ (not_reject_of_fresh [] hfreshAll) (by decide)
  rw [List.foldl_append] at hrows'
  have hlast : m'.rowsOf 1 = replay 1 (sundryChanges ++ .relocate p :: later) := (hrows' 1).2
  have hrow : (m.fetch p).1 = some ⟨.zero, 1, #[#[1]]⟩ := by
    rw [fetch_locationOf 1 (by decide), (hrows 1).2]
    rfl
  have hmaxSeq : (m.maxSeq ⟨1, .zero⟩).1 = 2 := by
    show (m.rowsOf 1).maxSeq .zero = 2
    rw [(hrows 1).2]
    decide +kernel
  have hrowCount : m.rowCount 1 = 2 := by
    show (m.rowsOf 1).live.length = 2
    rw [(hrows 1).2]
    decide +kernel
  obtain ⟨hindexed, hagree, hmoves, hleft⟩ := hfirst.paths_agree
  have hdeleted : (m.find ⟨⟨1, ⟨0, 7⟩⟩, 1⟩).1 = none := by
    refine Option.eq_none_iff_forall_ne_some.mpr fun (location, row) hfind => ?_
    obtain ⟨hmem, -⟩ := (hagree.find hindexed _ location row).mp hfind
    rw [scan_eq (hrows 1).2] at hmem
    cases hmem
  have hmove : m.Moves p := by
    cases hsecond with
    | change hadmits _ => exact hmoves p hadmits
  have hclears : ∀ change ∈ later, ¬ change.Clears p.table := by simp [later, RowChange.Clears]
  exact ⟨⟨hfirst, hsecond, hrow, hclears⟩, hagree, hmove,
    hleft p _ _ later m' (.inl rfl) hrow hsecond hclears,
    (scan_eq (g := ⟨1, .zero⟩) (hrows 1).2).trans (by decide +kernel), hdeleted, hmaxSeq,
    hrowCount, (scan_eq (g := ⟨1, .zero⟩) hlast).trans (by decide +kernel)⟩

end MemoryRows

end VersionChain
