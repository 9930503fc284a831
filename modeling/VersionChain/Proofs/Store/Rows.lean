import VersionChain.Store.Memory

/-!
# Rows in memory and their index

The rows of a table are an array of places, and the index leads from a version to the place of
its row. As long as no version is stored twice, all ways to a row lead to the same one, and
moving a row changes nothing but its place.

* `MemoryRows.Valid` — the index of every table leads to exactly its live rows;
* `MemoryRows.stored` — the row of a version;
* `mem_ofGroup`, `maxSeq_spec` — what the ways to a row give;
* `stored_push`, `stored_move`, `stored_clear` — what the changes do to what is stored.
-/

namespace VersionChain

namespace TableRows

variable {t : TableRows} {slot : Nat} {row : StoredRow}

/-- The index leads to exactly the live rows. -/
def Valid (t : TableRows) : Prop :=
  ∀ group seq slot, t.index[(group, seq)]? = some slot ↔
    ∃ row, t.row? slot = some row ∧ row.group = group ∧ row.seq = seq

theorem row?_eq_some : t.row? slot = some row ↔ t.rows[slot]? = some (some row) := by
  unfold row?
  rw [Option.join_eq_some_iff]

theorem valid_empty : Valid {} := by
  intro group seq slot
  have hindex : ({} : TableRows).index[(group, seq)]? = none := Std.HashMap.getElem?_empty
  rw [hindex]
  constructor
  · intro h
    cases h
  · rintro ⟨row, hrow, -⟩
    rw [row?_eq_some] at hrow
    simp at hrow

theorem row?_push (slot : Nat) (row : StoredRow) :
    (t.push row).row? slot = if slot = t.rows.size then some row else t.row? slot := by
  unfold row? push
  simp only [Array.getElem?_push]
  split <;> rfl

@[simp] theorem size_push (t : TableRows) (row : StoredRow) :
    (t.push row).rows.size = t.rows.size + 1 := Array.size_push _

@[simp] theorem size_vacate (t : TableRows) (slot : Nat) :
    (t.vacate slot).rows.size = t.rows.size := Array.size_setIfInBounds

theorem row?_vacate (slot place : Nat) :
    (t.vacate place).row? slot = if slot = place then none else t.row? slot := by
  unfold row? vacate
  by_cases h : slot = place
  · rw [if_pos h, h]
    by_cases hlt : place < t.rows.size
    · simp only [Array.getElem?_setIfInBounds_self_of_lt hlt]
      rfl
    · rw [Array.getElem?_eq_none (by simpa using Nat.le_of_not_lt hlt)]
      rfl
  · rw [if_neg h]
    simp only [Array.getElem?_setIfInBounds_ne (Ne.symm h)]

/-- What lies where once a row was moved behind the others. -/
theorem row?_move (slot place : Nat) (row : StoredRow) :
    ((t.vacate place).push row).row? slot =
      if slot = t.rows.size then some row else if slot = place then none else t.row? slot := by
  rw [row?_push, row?_vacate, size_vacate]

theorem lt_of_row? (h : t.row? slot = some row) : slot < t.rows.size :=
  (Array.getElem?_eq_some_iff.mp (row?_eq_some.mp h)).1

/-- The index leads from the version of the last row to its place. -/
theorem index_push (group : Fingerprint) (seq : Nat) : (t.push row).index[(group, seq)]? =
    if (row.group, row.seq) = (group, seq) then some t.rows.size else t.index[(group, seq)]? := by
  show (t.index.insert (row.group, row.seq) t.rows.size)[(group, seq)]? = _
  rw [Std.HashMap.getElem?_insert]
  simp only [beq_iff_eq]

/-- Putting a row of a new version behind the others. -/
theorem Valid.push (h : t.Valid)
    (hnew : ∀ slot other, t.row? slot = some other → other.group = row.group → other.seq ≠ row.seq) :
    (t.push row).Valid := by
  intro group seq slot
  rw [index_push, row?_push]
  by_cases hkey : (row.group, row.seq) = (group, seq)
  · obtain ⟨rfl, rfl⟩ := Prod.mk.inj hkey
    rw [if_pos rfl]
    constructor
    · intro heq
      cases heq
      exact ⟨row, if_pos rfl, rfl, rfl⟩
    · rintro ⟨other, hother, hgroup, hseq⟩
      split at hother
      · rename_i hslot
        rw [hslot]
      · exact absurd hseq (hnew slot other hother hgroup)
  · rw [if_neg hkey, h group seq slot]
    constructor
    · rintro ⟨other, hother, hgroup, hseq⟩
      have hne : slot ≠ t.rows.size := by
        have := lt_of_row? hother
        omega
      exact ⟨other, by rw [if_neg hne]; exact hother, hgroup, hseq⟩
    · rintro ⟨other, hother, hgroup, hseq⟩
      split at hother
      · cases hother
        exact absurd (by rw [hgroup, hseq]) hkey
      · exact ⟨other, hother, hgroup, hseq⟩

/-- Moving a row behind the others. -/
theorem Valid.move (h : t.Valid) (hrow : t.row? slot = some row) :
    ((t.vacate slot).push row).Valid := by
  intro group seq place
  have hindex : (t.vacate slot).index = t.index := rfl
  rw [index_push, row?_move, size_vacate, hindex]
  by_cases hkey : (row.group, row.seq) = (group, seq)
  · obtain ⟨rfl, rfl⟩ := Prod.mk.inj hkey
    rw [if_pos rfl]
    have hself := (h row.group row.seq slot).mpr ⟨row, hrow, rfl, rfl⟩
    constructor
    · intro heq
      cases heq
      exact ⟨row, if_pos rfl, rfl, rfl⟩
    · rintro ⟨other, hother, hgroup, hseq⟩
      split at hother
      · rename_i hplace
        rw [hplace]
      · split at hother
        · cases hother
        · rename_i hne
          -- the version has no other place than the one that was left
          have hplace := (h row.group row.seq place).mpr ⟨other, hother, hgroup, hseq⟩
          rw [hself] at hplace
          exact absurd (Option.some.inj hplace).symm hne
  · rw [if_neg hkey, h group seq place]
    constructor
    · rintro ⟨other, hother, hgroup, hseq⟩
      have hlt := lt_of_row? hother
      have hne : place ≠ slot := by
        rintro rfl
        rw [hrow] at hother
        cases hother
        exact hkey (by rw [hgroup, hseq])
      exact ⟨other, by rw [if_neg (by omega), if_neg hne]; exact hother, hgroup, hseq⟩
    · rintro ⟨other, hother, hgroup, hseq⟩
      split at hother
      · cases hother
        exact absurd (by rw [hgroup, hseq]) hkey
      · split at hother
        · cases hother
        · exact ⟨other, hother, hgroup, hseq⟩

theorem mem_live : (slot, row) ∈ t.live ↔ t.row? slot = some row := by
  unfold live
  rw [row?_eq_some, List.mem_filterMap]
  constructor
  · rintro ⟨⟨place, i⟩, hmem, hmap⟩
    obtain ⟨x, hx, heq⟩ := Option.map_eq_some_iff.mp hmap
    cases heq
    have hget := List.mem_zipIdx_iff_getElem?.mp hmem
    simp only at hget hx
    rw [Array.getElem?_toList] at hget
    rw [hget, hx]
  · intro hget
    refine ⟨(some row, slot), List.mem_zipIdx_iff_getElem?.mpr ?_, rfl⟩
    rw [Array.getElem?_toList]
    exact hget

/-- The live rows come in the order of their numbers. -/
theorem pairwise_live (t : TableRows) : t.live.Pairwise fun a b => a.1 < b.1 := by
  unfold live
  rw [List.pairwise_filterMap]
  have hslots : t.rows.toList.zipIdx.Pairwise fun a b => a.2 < b.2 := by
    rw [← List.pairwise_map (f := Prod.snd), List.zipIdx_map_snd]
    exact List.pairwise_lt_range' 1
  refine hslots.imp fun {a b} hlt x hx y hy => ?_
  obtain ⟨_, _, rfl⟩ := Option.map_eq_some_iff.mp hx
  obtain ⟨_, _, rfl⟩ := Option.map_eq_some_iff.mp hy
  exact hlt

theorem mem_ofGroup {group : Fingerprint} :
    (slot, row) ∈ t.ofGroup group ↔ t.row? slot = some row ∧ row.group = group := by
  unfold ofGroup
  rw [List.mem_filter, mem_live]
  simp

/-- The largest number is met among the rows of the group, or is the one to begin with. -/
theorem foldl_raise (group : Fingerprint) (places : List (Option StoredRow)) (least : Nat) :
    least ≤ places.foldl (raise group) least ∧
    (∀ row, some row ∈ places → row.group = group → row.seq ≤ places.foldl (raise group) least) ∧
    (places.foldl (raise group) least = least ∨
      ∃ row, some row ∈ places ∧ row.group = group ∧ row.seq = places.foldl (raise group) least) := by
  induction places generalizing least with
  | nil => exact ⟨Nat.le_refl _, fun row hrow => absurd hrow List.not_mem_nil, .inl rfl⟩
  | cons place rest ih =>
    obtain ⟨hle, hall, hmet⟩ := ih (raise group least place)
    have hraise : least ≤ raise group least place := by
      unfold raise
      split
      · split <;> omega
      · exact Nat.le_refl _
    refine ⟨Nat.le_trans hraise hle, ?_, ?_⟩
    · intro row hrow hgroup
      rcases List.mem_cons.mp hrow with rfl | hrest
      · refine Nat.le_trans ?_ hle
        unfold raise
        simp only [if_pos hgroup]
        exact Nat.le_max_right _ _
      · exact hall row hrest hgroup
    · -- the largest number is met behind the first place, at it, or nowhere
      rw [List.foldl_cons]
      rcases hmet with heq | ⟨row, hrow, hgroup, hseq⟩
      · cases place with
        | none => exact .inl heq
        | some row =>
          by_cases hgroup : row.group = group
          · have hmax : raise group least (some row) = max least row.seq := if_pos hgroup
            by_cases hlt : row.seq ≤ least
            · left
              rw [heq, hmax]
              omega
            · right
              refine ⟨row, List.mem_cons_self, hgroup, ?_⟩
              rw [heq, hmax]
              omega
          · left
            rw [heq]
            exact if_neg hgroup
      · exact .inr ⟨row, List.mem_cons_of_mem _ hrow, hgroup, hseq⟩

/-- The largest number is that of a row of the group, or 0. -/
theorem maxSeq_spec (t : TableRows) (group : Fingerprint) :
    (∀ slot row, t.row? slot = some row → row.group = group → row.seq ≤ t.maxSeq group) ∧
    (t.maxSeq group = 0 ∨
      ∃ slot row, t.row? slot = some row ∧ row.group = group ∧ row.seq = t.maxSeq group) := by
  have hplace : ∀ row, some row ∈ t.rows.toList ↔ ∃ slot, t.row? slot = some row := by
    intro row
    rw [List.mem_iff_getElem?]
    refine exists_congr fun slot => ?_
    rw [Array.getElem?_toList, row?_eq_some]
  unfold maxSeq
  rw [← Array.foldl_toList]
  obtain ⟨-, hall, hmet⟩ := foldl_raise group t.rows.toList 0
  refine ⟨fun slot row hrow hgroup => hall row ((hplace row).mpr ⟨slot, hrow⟩) hgroup, ?_⟩
  refine hmet.imp_right ?_
  rintro ⟨row, hrow, hgroup, hseq⟩
  obtain ⟨slot, hslot⟩ := (hplace row).mp hrow
  exact ⟨slot, row, hslot, hgroup, hseq⟩

end TableRows

namespace MemoryRows

variable {m : MemoryRows}

/-- The index of every table leads to exactly its live rows. -/
def Valid (m : MemoryRows) : Prop := ∀ table, (m.rowsOf table).Valid

/-- The places of a table. -/
def places (m : MemoryRows) (table : TableId) : Array (Option StoredRow) := (m.rowsOf table).rows

/-- The row of a version. -/
def stored (m : MemoryRows) (v : VersionId) : Option StoredRow :=
  (m.rowsOf v.table).index[(v.group, v.seq)]?.bind (m.rowsOf v.table).row?

theorem Valid.stored_eq_some (h : m.Valid) {v : VersionId} {row : StoredRow} :
    m.stored v = some row ↔
      ∃ slot, (m.rowsOf v.table).row? slot = some row ∧ row.group = v.group ∧ row.seq = v.seq := by
  unfold stored
  rw [Option.bind_eq_some_iff]
  constructor
  · rintro ⟨slot, hslot, hrow⟩
    obtain ⟨other, hother, hgroup, hseq⟩ := (h v.table v.group v.seq slot).mp hslot
    rw [hrow] at hother
    cases hother
    exact ⟨slot, hrow, hgroup, hseq⟩
  · rintro ⟨slot, hrow, hgroup, hseq⟩
    exact ⟨slot, (h v.table v.group v.seq slot).mpr ⟨row, hrow, hgroup, hseq⟩, hrow⟩

/-- The versions that are stored are those in the index. -/
theorem Valid.exists_stored (h : m.Valid) {v : VersionId} :
    (∃ row, m.stored v = some row) ↔
      ∃ slot, (m.rowsOf v.table).index[(v.group, v.seq)]? = some slot := by
  constructor
  · rintro ⟨row, hrow⟩
    obtain ⟨slot, hslot, -⟩ := Option.bind_eq_some_iff.mp hrow
    exact ⟨slot, hslot⟩
  · rintro ⟨slot, hslot⟩
    obtain ⟨row, hrow, hversion⟩ := (h v.table v.group v.seq slot).mp hslot
    exact ⟨row, h.stored_eq_some.mpr ⟨slot, hrow, hversion⟩⟩

/-- Nothing but counters differs. -/
def Recounted (m m' : MemoryRows) : Prop := { m' with counters := m.counters } = m

theorem Recounted.trans {m' m'' : MemoryRows} (h : Recounted m m') (h' : Recounted m' m'') :
    Recounted m m'' := by
  have hs := congrArg (fun x : MemoryRows => { x with counters := m.counters }) h'
  exact hs.trans h

theorem Recounted.rowsOf {m' : MemoryRows} (h : Recounted m m') (table : TableId) :
    m'.rowsOf table = m.rowsOf table := by
  have htables : m'.tables = m.tables := (congrArg MemoryRows.tables h :)
  unfold MemoryRows.rowsOf
  rw [htables]

theorem Valid.congr {m' : MemoryRows} (h : m.Valid)
    (hrows : ∀ table, m'.rowsOf table = m.rowsOf table) : m'.Valid := by
  intro table
  rw [hrows]
  exact h table

theorem stored_congr {m' : MemoryRows} (hrows : ∀ table, m'.rowsOf table = m.rowsOf table)
    (v : VersionId) : m'.stored v = m.stored v := by
  unfold MemoryRows.stored
  rw [hrows]

theorem Recounted.valid {m' : MemoryRows} (h : Recounted m m') (hm : m.Valid) : m'.Valid :=
  hm.congr h.rowsOf

theorem Recounted.stored {m' : MemoryRows} (h : Recounted m m') (v : VersionId) :
    m'.stored v = m.stored v := stored_congr h.rowsOf v

theorem Recounted.places {m' : MemoryRows} (h : Recounted m m') (table : TableId) :
    m'.places table = m.places table := by
  unfold MemoryRows.places
  rw [h.rowsOf]

theorem Recounted.rejecting {m' : MemoryRows} (h : Recounted m m') : m'.rejecting = m.rejecting :=
  (congrArg MemoryRows.rejecting h :)

/-! ## Ways to a row -/

theorem recounted_fetch (p : PlaceId) : Recounted m (m.fetch p).2 := rfl

theorem recounted_find (v : VersionId) : Recounted m (m.find v).2 := by
  unfold find
  split <;> rfl

theorem recounted_scan (g : GroupId) : Recounted m (m.scan g).2 := rfl

theorem recounted_maxSeq (g : GroupId) : Recounted m (m.maxSeq g).2 := rfl

/-- The location that is given out for a place leads back to it. -/
theorem slotOf_locationOf (table : TableId) {slot : Nat} (h : slot < slotLimit) :
    slotOf ⟨table, locationOf table slot⟩ = some slot := by
  have htable : table.toNat < slotLimit := table.toNat_lt
  have hpositive : 0 < slotLimit := by decide
  have hquotient : (table.toNat * slotLimit + slot) / slotLimit = table.toNat := by
    rw [Nat.add_comm, Nat.add_mul_div_right _ _ hpositive, Nat.div_eq_of_lt h, Nat.zero_add]
  have hremainder : (table.toNat * slotLimit + slot) % slotLimit = slot := by
    rw [Nat.add_comm, Nat.add_mul_mod_self_right, Nat.mod_eq_of_lt h]
  unfold slotOf locationOf
  simp only [hquotient, hremainder, Nat.mod_eq_of_lt htable, if_true]

theorem row?_locationOf (table : TableId) {slot : Nat} (h : slot < slotLimit) :
    m.row? ⟨table, locationOf table slot⟩ = (m.places table)[slot]?.join := by
  unfold row?
  rw [slotOf_locationOf table h]
  rfl

theorem Valid.mem_ofGroup (h : m.Valid) {g : GroupId} {location : Location} {row : StoredRow}
    (hmem : (location, row) ∈ m.ofGroup g) :
    row.group = g.group ∧ m.stored ⟨g, row.seq⟩ = some row := by
  unfold ofGroup at hmem
  obtain ⟨⟨slot, other⟩, hother, heq⟩ := List.mem_map.mp hmem
  cases heq
  obtain ⟨hrow, hgroup⟩ := TableRows.mem_ofGroup.mp hother
  exact ⟨hgroup, h.stored_eq_some.mpr ⟨slot, hrow, hgroup, rfl⟩⟩

theorem Valid.exists_mem_ofGroup (h : m.Valid) {v : VersionId} {row : StoredRow}
    (hrow : m.stored v = some row) : ∃ location, (location, row) ∈ m.ofGroup v.toGroupId := by
  obtain ⟨slot, hslot, hgroup, -⟩ := h.stored_eq_some.mp hrow
  exact ⟨locationOf v.table slot,
    List.mem_map.mpr ⟨(slot, row), TableRows.mem_ofGroup.mpr ⟨hslot, hgroup⟩, rfl⟩⟩

/-! ## Changes to the places -/

/-- Nothing differs but the rows of one table, which are now these. -/
structure Replaced (m m' : MemoryRows) (table : TableId) (t : TableRows) : Prop where
  rowsOf : ∀ other, m'.rowsOf other = if other = table then t else m.rowsOf other
  rejecting : m'.rejecting = m.rejecting

/-- A table that gets no shorter leaves none shorter. -/
theorem Replaced.size_le {m' : MemoryRows} {table : TableId} {t : TableRows}
    (h : Replaced m m' table t) (hsize : (m.rowsOf table).rows.size ≤ t.rows.size)
    (other : TableId) : (m.places other).size ≤ (m'.places other).size := by
  unfold places
  rw [h.rowsOf]
  split
  · rename_i hother
    rw [hother]
    exact hsize
  · exact Nat.le_refl _

theorem Replaced.valid {m' : MemoryRows} {table : TableId} {t : TableRows}
    (h : Replaced m m' table t) (hm : m.Valid) (ht : t.Valid) : m'.Valid := by
  intro other
  rw [h.rowsOf]
  split
  · exact ht
  · exact hm other

theorem replaced_modifyTable {table : TableId} {f : TableRows → TableRows}
    (h : (m.tables[table]?).isSome ∨ f {} = {}) :
    Replaced m (m.modifyTable table f) table (f (m.rowsOf table)) := by
  refine ⟨fun other => ?_, rfl⟩
  unfold MemoryRows.rowsOf modifyTable
  simp only [Std.HashMap.getD_eq_getD_getElem?, Std.HashMap.getElem?_modify, beq_iff_eq]
  by_cases hother : table = other
  · subst hother
    rw [if_pos rfl, if_pos rfl]
    cases htable : m.tables[table]? with
    | some t => rfl
    | none =>
      rw [htable] at h
      exact (h.resolve_left (by simp)).symm
  · rw [if_neg hother, if_neg (Ne.symm hother)]

theorem append_rejected {table : TableId} {row : StoredRow} (h : 0 < m.rejecting) :
    append table row m = (.error (.rejected table), { m with rejecting := m.rejecting - 1 }) :=
  if_pos h

theorem rowsOf_insertIfNew (table other : TableId) :
    rowsOf { m with tables := m.tables.insertIfNew table {} } other = m.rowsOf other := by
  unfold rowsOf
  simp only [Std.HashMap.getD_eq_getD_getElem?, Std.HashMap.getElem?_insertIfNew, beq_iff_eq]
  split
  · rename_i h
    obtain ⟨rfl, hmem⟩ := h
    rw [Std.HashMap.getElem?_eq_none hmem]
    rfl
  · rfl

theorem append_full {table : TableId} (row : StoredRow) (hrejecting : m.rejecting = 0)
    (hfull : slotLimit ≤ (m.places table).size) :
    ∃ m', append table row m = (.error (.full table), m') ∧
      Replaced m m' table (m.rowsOf table) := by
  refine ⟨{ m with
    counters.appends := m.counters.appends + 1, tables := m.tables.insertIfNew table {} }, ?_,
    fun other => ?_, rfl⟩
  · unfold append
    rw [if_neg (by omega)]
    exact if_pos hfull
  · refine (rowsOf_insertIfNew table other).trans ?_
    split
    · rename_i heq
      rw [heq]
    · rfl

theorem append_ok {table : TableId} (row : StoredRow) (hrejecting : m.rejecting = 0)
    (hroom : (m.places table).size < slotLimit) :
    ∃ m', append table row m = (.ok (locationOf table (m.places table).size), m') ∧
      Replaced m m' table ((m.rowsOf table).push row) := by
  let m₁ : MemoryRows :=
    { m with counters.appends := m.counters.appends + 1, tables := m.tables.insertIfNew table {} }
  have hsame : ∀ other, m₁.rowsOf other = m.rowsOf other := rowsOf_insertIfNew table
  have htable : (m₁.tables[table]?).isSome := by
    show ((m.tables.insertIfNew table {})[table]?).isSome
    rw [Std.HashMap.getElem?_insertIfNew]
    split
    · rfl
    · rename_i h
      rw [Std.HashMap.isSome_getElem?_eq_contains, Std.HashMap.contains_iff_mem]
      exact Classical.byContradiction fun hmem => h ⟨beq_self_eq_true table, hmem⟩
  have hpushed := replaced_modifyTable (m := m₁) (f := (·.push row)) (.inl htable)
  refine ⟨m₁.modifyTable table (·.push row), ?_, fun other => ?_, rfl⟩
  · unfold append
    rw [if_neg (by omega)]
    exact if_neg (Nat.not_le.mpr hroom)
  · rw [hpushed.rowsOf, hsame, hsame]

/-- Why no row would be stored in a table. -/
def refusal (m : MemoryRows) (table : TableId) : Option RowError :=
  if 0 < m.rejecting then some (.rejected table)
  else if slotLimit ≤ (m.places table).size then some (.full table)
  else none

/-- A row that is refused changes no row; any other is put behind the rows of its table. -/
theorem append_refusal (m : MemoryRows) (table : TableId) (row : StoredRow) :
    (∃ cause m', m.refusal table = some cause ∧ append table row m = (.error cause, m') ∧
      ∀ other, m'.rowsOf other = m.rowsOf other) ∨
    ∃ m', m.refusal table = none ∧ (m.places table).size < slotLimit ∧
      append table row m = (.ok (locationOf table (m.places table).size), m') ∧
      Replaced m m' table ((m.rowsOf table).push row) := by
  unfold refusal
  by_cases hrejecting : 0 < m.rejecting
  · rw [if_pos hrejecting]
    exact .inl ⟨_, _, rfl, append_rejected hrejecting, fun _ => rfl⟩
  · rw [if_neg hrejecting]
    rw [Nat.not_lt, Nat.le_zero] at hrejecting
    by_cases hfull : slotLimit ≤ (m.places table).size
    · obtain ⟨m', happend, hrows⟩ := append_full row hrejecting hfull
      rw [if_pos hfull]
      refine .inl ⟨_, m', rfl, happend, fun other => ?_⟩
      rw [hrows.rowsOf]
      split
      · rename_i htable
        rw [htable]
      · rfl
    · obtain ⟨m', happend, hrows⟩ := append_ok row hrejecting (Nat.not_le.mp hfull)
      rw [if_neg hfull]
      exact .inr ⟨m', rfl, Nat.not_le.mp hfull, happend, hrows⟩

/-- A row that is to be stored is put behind the others of its table, or no row changes. -/
theorem append_cases (m : MemoryRows) (table : TableId) (row : StoredRow) :
    (∃ cause m', append table row m = (.error cause, m') ∧
      ∀ other, m'.rowsOf other = m.rowsOf other) ∨
    ∃ location m', append table row m = (.ok location, m') ∧
      Replaced m m' table ((m.rowsOf table).push row) := by
  rcases m.append_refusal table row with ⟨cause, m', -, happend, hrows⟩ |
    ⟨m', -, -, happend, hrows⟩
  · exact .inl ⟨cause, m', happend, hrows⟩
  · exact .inr ⟨_, m', happend, hrows⟩

theorem replaced_truncate (table : TableId) : Replaced m (m.truncate table) table {} :=
  replaced_modifyTable (f := fun _ => {}) (.inr rfl)

theorem replaced_drop (table : TableId) : Replaced m (m.drop table) table {} := by
  refine ⟨fun other => ?_, rfl⟩
  unfold rowsOf drop
  simp only [Std.HashMap.getD_eq_getD_getElem?, Std.HashMap.getElem?_erase, beq_iff_eq]
  by_cases hother : table = other
  · rw [if_pos hother, if_pos hother.symm]
    rfl
  · rw [if_neg hother, if_neg (Ne.symm hother)]

/-- A place that holds a row. -/
theorem row?_eq_some {p : PlaceId} {row : StoredRow} (hrow : m.row? p = some row) :
    ∃ slot, slotOf p = some slot ∧ (m.rowsOf p.table).row? slot = some row :=
  Option.bind_eq_some_iff.mp hrow

/-- A table with a row is there. -/
theorem replaced_of_row? {table : TableId} {slot : Nat} {row : StoredRow}
    (hrow : (m.rowsOf table).row? slot = some row)
    (f : TableRows → TableRows) :
    Replaced m (m.modifyTable table f) table (f (m.rowsOf table)) := by
  refine replaced_modifyTable (.inl ?_)
  cases htable : m.tables[table]? with
  | some t => rfl
  | none =>
    have hempty : m.rowsOf table = {} := by
      unfold rowsOf
      rw [Std.HashMap.getD_eq_getD_getElem?, htable]
      rfl
    rw [hempty, TableRows.row?_eq_some] at hrow
    simp at hrow

/-- Moving a row that is there puts it behind the others; otherwise nothing happens. -/
theorem replaced_relocate (p : PlaceId) :
    (∃ slot row, slotOf p = some slot ∧ (m.rowsOf p.table).row? slot = some row ∧
      (m.relocate p).1 = some (locationOf p.table (m.places p.table).size) ∧
      Replaced m (m.relocate p).2 p.table (((m.rowsOf p.table).vacate slot).push row)) ∨
    ((slotOf p).bind (m.rowsOf p.table).row? = none ∧ m.relocate p = (none, m)) := by
  unfold relocate
  cases hrow : m.row? p with
  | none =>
    right
    refine ⟨hrow, ?_⟩
    split
    · rename_i hsome
      cases hsome
    · rfl
  | some row =>
    obtain ⟨slot, hslot, hplace⟩ := row?_eq_some hrow
    rw [hslot]
    exact .inl ⟨slot, row, rfl, hplace, rfl,
      replaced_of_row? hplace fun t => (t.vacate slot).push row⟩

/-! ## Changes to what is stored -/

theorem stored_push {m' : MemoryRows} {table : TableId} {row : StoredRow}
    (h : Replaced m m' table ((m.rowsOf table).push row)) (hm : m.Valid)
    (hnew : m.stored ⟨⟨table, row.group⟩, row.seq⟩ = none) :
    m'.Valid ∧ ∀ v, m'.stored v =
      if v = ⟨⟨table, row.group⟩, row.seq⟩ then some row else m.stored v := by
  -- no row of the table is of the version yet
  have hfresh : ∀ slot other, (m.rowsOf table).row? slot = some other → other.group = row.group →
      other.seq ≠ row.seq := by
    intro slot other hother hgroup hseq
    have hsome : m.stored ⟨⟨table, row.group⟩, row.seq⟩ = some other :=
      hm.stored_eq_some.mpr ⟨slot, hother, hgroup, hseq⟩
    rw [hnew] at hsome
    cases hsome
  have hm' : m'.Valid := h.valid hm ((hm table).push hfresh)
  refine ⟨hm', fun v => Option.ext fun x => ?_⟩
  rw [hm'.stored_eq_some, h.rowsOf]
  by_cases hv : v = ⟨⟨table, row.group⟩, row.seq⟩
  · subst hv
    rw [if_pos rfl, if_pos rfl]
    constructor
    · rintro ⟨slot, hslot, hgroup, hseq⟩
      rw [TableRows.row?_push] at hslot
      split at hslot
      · exact hslot
      · exact absurd hseq (hfresh slot x hslot hgroup)
    · intro hx
      cases hx
      exact ⟨(m.rowsOf table).rows.size, by rw [TableRows.row?_push, if_pos rfl], rfl, rfl⟩
  · rw [if_neg hv, hm.stored_eq_some]
    by_cases htable : v.table = table
    · rw [if_pos htable, htable]
      constructor
      · rintro ⟨slot, hslot, hgroup, hseq⟩
        rw [TableRows.row?_push] at hslot
        split at hslot
        · cases hslot
          obtain ⟨⟨vtable, vgroup⟩, vseq⟩ := v
          cases htable
          cases hgroup
          cases hseq
          exact absurd rfl hv
        · exact ⟨slot, hslot, hgroup, hseq⟩
      · rintro ⟨slot, hslot, hgroup, hseq⟩
        have hne : slot ≠ (m.rowsOf table).rows.size := by
          have := TableRows.lt_of_row? hslot
          omega
        exact ⟨slot, by rw [TableRows.row?_push, if_neg hne]; exact hslot, hgroup, hseq⟩
    · rw [if_neg htable]

theorem stored_move {m' : MemoryRows} {table : TableId} {slot : Nat} {row : StoredRow}
    (hrow : (m.rowsOf table).row? slot = some row)
    (h : Replaced m m' table (((m.rowsOf table).vacate slot).push row)) (hm : m.Valid) :
    m'.Valid ∧ ∀ v, m'.stored v = m.stored v := by
  have hm' : m'.Valid := h.valid hm ((hm table).move hrow)
  refine ⟨hm', fun v => Option.ext fun x => ?_⟩
  rw [hm'.stored_eq_some, hm.stored_eq_some, h.rowsOf]
  by_cases htable : v.table = table
  · rw [if_pos htable, htable]
    constructor
    · rintro ⟨place, hplace, hgroup, hseq⟩
      rw [TableRows.row?_move] at hplace
      split at hplace
      · cases hplace
        exact ⟨slot, hrow, hgroup, hseq⟩
      · split at hplace
        · cases hplace
        · exact ⟨place, hplace, hgroup, hseq⟩
    · rintro ⟨place, hplace, hgroup, hseq⟩
      by_cases hself : place = slot
      · -- the row that was moved is the last one now
        rw [hself, hrow] at hplace
        cases hplace
        exact ⟨(m.rowsOf table).rows.size, by rw [TableRows.row?_move, if_pos rfl], hgroup, hseq⟩
      · have hlt := TableRows.lt_of_row? hplace
        refine ⟨place, ?_, hgroup, hseq⟩
        rw [TableRows.row?_move, if_neg (by omega), if_neg hself]
        exact hplace
  · rw [if_neg htable]

theorem stored_eq_none {v : VersionId} (h : m.rowsOf v.table = {}) : m.stored v = none := by
  have hindex : ({} : TableRows).index[(v.group, v.seq)]? = none := Std.HashMap.getElem?_empty
  unfold stored
  rw [h, hindex]
  rfl

/-! ## No rows -/

theorem rowsOf_empty (indexed : Bool) (table : TableId) : rowsOf { indexed } table = {} :=
  Std.HashMap.getD_empty

theorem valid_empty (indexed : Bool) : Valid { indexed } := by
  intro table
  rw [rowsOf_empty]
  exact TableRows.valid_empty

theorem stored_empty (indexed : Bool) (v : VersionId) : stored { indexed } v = none :=
  stored_eq_none (rowsOf_empty indexed v.table)

/-! ## Removing a table -/

theorem stored_clear {m' : MemoryRows} {table : TableId} (h : Replaced m m' table {})
    (hm : m.Valid) :
    m'.Valid ∧ ∀ v, m'.stored v = if v.table = table then none else m.stored v := by
  refine ⟨h.valid hm TableRows.valid_empty, fun v => ?_⟩
  have hrows := h.rowsOf v.table
  split
  · rename_i htable
    rw [if_pos htable] at hrows
    exact stored_eq_none hrows
  · rename_i htable
    rw [if_neg htable] at hrows
    unfold stored
    rw [hrows]

end MemoryRows

end VersionChain
