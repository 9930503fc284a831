import VersionChain.Proofs.Store.Quiet

/-!
# Rows that were changed in any way

Rows may be stored under any number, moved, deleted and overwritten, in any order. A version may
then be stored twice, or not be found by the index although it is there. But where the index leads
to a row, it is a live row of the version; so as long as no version is stored twice, its row is
found.

* `RowChange`, `MemoryRows.carryOut`, `MemoryRows.Made` — all that can be done to rows;
* `MemoryRows.carryOut_cases` — what a change can do to the rows of a table;
* `MemoryRows.Indexed` — the index leads to live rows of their versions only;
* `indexed_of_made` — whatever was done, it does;
* `MemoryRows.live?`, `finds_live` — the live row of a version is found;
* `stored_remove`, `stored_overwrite` — changing a row, as long as no version is stored twice;
* `stored_remove_other`, `stored_overwrite_other` — the versions of other groups.
-/

namespace VersionChain

/-- What can be done to rows in memory. -/
inductive RowChange where
  | append (table : TableId) (row : StoredRow)
  | relocate (p : PlaceId)
  | remove (p : PlaceId)
  | overwrite (p : PlaceId) (column : Nat) (record : Bytes)
  | truncate (table : TableId)
  | drop (table : TableId)
  /-- The next appends are rejected. -/
  | reject (count : Nat)
  | fetch (p : PlaceId)
  | find (v : VersionId)
  | scan (g : GroupId)
  | maxSeq (g : GroupId)

namespace TableRows

variable {t : TableRows} {slot : Nat} {row : StoredRow}

/-- The index leads to live rows of their versions only. -/
def Indexed (t : TableRows) : Prop :=
  ∀ group seq slot, t.index[(group, seq)]? = some slot →
    ∃ row, t.row? slot = some row ∧ row.group = group ∧ row.seq = seq

theorem Valid.indexed (h : t.Valid) : t.Indexed :=
  fun group seq slot hslot => (h group seq slot).mp hslot

theorem Indexed.push (h : t.Indexed) (row : StoredRow) : (t.push row).Indexed := by
  intro group seq slot hslot
  rw [index_push] at hslot
  simp only [row?_push]
  split at hslot
  · rename_i hkey
    obtain ⟨rfl, rfl⟩ := Prod.mk.inj hkey
    cases hslot
    exact ⟨row, if_pos rfl, rfl, rfl⟩
  · obtain ⟨other, hother, hversion⟩ := h group seq slot hslot
    have hne : slot ≠ t.rows.size := by
      have := lt_of_row? hother
      omega
    exact ⟨other, by rw [if_neg hne]; exact hother, hversion⟩

/-- A row is deleted from its place and from the index. -/
def delete (t : TableRows) (slot : Nat) (row : StoredRow) : TableRows :=
  { t.vacate slot with index := t.index.erase (row.group, row.seq) }

@[simp] theorem size_delete (t : TableRows) (slot : Nat) (row : StoredRow) :
    (t.delete slot row).rows.size = t.rows.size := t.size_vacate slot

theorem row?_delete (slot place : Nat) (row : StoredRow) :
    (t.delete place row).row? slot = if slot = place then none else t.row? slot :=
  row?_vacate slot place

theorem index_delete (slot : Nat) (group : Fingerprint) (seq : Nat) :
    (t.delete slot row).index[(group, seq)]? =
      if (row.group, row.seq) = (group, seq) then none else t.index[(group, seq)]? := by
  show (t.index.erase (row.group, row.seq))[(group, seq)]? = _
  rw [Std.HashMap.getElem?_erase]
  simp only [beq_iff_eq]

theorem Indexed.delete (h : t.Indexed) (hrow : t.row? slot = some row) :
    (t.delete slot row).Indexed := by
  intro group seq place hplace
  rw [index_delete] at hplace
  split at hplace
  · cases hplace
  · rename_i hkey
    obtain ⟨other, hother, hgroup, hseq⟩ := h group seq place hplace
    refine ⟨other, ?_, hgroup, hseq⟩
    rw [row?_delete, if_neg]
    · exact hother
    · rintro rfl
      rw [hrow] at hother
      cases hother
      exact hkey (by rw [hgroup, hseq])

theorem Valid.delete (h : t.Valid) (hrow : t.row? slot = some row) : (t.delete slot row).Valid := by
  intro group seq place
  rw [index_delete, row?_delete]
  by_cases hkey : (row.group, row.seq) = (group, seq)
  · obtain ⟨rfl, rfl⟩ := Prod.mk.inj hkey
    rw [if_pos rfl]
    refine ⟨nofun, ?_⟩
    rintro ⟨other, hother, hgroup, hseq⟩
    split at hother
    · cases hother
    · rename_i hne
      -- the version has no other place
      have hself := (h row.group row.seq slot).mpr ⟨row, hrow, rfl, rfl⟩
      rw [(h row.group row.seq place).mpr ⟨other, hother, hgroup, hseq⟩] at hself
      exact absurd (Option.some.inj hself) hne
  · rw [if_neg hkey, h group seq place]
    refine exists_congr fun other => and_congr_left fun hversion => ?_
    split
    · rename_i heq
      rw [heq, hrow]
      refine ⟨fun hsame => ?_, nofun⟩
      cases hsame
      exact absurd (by rw [hversion.1, hversion.2]) hkey
    · rfl

/-- Moving a row is deleting it and putting it behind the others. -/
theorem Indexed.move (h : t.Indexed) (hrow : t.row? slot = some row) :
    ((t.vacate slot).push row).Indexed := by
  have hpushed := (h.delete hrow).push row
  have hsize : (t.vacate slot).rows.size = (t.delete slot row).rows.size := rfl
  intro group seq place hplace
  refine hpushed group seq place ?_
  rw [index_push] at hplace ⊢
  rw [index_delete]
  split
  · rename_i hkey
    rw [if_pos hkey] at hplace
    exact hplace
  · rename_i hkey
    rw [if_neg hkey] at hplace
    exact hplace

/-- Another row of the same version is put into a place. -/
def replace (t : TableRows) (slot : Nat) (row : StoredRow) : TableRows :=
  { t with rows := t.rows.setIfInBounds slot (some row) }

@[simp] theorem size_replace (t : TableRows) (slot : Nat) (row : StoredRow) :
    (t.replace slot row).rows.size = t.rows.size := Array.size_setIfInBounds

theorem row?_replace {place : Nat} (hplace : place < t.rows.size) (slot : Nat) :
    (t.replace place row).row? slot = if slot = place then some row else t.row? slot := by
  unfold row? replace
  by_cases h : slot = place
  · rw [if_pos h, h]
    simp only [Array.getElem?_setIfInBounds_self_of_lt hplace]
    rfl
  · rw [if_neg h]
    simp only [Array.getElem?_setIfInBounds_ne (Ne.symm h)]

theorem Indexed.replace (h : t.Indexed) (hrow : t.row? slot = some row) {row' : StoredRow}
    (hgroup : row'.group = row.group) (hseq : row'.seq = row.seq) :
    (t.replace slot row').Indexed := by
  intro group seq place hplace
  obtain ⟨other, hother, hversion⟩ := h group seq place hplace
  rw [row?_replace (lt_of_row? hrow)]
  split
  · rename_i heq
    rw [heq, hrow] at hother
    cases hother
    exact ⟨row', rfl, hgroup.trans hversion.1, hseq.trans hversion.2⟩
  · exact ⟨other, hother, hversion⟩

theorem Valid.replace (h : t.Valid) (hrow : t.row? slot = some row) {row' : StoredRow}
    (hgroup : row'.group = row.group) (hseq : row'.seq = row.seq) : (t.replace slot row').Valid := by
  intro group seq place
  show t.index[(group, seq)]? = some place ↔ _
  rw [h group seq place, row?_replace (lt_of_row? hrow)]
  split
  · rename_i heq
    rw [heq, hrow]
    constructor
    · rintro ⟨_, ⟨⟩, hversion⟩
      exact ⟨row', rfl, hgroup.trans hversion.1, hseq.trans hversion.2⟩
    · rintro ⟨_, ⟨⟩, hversion⟩
      exact ⟨row, rfl, hgroup.symm.trans hversion.1, hseq.symm.trans hversion.2⟩
  · rfl

end TableRows

namespace MemoryRows

variable {m m' : MemoryRows} {table : TableId} {slot : Nat} {row : StoredRow}

/-- Does something to rows. -/
def carryOut (m : MemoryRows) : RowChange → MemoryRows
  | .append table row => (append table row m).2
  | .relocate p => (m.relocate p).2
  | .remove p => (m.remove p).2
  | .overwrite p column record => (m.overwrite p column record).2
  | .truncate table => m.truncate table
  | .drop table => m.drop table
  | .reject count => { m with rejecting := count }
  | .fetch p => (m.fetch p).2
  | .find v => (m.find v).2
  | .scan g => (m.scan g).2
  | .maxSeq g => (m.maxSeq g).2

/-- Rows that there can be: something was done to rows that were empty at first. -/
def Made (m : MemoryRows) : Prop :=
  ∃ (indexed : Bool) (changes : List RowChange), m = changes.foldl carryOut { indexed }

/-- The index of every table leads to live rows of their versions only. -/
def Indexed (m : MemoryRows) : Prop := ∀ table, (m.rowsOf table).Indexed

/-! ## What is done to the rows of a table -/

/-- Deleting a row that is there; otherwise nothing happens. -/
theorem replaced_remove (p : PlaceId) :
    (∃ slot row, slotOf p = some slot ∧ m.row? p = some row ∧
      (m.rowsOf p.table).row? slot = some row ∧
      Replaced m (m.remove p).2 p.table ((m.rowsOf p.table).delete slot row)) ∨
    m.remove p = (none, m) := by
  unfold remove
  cases hrow : m.row? p with
  | none =>
    right
    split
    · rename_i hsome
      cases hsome
    · rfl
  | some row =>
    obtain ⟨slot, hslot, hplace⟩ := row?_eq_some hrow
    rw [hslot]
    exact .inl ⟨slot, row, rfl, rfl, hplace, replaced_of_row? hplace (·.delete slot row)⟩

/-- Overwriting a column of a row that has it; otherwise nothing happens. -/
theorem replaced_overwrite (p : PlaceId) (column : Nat) (record : Bytes) :
    (∃ slot row row', m.row? p = some row ∧ (m.rowsOf p.table).row? slot = some row ∧
      row'.group = row.group ∧ row'.seq = row.seq ∧
      Replaced m (m.overwrite p column record).2 p.table
        ((m.rowsOf p.table).replace slot row')) ∨
    m.overwrite p column record = (false, m) := by
  unfold overwrite
  cases hrow : m.row? p with
  | none =>
    right
    split
    · rename_i hsome
      cases hsome
    · rfl
  | some row =>
    obtain ⟨slot, hslot, hplace⟩ := row?_eq_some hrow
    rw [hslot]
    by_cases hcolumn : column < row.columns.size
    · simp only [if_pos hcolumn]
      exact .inl ⟨slot, row, { row with columns := row.columns.setIfInBounds column record },
        rfl, hplace, rfl, rfl, replaced_of_row? hplace (·.replace slot _)⟩
    · right
      simp only [if_neg hcolumn]

/-- What a change that finds a row to change, or room for one, does to the rows of a table. -/
inductive Altered (t : TableRows) (table : TableId) : RowChange → TableRows → Prop
  | push (row : StoredRow) : Altered t table (.append table row) (t.push row)
  | move {location : Location} {slot : Nat} {row : StoredRow} (hrow : t.row? slot = some row) :
      Altered t table (.relocate ⟨table, location⟩) ((t.vacate slot).push row)
  | delete {location : Location} {slot : Nat} {row : StoredRow} (hrow : t.row? slot = some row) :
      Altered t table (.remove ⟨table, location⟩) (t.delete slot row)
  | replace {location : Location} {column : Nat} {record : Bytes} {slot : Nat}
      {row row' : StoredRow} (hrow : t.row? slot = some row) (hgroup : row'.group = row.group)
      (hseq : row'.seq = row.seq) :
      Altered t table (.overwrite ⟨table, location⟩ column record) (t.replace slot row')
  | truncate : Altered t table (.truncate table) {}
  | drop : Altered t table (.drop table) {}

/-- A change leaves all rows as they are, or alters those of one table. -/
theorem carryOut_cases (m : MemoryRows) (change : RowChange) :
    (∀ table, (m.carryOut change).rowsOf table = m.rowsOf table) ∨
    ∃ table t, Replaced m (m.carryOut change) table t ∧ Altered (m.rowsOf table) table change t := by
  cases change with
  | append table row =>
    rcases append_cases m table row with ⟨cause, m', happend, hrows⟩ | ⟨location, m', happend, hrows⟩
    all_goals
      have hcarry : m.carryOut (.append table row) = m' := congrArg Prod.snd happend
      rw [hcarry]
    · exact .inl hrows
    · exact .inr ⟨table, _, hrows, .push row⟩
  | relocate p =>
    rcases replaced_relocate (m := m) p with ⟨slot, row, -, hrow, -, hmoved⟩ | ⟨-, hsame⟩
    · exact .inr ⟨p.table, _, hmoved, .move hrow⟩
    · have hcarry : m.carryOut (.relocate p) = m := congrArg Prod.snd hsame
      exact .inl fun _ => by rw [hcarry]
  | remove p =>
    rcases replaced_remove (m := m) p with ⟨slot, row, -, -, hrow, hremoved⟩ | hsame
    · exact .inr ⟨p.table, _, hremoved, .delete hrow⟩
    · have hcarry : m.carryOut (.remove p) = m := congrArg Prod.snd hsame
      exact .inl fun _ => by rw [hcarry]
  | overwrite p column record =>
    rcases replaced_overwrite (m := m) p column record with
      ⟨slot, row, row', -, hrow, hgroup, hseq, hchanged⟩ | hsame
    · exact .inr ⟨p.table, _, hchanged, .replace hrow hgroup hseq⟩
    · have hcarry : m.carryOut (.overwrite p column record) = m := congrArg Prod.snd hsame
      exact .inl fun _ => by rw [hcarry]
  | truncate table => exact .inr ⟨table, _, replaced_truncate table, .truncate⟩
  | drop table => exact .inr ⟨table, _, replaced_drop table, .drop⟩
  | find v => exact .inl (recounted_find v).rowsOf
  | reject count => exact .inl fun _ => rfl
  | fetch p => exact .inl fun _ => rfl
  | scan g => exact .inl fun _ => rfl
  | maxSeq g => exact .inl fun _ => rfl

/-! ## The index -/

theorem Replaced.indexed {t : TableRows} (h : Replaced m m' table t) (hm : m.Indexed)
    (ht : t.Indexed) : m'.Indexed := by
  intro other
  rw [h.rowsOf]
  split
  · exact ht
  · exact hm other

theorem Indexed.congr (h : m.Indexed) (hrows : ∀ table, m'.rowsOf table = m.rowsOf table) :
    m'.Indexed := by
  intro table
  rw [hrows]
  exact h table

/-- Whatever is done to rows, the index leads to live rows of their versions only. -/
theorem Indexed.carryOut (h : m.Indexed) (change : RowChange) : (m.carryOut change).Indexed := by
  rcases carryOut_cases m change with hsame | ⟨table, t, hrows, haltered⟩
  · exact h.congr hsame
  · refine hrows.indexed h ?_
    cases haltered with
    | push row => exact (h table).push row
    | move hrow => exact (h table).move hrow
    | delete hrow => exact (h table).delete hrow
    | replace hrow hgroup hseq => exact (h table).replace hrow hgroup hseq
    | truncate => exact TableRows.valid_empty.indexed
    | drop => exact TableRows.valid_empty.indexed

theorem indexed_of_made (h : m.Made) : m.Indexed := by
  obtain ⟨indexed, changes, rfl⟩ := h
  have hempty : Indexed { indexed } := by
    intro table
    rw [rowsOf_empty]
    exact TableRows.valid_empty.indexed
  induction changes using List.reverseRecOn with
  | nil => exact hempty
  | append_singleton earlier change ih =>
    rw [List.foldl_append]
    exact ih.carryOut change

/-! ## Live rows -/

/-- The live row of a version. -/
def live? (m : MemoryRows) (v : VersionId) : Option StoredRow :=
  ((m.ofGroup v.toGroupId).find? fun p => p.2.seq = v.seq).map (·.2)

/-- No version of the table has two live rows. -/
def Distinct (m : MemoryRows) (table : TableId) : Prop :=
  ∀ slot slot' row row', (m.rowsOf table).row? slot = some row →
    (m.rowsOf table).row? slot' = some row' → row.group = row'.group → row.seq = row'.seq →
      slot = slot'

/-- Where the index is right, no version has two live rows. -/
theorem Valid.distinct (h : m.Valid) (table : TableId) : m.Distinct table := by
  intro slot slot' row row' hrow hrow' hgroup hseq
  have hindex := (h table row.group row.seq slot).mpr ⟨row, hrow, rfl, rfl⟩
  have hindex' := (h table row.group row.seq slot').mpr ⟨row', hrow', hgroup.symm, hseq.symm⟩
  exact Option.some.inj (hindex.symm.trans hindex')

/-- As long as no version has two live rows, the live row of a version is the one that is found. -/
theorem finds_live (hindexed : m.Indexed) {g : GroupId} (hdistinct : m.Distinct g.table) :
    StoreM.Finds m g fun seq => m.live? ⟨g, seq⟩ where
  found seq row := by
    have hmem : ∀ p ∈ m.ofGroup g, ∃ slot, (m.rowsOf g.table).row? slot = some p.2 ∧
        p.2.group = g.group := by
      rintro ⟨location, other⟩ hp
      obtain ⟨⟨slot, other⟩, hother, heq⟩ := List.mem_map.mp hp
      cases heq
      exact ⟨slot, TableRows.mem_ofGroup.mp hother⟩
    unfold live?
    rw [Option.map_eq_some_iff]
    constructor
    · rintro ⟨p, hp, rfl⟩
      obtain ⟨slot, hslot, hgroup⟩ := hmem p (List.mem_of_find?_eq_some hp)
      exact ⟨slot, hslot, hgroup, of_decide_eq_true (List.find?_some hp :)⟩
    · rintro ⟨slot, hslot, hgroup, hseq⟩
      have hrow : (locationOf g.table slot, row) ∈ m.ofGroup g :=
        List.mem_map.mpr ⟨(slot, row), TableRows.mem_ofGroup.mpr ⟨hslot, hgroup⟩, rfl⟩
      cases hfind : (m.ofGroup g).find? fun p => p.2.seq = seq with
      | none =>
        have hnone := List.find?_eq_none.mp hfind _ hrow
        simp [hseq] at hnone
      | some p =>
        -- there is no other row of the version
        obtain ⟨slot', hslot', hgroup'⟩ := hmem p (List.mem_of_find?_eq_some hfind)
        have hseq' : p.2.seq = seq := of_decide_eq_true (List.find?_some hfind :)
        have hsame := hdistinct slot slot' row p.2 hslot hslot' (hgroup.trans hgroup'.symm)
          (hseq.trans hseq'.symm)
        rw [hsame, hslot'] at hslot
        exact ⟨p, rfl, Option.some.inj hslot⟩
  indexed seq slot hslot := hindexed g.table g.group seq slot hslot

/-- Where the index is right, the live row of a version is the one it leads to. -/
theorem Valid.live?_eq (h : m.Valid) (v : VersionId) : m.live? v = m.stored v := by
  have hlive := finds_live (g := v.toGroupId) (fun table => (h table).indexed) (h.distinct v.table)
  have hstored := StoreM.finds_stored h v.toGroupId
  exact Option.ext fun row => (hlive.found v.seq row).trans (hstored.found v.seq row).symm

/-! ## Changing rows one knows -/

/-- Deleting a row brings nothing else to light. -/
theorem stored_remove (h : m.Valid) (p : PlaceId) :
    (m.remove p).2.Valid ∧
      ∀ v row, (m.remove p).2.stored v = some row → m.stored v = some row := by
  rcases replaced_remove (m := m) p with ⟨slot, row, -, -, hrow, hremoved⟩ | hsame
  · have hvalid := hremoved.valid h ((h p.table).delete hrow)
    refine ⟨hvalid, fun v other hother => ?_⟩
    obtain ⟨place, hplace, hversion⟩ := hvalid.stored_eq_some.mp hother
    rw [hremoved.rowsOf] at hplace
    refine h.stored_eq_some.mpr ⟨place, ?_, hversion⟩
    split at hplace
    · rename_i htable
      rw [TableRows.row?_delete] at hplace
      split at hplace
      · cases hplace
      · rw [htable]
        exact hplace
    · exact hplace
  · rw [hsame]
    exact ⟨h, fun _ _ hother => hother⟩

/-- Overwriting a row changes nothing about which versions are stored. -/
theorem stored_overwrite (h : m.Valid) (p : PlaceId) (column : Nat) (record : Bytes) :
    (m.overwrite p column record).2.Valid ∧
      ∀ v, (∃ row, (m.overwrite p column record).2.stored v = some row) ↔
        ∃ row, m.stored v = some row := by
  rcases replaced_overwrite (m := m) p column record with
    ⟨slot, row, row', -, hrow, hgroup, hseq, hchanged⟩ | hsame
  · have hvalid := hchanged.valid h ((h p.table).replace hrow hgroup hseq)
    refine ⟨hvalid, fun v => ?_⟩
    -- the index stays
    rw [hvalid.exists_stored, h.exists_stored, hchanged.rowsOf]
    split
    · rename_i htable
      rw [htable]
      rfl
    · rfl
  · rw [hsame]
    exact ⟨h, fun _ => Iff.rfl⟩

/-- Where the rows of a group stay in their places, they stay those of its versions. -/
theorem Replaced.stored_eq {t : TableRows} (h : Replaced m m' table t) (hm : m.Valid)
    (hm' : m'.Valid) {g : GroupId}
    (hsame : g.table = table → ∀ place row, row.group = g.group →
      (t.row? place = some row ↔ (m.rowsOf table).row? place = some row)) (seq : Nat) :
    m'.stored ⟨g, seq⟩ = m.stored ⟨g, seq⟩ := by
  refine Option.ext fun row => ?_
  rw [hm'.stored_eq_some, hm.stored_eq_some, h.rowsOf]
  by_cases htable : g.table = table
  · rw [if_pos htable]
    refine exists_congr fun place => and_congr_left fun hversion => ?_
    rw [hsame htable place row hversion.1, htable]
  · rw [if_neg htable]

/-- The row at a place, if there is one, is not of the group. -/
def Misses (m : MemoryRows) (p : PlaceId) (g : GroupId) : Prop :=
  ∀ row, m.row? p = some row → (⟨p.table, row.group⟩ : GroupId) ≠ g

theorem Misses.group_ne {p : PlaceId} {g : GroupId} (h : m.Misses p g) (hrow : m.row? p = some row)
    (htable : g.table = p.table) : row.group ≠ g.group := by
  intro hgroup
  refine h row hrow ?_
  rw [← htable, hgroup]

theorem stored_remove_other (h : m.Valid) {p : PlaceId} {g : GroupId} (hmisses : m.Misses p g)
    (seq : Nat) : (m.remove p).2.stored ⟨g, seq⟩ = m.stored ⟨g, seq⟩ := by
  rcases replaced_remove (m := m) p with ⟨slot, row, -, hfound, hrow, hremoved⟩ | hsame
  · refine hremoved.stored_eq h (stored_remove h p).1 (fun htable place other hgroup => ?_) seq
    rw [TableRows.row?_delete]
    split
    · rename_i heq
      rw [heq, hrow]
      refine ⟨nofun, ?_⟩
      rintro ⟨⟩
      exact absurd hgroup (hmisses.group_ne hfound htable)
    · rfl
  · rw [hsame]

theorem stored_overwrite_other (h : m.Valid) {p : PlaceId} {g : GroupId} (hmisses : m.Misses p g)
    (column : Nat) (record : Bytes) (seq : Nat) :
    (m.overwrite p column record).2.stored ⟨g, seq⟩ = m.stored ⟨g, seq⟩ := by
  rcases replaced_overwrite (m := m) p column record with
    ⟨slot, row, row', hfound, hrow, hgroup, -, hchanged⟩ | hsame
  · refine hchanged.stored_eq h (stored_overwrite h p column record).1
      (fun htable place other hother => ?_) seq
    have hne := hmisses.group_ne hfound htable
    rw [TableRows.row?_replace (TableRows.lt_of_row? hrow)]
    split
    · rename_i heq
      rw [heq, hrow]
      constructor
      · rintro ⟨⟩
        exact absurd (hgroup.symm.trans hother) hne
      · rintro ⟨⟩
        exact absurd hother hne
    · rfl
  · rw [hsame]

end MemoryRows

end VersionChain
