import VersionChain.Proofs.Store.RowChanges

/-!
# The rows of one table

What is done to rows is done to every table on its own. As long as a table has room, its rows are
told by the changes alone.

* `RowChange.onTable` — what a change does to the rows of a table;
* `MemoryRows.rowsOf_carryOut` — it is what the change does to rows in memory;
* `MemoryRows.size_carryOut_le` — a table gets at most one place longer;
* `MemoryRows.rowsOf_replay` — the rows of a table after any changes that there is room for.
-/

namespace VersionChain

/-- What is done to the rows of a table when something is done to the row at a place. -/
def TableRows.alterAt (t : TableRows) (table : TableId) (p : PlaceId)
    (alter : Nat → StoredRow → TableRows) : TableRows :=
  if p.table = table then
    match MemoryRows.slotOf p with
    | none => t
    | some slot =>
      match t.row? slot with
      | none => t
      | some row => alter slot row
  else t

/-- A column of a row is overwritten, if the row has it. -/
def TableRows.overwriteAt (t : TableRows) (slot : Nat) (row : StoredRow) (column : Nat)
    (record : Bytes) : TableRows :=
  if column < row.columns.size then
    t.replace slot { row with columns := row.columns.setIfInBounds column record }
  else t

/-- What a change does to the rows of a table that has room for one more. -/
def RowChange.onTable (table : TableId) (t : TableRows) : RowChange → TableRows
  | .append other row => if other = table then t.push row else t
  | .relocate p => t.alterAt table p fun slot row => (t.vacate slot).push row
  | .remove p => t.alterAt table p t.delete
  | .overwrite p column record =>
    t.alterAt table p fun slot row => t.overwriteAt slot row column record
  | .truncate other => if other = table then {} else t
  | .drop other => if other = table then {} else t
  | .reject _ => t
  | .fetch _ => t
  | .find _ => t
  | .scan _ => t
  | .maxSeq _ => t

/-- The rows of a table that had none, after changes. -/
def replay (table : TableId) (changes : List RowChange) : TableRows :=
  changes.foldl (RowChange.onTable table) {}

namespace TableRows

variable {t : TableRows} {table : TableId} {p : PlaceId} {alter : Nat → StoredRow → TableRows}

theorem alterAt_other (h : p.table ≠ table) : t.alterAt table p alter = t := if_neg h

theorem alterAt_none (h : (MemoryRows.slotOf p).bind t.row? = none) :
    t.alterAt table p alter = t := by
  unfold alterAt
  split
  · split
    · rfl
    · rename_i slot hslot
      rw [hslot] at h
      rw [show t.row? slot = none from h]
  · rfl

theorem alterAt_some {slot : Nat} {row : StoredRow} (hslot : MemoryRows.slotOf p = some slot)
    (hrow : t.row? slot = some row) : t.alterAt p.table p alter = alter slot row := by
  unfold alterAt
  rw [if_pos rfl, hslot]
  simp only [hrow]

end TableRows

namespace MemoryRows

variable {m m' : MemoryRows} {table : TableId} {p : PlaceId}

/-- Where the row at a place is altered, if there is one, every table is altered at the place. -/
theorem rowsOf_alterAt (alter : TableRows → Nat → StoredRow → TableRows)
    (hnone : m.row? p = none → m' = m)
    (hsome : ∀ slot row, slotOf p = some slot → m.row? p = some row →
      (m.rowsOf p.table).row? slot = some row →
        Replaced m m' p.table (alter (m.rowsOf p.table) slot row)) (table : TableId) :
    m'.rowsOf table = (m.rowsOf table).alterAt table p (alter (m.rowsOf table)) := by
  cases hrow : m.row? p with
  | none =>
    rw [hnone hrow]
    by_cases htable : p.table = table
    · subst htable
      exact (TableRows.alterAt_none hrow).symm
    · exact (TableRows.alterAt_other htable).symm
  | some row =>
    obtain ⟨slot, hslot, hplace⟩ := row?_eq_some hrow
    rw [(hsome slot row hslot hrow hplace).rowsOf]
    by_cases htable : p.table = table
    · subst htable
      rw [if_pos rfl, TableRows.alterAt_some hslot hplace]
    · rw [if_neg (Ne.symm htable), TableRows.alterAt_other htable]

theorem replaced_self (m : MemoryRows) (table : TableId) :
    Replaced m m table (m.rowsOf table) := by
  refine ⟨fun other => ?_, rfl⟩
  split
  · rename_i h
    rw [h]
  · rfl

theorem scan_eq {g : GroupId} {t : TableRows} (h : m.rowsOf g.table = t) :
    (m.scan g).1 = (t.ofGroup g.group).map fun (slot, row) => (locationOf g.table slot, row) := by
  subst h
  rfl

/-- A change does to the rows of every table what it does to the table on its own. -/
theorem rowsOf_carryOut (hrejecting : m.rejecting = 0) (change : RowChange)
    (hroom : ∀ table, (m.places table).size < slotLimit) (table : TableId) :
    (m.carryOut change).rowsOf table = change.onTable table (m.rowsOf table) := by
  cases change with
  | append other row =>
    obtain ⟨m', happend, hrows⟩ := append_ok row hrejecting (hroom other)
    show (append other row m).2.rowsOf table = if other = table then _ else _
    rw [happend, hrows.rowsOf]
    by_cases htable : other = table
    · rw [if_pos htable, if_pos htable.symm, htable]
    · rw [if_neg htable, if_neg (Ne.symm htable)]
  | relocate p =>
    refine rowsOf_alterAt (fun t slot row => (t.vacate slot).push row) (fun hnone => ?_)
      (fun slot row hslot hrow hplace => ?_) table
    · simp only [carryOut, relocate, hnone]
      cases slotOf p <;> rfl
    · simp only [carryOut, relocate, hslot, hrow]
      exact replaced_of_row? hplace fun t => (t.vacate slot).push row
  | remove p =>
    refine rowsOf_alterAt TableRows.delete (fun hnone => ?_)
      (fun slot row hslot hrow hplace => ?_) table
    · simp only [carryOut, remove, hnone]
      cases slotOf p <;> rfl
    · simp only [carryOut, remove, hslot, hrow]
      exact replaced_of_row? hplace (·.delete slot row)
  | overwrite p column record =>
    refine rowsOf_alterAt (fun t slot row => t.overwriteAt slot row column record)
      (fun hnone => ?_) (fun slot row hslot hrow hplace => ?_) table
    · simp only [carryOut, overwrite, hnone]
      cases slotOf p <;> rfl
    · simp only [carryOut, overwrite, hslot, hrow, TableRows.overwriteAt]
      split
      · exact replaced_of_row? hplace (·.replace slot _)
      · exact replaced_self m p.table
  | truncate other =>
    show (m.truncate other).rowsOf table = if other = table then _ else _
    rw [(replaced_truncate other).rowsOf]
    simp only [eq_comm]
  | drop other =>
    show (m.drop other).rowsOf table = if other = table then _ else _
    rw [(replaced_drop other).rowsOf]
    simp only [eq_comm]
  | find v => exact (recounted_find v).rowsOf table
  | reject count => rfl
  | fetch p => rfl
  | scan g => rfl
  | maxSeq g => rfl

theorem rejecting_carryOut (hrejecting : m.rejecting = 0) {change : RowChange}
    (hchange : ∀ count, change ≠ .reject count) : (m.carryOut change).rejecting = 0 := by
  cases change with
  | reject count => exact absurd rfl (hchange count)
  | append table row =>
    simp only [carryOut, append]
    repeat' split
    · omega
    · exact hrejecting
    · exact hrejecting
  | _ =>
    simp only [carryOut, relocate, remove, overwrite, truncate, drop, fetch, find, scan, maxSeq,
      modifyTable]
    repeat' split
    all_goals exact hrejecting

/-- A change adds at most one place to a table. -/
theorem size_carryOut_le (m : MemoryRows) (change : RowChange) (table : TableId) :
    ((m.carryOut change).places table).size ≤ (m.places table).size + 1 := by
  unfold places
  rcases carryOut_cases m change with hsame | ⟨other, t, hrows, haltered⟩
  · rw [hsame]
    exact Nat.le_succ _
  · rw [hrows.rowsOf]
    split
    · rename_i htable
      subst htable
      cases haltered <;> simp
    · exact Nat.le_succ _

/-- After changes that every table has room for, the rows of a table are what the changes do to it
on its own. -/
theorem rowsOf_replay (indexed : Bool) (changes : List RowChange)
    (hchanges : ∀ count, .reject count ∉ changes) (hroom : changes.length ≤ slotLimit) :
    let m := changes.foldl carryOut { indexed }
    m.rejecting = 0 ∧ ∀ table,
      (m.places table).size ≤ changes.length ∧ m.rowsOf table = replay table changes := by
  induction changes using List.reverseRecOn with
  | nil =>
    refine ⟨rfl, fun table => ⟨?_, rowsOf_empty indexed table⟩⟩
    show (rowsOf { indexed } table).rows.size ≤ 0
    rw [rowsOf_empty]
    exact Nat.le_refl 0
  | append_singleton earlier change ih =>
    rw [List.length_append, List.length_singleton] at hroom ⊢
    have hearlier : ∀ count, .reject count ∉ earlier := fun count hmem =>
      hchanges count (List.mem_append_left _ hmem)
    obtain ⟨hrejecting, hrows⟩ := ih hearlier (Nat.le_of_succ_le hroom)
    rw [List.foldl_append]
    refine ⟨rejecting_carryOut hrejecting fun count heq => ?_, fun table => ⟨?_, ?_⟩⟩
    · exact hchanges count (List.mem_append_right _ (List.mem_singleton.mpr heq.symm))
    · exact Nat.le_trans (size_carryOut_le _ _ _) (Nat.succ_le_succ (hrows table).1)
    · unfold replay
      rw [List.foldl_append]
      refine (rowsOf_carryOut hrejecting change (fun other => ?_) table).trans ?_
      · exact Nat.lt_of_le_of_lt (hrows other).1 hroom
      · rw [(hrows table).2]
        rfl

end MemoryRows

end VersionChain
