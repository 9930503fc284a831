import VersionChain.Staging.Ring

/-!
# What a ring offers

A ring that only ever got the right contents, each version once and in ascending order, offers
right bases only, each distance once and the nearest first.

* `Records` — the contents in a ring are right, and no version is sealed in it twice;
* `Records.push`, `Records.commit` — staging the next version keeps that;
* `Records.bases` — what is offered to a version.
-/

namespace VersionChain

namespace Region

variable {r : Region} {pos seq : Nat}

theorem depth_begin : (r.begin pos seq).depth = r.depth := by
  unfold begin
  split
  · rfl
  · exact Array.size_setIfInBounds

theorem columns_begin : (r.begin pos seq).columns = r.columns := by
  unfold begin
  split <;> rfl

theorem depth_push (column : Nat) (content : Bytes) : (r.push pos seq column content).depth = r.depth :=
  Array.size_modify.trans depth_begin

theorem columns_push (column : Nat) (content : Bytes) :
    (r.push pos seq column content).columns = r.columns := columns_begin

theorem depth_commit : (r.commit pos seq).depth = r.depth := Array.size_modify.trans depth_begin

theorem columns_commit : (r.commit pos seq).columns = r.columns := columns_begin

theorem begin_ne {p : Nat} (hp : p ≠ pos) : (r.begin pos seq).rows[p]? = r.rows[p]? := by
  unfold begin
  split
  · rfl
  · exact Array.getElem?_setIfInBounds_ne (Ne.symm hp)

/-- No content is in a vacant row. -/
theorem vacant_cell_ne (columns seq column : Nat) (content : Bytes) :
    (RingRow.vacant columns seq).cells[column]? ≠ some (some content) := by
  show (Array.replicate columns (none : Option Bytes))[column]? ≠ _
  rw [Array.getElem?_replicate]
  split <;> simp

/-- The row that is begun holds what an open row for the version held, and nothing else. -/
theorem begin_self (seq : Nat) (hpos : pos < r.depth) :
    ∃ row, (r.begin pos seq).rows[pos]? = some row ∧ row.seq = seq ∧ row.committed = false ∧
      ∀ (column : Nat) content, row.cells[column]? = some (some content) →
        r.rows[pos]? = some row := by
  unfold begin
  split
  · rename_i hopen
    unfold isOpen at hopen
    rw [Option.any_eq_true] at hopen
    obtain ⟨row, hrow, hcond⟩ := hopen
    obtain ⟨hseq, hcommitted⟩ : row.seq = seq ∧ row.committed = false := by simpa using hcond
    exact ⟨row, hrow, hseq, hcommitted, fun _ _ _ => hrow⟩
  · refine ⟨.vacant r.columns seq, Array.getElem?_setIfInBounds_self_of_lt hpos, rfl, rfl, ?_⟩
    exact fun column content hcell => absurd hcell (vacant_cell_ne r.columns seq column content)

/-- Only the row at a position is begun and changed. -/
theorem modify_begin_ne {p : Nat} (hp : p ≠ pos) (f : RingRow → RingRow) :
    ((r.begin pos seq).rows.modify pos f)[p]? = r.rows[p]? := by
  rw [Array.getElem?_modify, if_neg (Ne.symm hp), begin_ne hp]

theorem modify_begin_self {row : RingRow} (hrow : (r.begin pos seq).rows[pos]? = some row)
    (f : RingRow → RingRow) : ((r.begin pos seq).rows.modify pos f)[pos]? = some (f row) := by
  rw [Array.getElem?_modify, if_pos rfl, hrow]
  rfl

end Region

namespace Ring

/-- The contents in a ring are those of their versions; the sealed ones are among the first
`latest`, and each of them is sealed once. -/
structure Records (r : Ring) (contentAt : Nat → Nat → Option Bytes) (latest : Nat) : Prop where
  cursor : r.cursor < r.region.depth
  cells : ∀ (pos : Nat) row, r.region.rows[pos]? = some row →
    ∀ (column : Nat) content, row.cells[column]? = some (some content) →
      contentAt row.seq column = some content
  positive : ∀ (pos : Nat) row, r.region.rows[pos]? = some row → row.committed = true → 1 ≤ row.seq
  le_latest : ∀ (pos : Nat) row, r.region.rows[pos]? = some row → row.committed = true →
    row.seq ≤ latest
  once : ∀ (pos pos' : Nat) row row', r.region.rows[pos]? = some row →
    r.region.rows[pos']? = some row' → row.committed = true → row'.committed = true →
    row.seq = row'.seq → pos = pos'

variable {r : Ring} {contentAt contentAt' : Nat → Nat → Option Bytes} {latest : Nat}

theorem records_new {depth : Nat} (hdepth : 0 < depth) (columns : Nat)
    (contentAt : Nat → Nat → Option Bytes) (latest : Nat) :
    Records ⟨.new depth columns, 0, 0⟩ contentAt latest := by
  have hrow : ∀ (pos : Nat) row, (Region.new depth columns).rows[pos]? = some row →
      row = .vacant columns 0 := by
    intro pos row hrow
    have hrow' : (Array.replicate depth (RingRow.vacant columns 0))[pos]? = some row := hrow
    rw [Array.getElem?_replicate] at hrow'
    split at hrow'
    · exact (Option.some.inj hrow').symm
    · cases hrow'
  refine ⟨?_, ?_, ?_, ?_, ?_⟩
  · show 0 < (Array.replicate depth (RingRow.vacant columns 0)).size
    rwa [Array.size_replicate]
  · intro pos row hpos column content hcell
    rw [hrow pos row hpos] at hcell
    exact absurd hcell (Region.vacant_cell_ne columns 0 column content)
  · intro pos row hpos hcommitted
    rw [hrow pos row hpos] at hcommitted
    cases hcommitted
  · intro pos row hpos hcommitted
    rw [hrow pos row hpos] at hcommitted
    cases hcommitted
  · intro pos pos' row row' hpos _ hcommitted
    rw [hrow pos row hpos] at hcommitted
    cases hcommitted

theorem Records.mono (h : Records r contentAt latest) {latest' : Nat} (hle : latest ≤ latest')
    (hcontent : ∀ seq column content, contentAt seq column = some content →
      contentAt' seq column = some content) : Records r contentAt' latest' where
  cursor := h.cursor
  cells pos row hpos column content hcell :=
    hcontent _ _ _ (h.cells pos row hpos column content hcell)
  positive := h.positive
  le_latest pos row hpos hcommitted := Nat.le_trans (h.le_latest pos row hpos hcommitted) hle
  once := h.once

/-! ## Staging a version -/

theorem Records.push (h : Records r contentAt latest) {seq column : Nat} {content : Bytes}
    (hcontent : contentAt seq column = some content) :
    Records (r.push seq column content) contentAt latest := by
  obtain ⟨row, hrow, hseq, hopen, hkept⟩ := Region.begin_self seq h.cursor
  have hself : (r.push seq column content).region.rows[r.cursor]? =
      some { row with cells := row.cells.setIfInBounds column (some content) } :=
    Region.modify_begin_self hrow _
  have hother : ∀ pos, pos ≠ r.cursor →
      (r.push seq column content).region.rows[pos]? = r.region.rows[pos]? :=
    fun pos hpos => Region.modify_begin_ne hpos _
  -- the row at the cursor is open, so what is sealed was sealed before
  have hsealed : ∀ {pos : Nat} {x}, (r.push seq column content).region.rows[pos]? = some x →
      x.committed = true → r.region.rows[pos]? = some x := by
    intro pos x hx hcommitted
    by_cases hpos : pos = r.cursor
    · rw [hpos, hself] at hx
      cases hx
      rw [show RingRow.committed _ = false from hopen] at hcommitted
      cases hcommitted
    · rwa [hother pos hpos] at hx
  refine ⟨?_, ?_, ?_, ?_, ?_⟩
  · show r.cursor < (r.region.push r.cursor seq column content).depth
    rw [Region.depth_push]
    exact h.cursor
  · intro pos x hx k value hcell
    by_cases hpos : pos = r.cursor
    · rw [hpos, hself] at hx
      cases hx
      by_cases hk : k = column
      · subst hk
        have hlt : k < row.cells.size := by
          have hsize := (Array.getElem?_eq_some_iff.mp hcell).1
          rwa [Array.size_setIfInBounds] at hsize
        rw [Array.getElem?_setIfInBounds_self_of_lt hlt] at hcell
        cases hcell
        show contentAt row.seq k = _
        rw [hseq]
        exact hcontent
      · rw [Array.getElem?_setIfInBounds_ne (Ne.symm hk)] at hcell
        exact h.cells r.cursor row (hkept k value hcell) k value hcell
    · rw [hother pos hpos] at hx
      exact h.cells pos x hx k value hcell
  · exact fun pos x hx hcommitted => h.positive pos x (hsealed hx hcommitted) hcommitted
  · exact fun pos x hx hcommitted => h.le_latest pos x (hsealed hx hcommitted) hcommitted
  · intro pos pos' x x' hx hx' hcommitted hcommitted'
    exact h.once pos pos' x x' (hsealed hx hcommitted) (hsealed hx' hcommitted') hcommitted hcommitted'

theorem Records.commit (h : Records r contentAt latest) {seq : Nat} (hseq : latest < seq) :
    Records (r.commit seq) contentAt seq := by
  obtain ⟨row, hrow, hrowSeq, hopen, hkept⟩ := Region.begin_self seq h.cursor
  have hself : (r.commit seq).region.rows[r.cursor]? = some { row with committed := true } :=
    Region.modify_begin_self hrow _
  have hother : ∀ pos, pos ≠ r.cursor → (r.commit seq).region.rows[pos]? = r.region.rows[pos]? :=
    fun pos hpos => Region.modify_begin_ne hpos _
  have hdepth : (r.commit seq).region.depth = r.region.depth := Region.depth_commit
  have hpositive := h.cursor
  -- a row of the ring is the one that was sealed now, or one from before
  have hcases : ∀ {pos : Nat} {x}, (r.commit seq).region.rows[pos]? = some x →
      pos = r.cursor ∧ x = { row with committed := true } ∨
      pos ≠ r.cursor ∧ r.region.rows[pos]? = some x := by
    intro pos x hx
    by_cases hpos : pos = r.cursor
    · rw [hpos, hself] at hx
      exact .inl ⟨hpos, (Option.some.inj hx).symm⟩
    · rw [hother pos hpos] at hx
      exact .inr ⟨hpos, hx⟩
  refine ⟨?_, ?_, ?_, ?_, ?_⟩
  · rw [hdepth]
    exact Nat.mod_lt _ (by omega)
  · intro pos x hx k value hcell
    rcases hcases hx with ⟨-, rfl⟩ | ⟨-, hx⟩
    · exact h.cells r.cursor row (hkept k value hcell) k value hcell
    · exact h.cells pos x hx k value hcell
  · intro pos x hx hcommitted
    rcases hcases hx with ⟨-, rfl⟩ | ⟨-, hx⟩
    · show 1 ≤ row.seq
      omega
    · exact h.positive pos x hx hcommitted
  · intro pos x hx hcommitted
    rcases hcases hx with ⟨-, rfl⟩ | ⟨-, hx⟩
    · exact Nat.le_of_eq hrowSeq
    · have := h.le_latest pos x hx hcommitted
      omega
  · intro pos pos' x x' hx hx' hcommitted hcommitted' heq
    rcases hcases hx with ⟨hpos, rfl⟩ | ⟨-, hx⟩ <;> rcases hcases hx' with ⟨hpos', rfl⟩ | ⟨-, hx'⟩
    · rw [hpos, hpos']
    · -- the version sealed now is later than those sealed before
      have := h.le_latest pos' x' hx' hcommitted'
      have heq' : row.seq = x'.seq := heq
      omega
    · have := h.le_latest pos x hx hcommitted
      have heq' : x.seq = row.seq := heq
      omega
    · exact h.once pos pos' x x' hx hx' hcommitted hcommitted' heq

/-! ## Bases -/

/-- Bases at different distances are put in strictly ascending order. -/
theorem pairwise_sortByDistance {bases : List RecentBase}
    (hdistinct : bases.Pairwise fun a b => a.distance ≠ b.distance) :
    (RecentBase.sortByDistance bases).Pairwise fun a b => a.distance < b.distance := by
  have hperm : (RecentBase.sortByDistance bases).Perm bases := List.mergeSort_perm _ _
  have hsorted : (RecentBase.sortByDistance bases).Pairwise fun a b => a.distance ≤ b.distance := by
    have hpairwise : (RecentBase.sortByDistance bases).Pairwise
        fun a b => decide (a.distance ≤ b.distance) = true :=
      List.pairwise_mergeSort (fun a b c hab hbc => by simp only [decide_eq_true_eq] at *; omega)
        (fun a b => by simp only [Bool.or_eq_true, decide_eq_true_eq]; omega) bases
    exact hpairwise.imp fun hab => by simpa using hab
  have hne : (RecentBase.sortByDistance bases).Pairwise fun a b => a.distance ≠ b.distance :=
    (hperm.pairwise_iff fun hab => Ne.symm hab).mpr hdistinct
  exact (hsorted.and hne).imp fun hab => Nat.lt_of_le_of_ne hab.1 hab.2

/-- A base at its distance, with the content of its version. -/
structure Offers (contentAt : Nat → Nat → Option Bytes) (target column depth : Nat)
    (base : RecentBase) : Prop where
  positive : 1 ≤ base.seq
  before : base.seq < target
  distance : base.distance = target - base.seq
  near : base.distance ≤ depth
  content : contentAt base.seq column = some base.content

theorem baseOf_eq_some {depth target column : Nat} {row : RingRow} {base : RecentBase}
    (h : baseOf depth target column row = some base) :
    row.committed = true ∧ row.seq < target ∧ target - row.seq ≤ depth ∧ base.seq = row.seq ∧
      base.distance = target - row.seq ∧ row.cells[column]? = some (some base.content) := by
  unfold baseOf at h
  split at h
  · rename_i hcond
    obtain ⟨content, hcell, rfl⟩ := Option.map_eq_some_iff.mp h
    refine ⟨hcond.1, hcond.2.1, hcond.2.2, rfl, rfl, ?_⟩
    rw [Array.getD_eq_getD_getElem?] at hcell
    cases hget : row.cells[column]? with
    | none =>
      rw [hget] at hcell
      cases hcell
    | some cell =>
      rw [hget] at hcell
      exact congrArg some hcell
  · cases h

/-- Going back by different numbers of steps leads to different rows. -/
theorem behind_inj (hcursor : r.cursor < r.region.depth) {back back' : Nat}
    (hback : back < r.region.depth) (hback' : back' < r.region.depth)
    (h : r.behind (back + 1) = r.behind (back' + 1)) : back = back' := by
  unfold behind at h
  -- going back may pass the start of the ring
  have hmod : ∀ {k}, k < r.region.depth →
      (r.cursor + r.region.depth - (k + 1)) % r.region.depth =
        if k < r.cursor then r.cursor - (k + 1) else r.cursor + r.region.depth - (k + 1) := by
    intro k hk
    split
    · rw [show r.cursor + r.region.depth - (k + 1) = r.cursor - (k + 1) + r.region.depth by omega,
        Nat.add_mod_right, Nat.mod_eq_of_lt (by omega)]
    · rw [Nat.mod_eq_of_lt (by omega)]
  rw [hmod hback, hmod hback'] at h
  split at h <;> split at h <;> omega

/-- The bases offered to a version are right, and the nearest come first. -/
theorem Records.bases (h : Records r contentAt latest) (target column limit : Nat) :
    (∀ base ∈ r.bases target column limit,
      Offers contentAt target column r.region.depth base) ∧
    (r.bases target column limit).Pairwise fun a b => a.distance < b.distance := by
  let found := (List.range r.region.depth).filterMap fun back =>
    r.region.rows[r.behind (back + 1)]?.bind (baseOf r.region.depth target column)
  have hfound : ∀ base ∈ found, Offers contentAt target column r.region.depth base := by
    intro base hbase
    obtain ⟨back, -, hbase⟩ := List.mem_filterMap.mp hbase
    obtain ⟨row, hrow, hbaseOf⟩ := Option.bind_eq_some_iff.mp hbase
    obtain ⟨hcommitted, hlt, hnear, hseq, hdistance, hcell⟩ := baseOf_eq_some hbaseOf
    refine ⟨?_, ?_, ?_, ?_, ?_⟩
    · rw [hseq]
      exact h.positive _ row hrow hcommitted
    · omega
    · rw [hseq]
      exact hdistance
    · omega
    · rw [hseq]
      exact h.cells _ row hrow column base.content hcell
  have hdistinct : found.Pairwise fun a b => a.distance ≠ b.distance := by
    rw [List.pairwise_filterMap]
    refine List.Pairwise.imp_of_mem ?_ List.nodup_range
    intro back back' hback hback' hne a ha b hb hdistance
    obtain ⟨row, hrow, ha⟩ := Option.bind_eq_some_iff.mp ha
    obtain ⟨row', hrow', hb⟩ := Option.bind_eq_some_iff.mp hb
    obtain ⟨hcommitted, hlt, -, -, had, -⟩ := baseOf_eq_some ha
    obtain ⟨hcommitted', hlt', -, -, hbd, -⟩ := baseOf_eq_some hb
    -- the same distance means the same version, and that is sealed once
    have hpos := h.once _ _ row row' hrow hrow' hcommitted hcommitted' (by omega)
    exact hne (behind_inj h.cursor (List.mem_range.mp hback) (List.mem_range.mp hback') hpos)
  have hperm : (RecentBase.sortByDistance found).Perm found := List.mergeSort_perm _ _
  constructor
  · intro base hbase
    exact hfound base (hperm.mem_iff.mp (List.mem_of_mem_take hbase))
  · exact List.Pairwise.sublist (List.take_sublist limit _) (pairwise_sortByDistance hdistinct)

end Ring

end VersionChain
