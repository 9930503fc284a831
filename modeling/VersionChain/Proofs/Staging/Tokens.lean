import VersionChain.Proofs.Staging.Directory
import VersionChain.Proofs.Staging.Ring

/-!
# Staging with a current token

With a current token, pushing, sealing and filling do to the ring of the group what their
namesakes do to a ring by itself, and nothing to the rings of others.

* `Staged` — a current token and the ring that it leads to;
* `Tracks` — the ring has right contents only;
* `Tracks.push`, `Tracks.commit`, `Tracks.recentBases` — one call;
* `Tracks.populate` — filling an empty ring with versions that are stored already.
-/

namespace VersionChain.StagingBuffer

/-- A current token leads to this ring. -/
structure Staged (b : StagingBuffer) (t : Token) (ring : Ring) : Prop where
  valid : Valid b
  current : b.isCurrent t = true
  ring : b.ringFor t.owner = some ring

/-- Other groups have the rings that they had. -/
def OthersKeep (b c : StagingBuffer) (owner : GroupId) : Prop :=
  ∀ g, g ≠ owner → c.ringFor g = b.ringFor g

variable {b c d : StagingBuffer} {t : Token} {ring : Ring}

theorem OthersKeep.refl (b : StagingBuffer) (owner : GroupId) : OthersKeep b b owner :=
  fun _ _ => rfl

theorem OthersKeep.trans {owner : GroupId} (h : OthersKeep b c owner) (h' : OthersKeep c d owner) :
    OthersKeep b d owner := fun g hg => (h' g hg).trans (h g hg)

theorem countMismatch_eq (h : b.isCurrent t = true) : b.countMismatch t = b := by
  unfold countMismatch
  rw [if_pos h]

theorem Staged.slot (h : Staged b t ring) :
    ∃ slot handle, b.slots[t.slot]? = some slot ∧ slot.owner = some t.owner ∧
      slot.region = some handle ∧ b.arena.get? handle = some ring.region ∧
      slot.cursor = ring.cursor ∧ slot.valid = ring.valid := by
  obtain ⟨slot, hslot, howner, -⟩ := isCurrent_iff.mp h.current
  have hring := h.ring
  rw [h.valid.ringFor_eq hslot howner] at hring
  unfold ringOf at hring
  obtain ⟨region, hregion, hfields⟩ := Option.map_eq_some_iff.mp hring
  obtain ⟨handle, hhandle, hget⟩ := Option.bind_eq_some_iff.mp hregion
  cases hfields
  exact ⟨slot, handle, hslot, howner, hhandle, hget, rfl, rfl⟩

theorem Staged.ring?_eq (h : Staged b t ring) : b.ring? t = some ring := by
  obtain ⟨slot, hslot, howner, -⟩ := isCurrent_iff.mp h.current
  unfold ring?
  rw [if_pos h.current, hslot, Option.bind_some, ← h.valid.ringFor_eq hslot howner]
  exact h.ring

/-! ## Changing the ring -/

/-- Changing the ring of a slot without changing its shape. -/
theorem Staged.modifyRing (h : Staged b t ring) {f : Region → Region}
    (hdepth : (f ring.region).depth = ring.region.depth)
    (hcolumns : (f ring.region).columns = ring.region.columns) (cursor valid : Nat) :
    Staged (b.modifyRing t.slot f cursor valid) t ⟨f ring.region, cursor, valid⟩ ∧
    OthersKeep b (b.modifyRing t.slot f cursor valid) t.owner := by
  obtain ⟨slot, handle, hslot, howner, hhandle, hget, -, -⟩ := h.slot
  let c : StagingBuffer :=
    { b with
      arena := b.arena.modify handle f
      slots := b.slots.modify t.slot ({ · with cursor, valid }) }
  have hc : b.modifyRing t.slot f cursor valid = c := by
    unfold StagingBuffer.modifyRing
    rw [hslot, Option.bind_some, hhandle]
  have hslots : ∀ i : Nat, (c.slots[i]?).map claimOf = (b.slots[i]?).map claimOf :=
    fun i => map_claimOf_modify t.slot i _ fun _ => rfl
  have hself : c.arena.get? handle = some (f ring.region) := by
    show (b.arena.modify handle f).get? handle = _
    rw [Arena.get?_modify, hget]
    rfl
  have hvalid : Valid c := by
    refine h.valid.congr (h.valid.arena.modify handle f) rfl hslots ?_
    intro other region hother
    -- a handle in use names the cell that changes, or another one
    by_cases hindex : other.index = handle.index
    · obtain rfl := Arena.eq_of_index hother hget hindex
      rw [hget] at hother
      cases hother
      exact ⟨f ring.region, hself, hdepth, hcolumns⟩
    · exact ⟨region, (Arena.get?_modify_ne f hindex).trans hother, rfl, rfl⟩
  have hchanged : c.slots[t.slot]? = some { slot with cursor, valid } := by
    show (b.slots.modify t.slot _)[t.slot]? = _
    rw [Array.getElem?_modify, if_pos rfl, hslot]
    rfl
  rw [hc]
  refine ⟨⟨hvalid, isCurrent_congr hslots h.current, ?_⟩, ?_⟩
  · rw [hvalid.ringFor_eq hchanged howner]
    unfold ringOf
    rw [show StagingSlot.region _ = some handle from hhandle, Option.bind_some, hself]
    rfl
  · intro g hg
    refine h.valid.ringFor_congr hvalid (fun hnone => hnone) fun j s hs hsg => ?_
    have hother : slot.owner ≠ some g := by
      rw [howner]
      exact fun heq => hg (Option.some.inj heq).symm
    have hj := ne_of_owner hslot hother hs hsg
    refine ⟨?_, fun other hregion => Arena.get?_modify_ne f ?_⟩
    · show (b.slots.modify t.slot _)[j]? = _
      rw [Array.getElem?_modify, if_neg (Ne.symm hj)]
      exact hs
    · exact fun hindex =>
        hj (h.valid.apart j t.slot s slot other handle hs hslot hregion hhandle hindex)

theorem Staged.push (h : Staged b t ring) (seq : Nat) {column : Nat} (content : Bytes)
    (hcolumn : column < ring.region.columns) :
    (b.push t seq column content).1 = true ∧
    Staged (b.push t seq column content).2 t (ring.push seq column content) ∧
    OthersKeep b (b.push t seq column content).2 t.owner := by
  unfold StagingBuffer.push
  simp only [countMismatch_eq h.current, h.ring?_eq, if_pos hcolumn]
  exact ⟨trivial, h.modifyRing (Region.depth_push column content) (Region.columns_push column content)
    ring.cursor ring.validBehind⟩

theorem Staged.push_beyond (h : Staged b t ring) (seq : Nat) {column : Nat} (content : Bytes)
    (hcolumn : ¬ column < ring.region.columns) : b.push t seq column content = (false, b) := by
  unfold StagingBuffer.push
  simp only [countMismatch_eq h.current, h.ring?_eq, if_neg hcolumn]

theorem Staged.commit (h : Staged b t ring) (seq : Nat) :
    (b.commit t seq).1 = true ∧ Staged (b.commit t seq).2 t (ring.commit seq) ∧
    OthersKeep b (b.commit t seq).2 t.owner := by
  obtain ⟨hsealed, hothers⟩ := h.modifyRing (f := fun region => region.commit ring.cursor seq)
    Region.depth_commit Region.columns_commit ring.nextCursor ring.validAfter
  unfold StagingBuffer.commit
  simp only [countMismatch_eq h.current, h.ring?_eq]
  let c := b.modifyRing t.slot (·.commit ring.cursor seq) ring.nextCursor ring.validAfter
  obtain ⟨htouched, hrings⟩ := hsealed.valid.touch (c.tick + 1) t.slot (c.tick + 1)
  refine ⟨trivial, ⟨htouched, ?_, ?_⟩, ?_⟩
  · exact isCurrent_congr (b := c) (fun i => map_claimOf_modify t.slot i _ fun _ => rfl)
      hsealed.current
  · exact (hrings t.owner).trans hsealed.ring
  · exact fun g hg => (hrings g).trans (hothers g hg)

theorem Staged.recentBases (h : Staged b t ring) (target column limit : Nat) :
    b.recentBases t target column limit =
      (if column < ring.region.columns then ring.bases target column limit else [], b) := by
  unfold StagingBuffer.recentBases
  simp only [countMismatch_eq h.current, h.ring?_eq]

/-! ## Keeping track of a group -/

/-- A current token leads to a ring of this depth, and the contents in it are right. -/
def Tracks (b : StagingBuffer) (t : Token) (contentAt : Nat → Nat → Option Bytes)
    (latest depth : Nat) : Prop :=
  ∃ ring, Staged b t ring ∧ ring.Records contentAt latest ∧ ring.region.depth = depth

variable {contentAt : Nat → Nat → Option Bytes} {latest depth : Nat}

theorem Tracks.valid (h : Tracks b t contentAt latest depth) : Valid b := by
  obtain ⟨ring, hstaged, -, -⟩ := h
  exact hstaged.valid

theorem Tracks.current (h : Tracks b t contentAt latest depth) : b.isCurrent t = true := by
  obtain ⟨ring, hstaged, -, -⟩ := h
  exact hstaged.current

theorem Tracks.records (h : Tracks b t contentAt latest depth)
    (hring : b.ringFor t.owner = some ring) : ring.Records contentAt latest := by
  obtain ⟨tracked, hstaged, hrecords, -⟩ := h
  rw [hstaged.ring] at hring
  exact Option.some.inj hring ▸ hrecords

theorem Tracks.mono (h : Tracks b t contentAt latest depth) {contentAt' : Nat → Nat → Option Bytes}
    {latest' : Nat} (hle : latest ≤ latest') (hcontent : ∀ seq column content,
      contentAt seq column = some content → contentAt' seq column = some content) :
    Tracks b t contentAt' latest' depth := by
  obtain ⟨ring, hstaged, hrecords, hdepth⟩ := h
  exact ⟨ring, hstaged, hrecords.mono hle hcontent, hdepth⟩

/-- A content that has no place in the ring leaves it alone. -/
theorem Tracks.push (h : Tracks b t contentAt latest depth) {seq column : Nat} {content : Bytes}
    (hcontent : contentAt seq column = some content) :
    Tracks (b.push t seq column content).2 t contentAt latest depth ∧
    OthersKeep b (b.push t seq column content).2 t.owner := by
  obtain ⟨ring, hstaged, hrecords, hdepth⟩ := h
  by_cases hcolumn : column < ring.region.columns
  · obtain ⟨-, hpushed, hothers⟩ := hstaged.push seq content hcolumn
    exact ⟨⟨_, hpushed, hrecords.push hcontent, (Region.depth_push column content).trans hdepth⟩,
      hothers⟩
  · rw [hstaged.push_beyond seq content hcolumn]
    exact ⟨⟨ring, hstaged, hrecords, hdepth⟩, .refl b t.owner⟩

theorem Tracks.commit (h : Tracks b t contentAt latest depth) {seq : Nat} (hseq : latest < seq) :
    (b.commit t seq).1 = true ∧ Tracks (b.commit t seq).2 t contentAt seq depth ∧
    OthersKeep b (b.commit t seq).2 t.owner := by
  obtain ⟨ring, hstaged, hrecords, hdepth⟩ := h
  obtain ⟨hanswer, hsealed, hothers⟩ := hstaged.commit seq
  exact ⟨hanswer, ⟨_, hsealed, hrecords.commit hseq, Region.depth_commit.trans hdepth⟩, hothers⟩

/-- What is offered to a version. Nothing changes. -/
theorem Tracks.recentBases (h : Tracks b t contentAt latest depth) (target column limit : Nat) :
    (∀ base ∈ (b.recentBases t target column limit).1,
      Ring.Offers contentAt target column depth base) ∧
    ((b.recentBases t target column limit).1.Pairwise fun x y => x.distance < y.distance) ∧
    (b.recentBases t target column limit).2 = b := by
  obtain ⟨ring, hstaged, hrecords, hdepth⟩ := h
  rw [hstaged.recentBases]
  by_cases hcolumn : column < ring.region.columns
  · obtain ⟨hoffers, hsorted⟩ := hrecords.bases target column limit
    rw [if_pos hcolumn, ← hdepth]
    exact ⟨hoffers, hsorted, rfl⟩
  · rw [if_neg hcolumn]
    exact ⟨fun base hbase => (List.not_mem_nil hbase).elim, List.Pairwise.nil, rfl⟩

/-! ## Filling a ring -/

/-- Each content of a row is that of its version. -/
def Truthful (contentAt : Nat → Nat → Option Bytes) (seq column : Nat)
    (contents : List (Option Bytes)) : Prop :=
  ∀ k content, contents[k]? = some (some content) → contentAt seq (column + k) = some content

theorem Truthful.tail {seq column : Nat} {head : Option Bytes} {rest : List (Option Bytes)}
    (h : Truthful contentAt seq column (head :: rest)) : Truthful contentAt seq (column + 1) rest := by
  intro k content hk
  rw [Nat.add_assoc, Nat.add_comm 1 k]
  exact h (k + 1) content hk

theorem Truthful.head {seq column : Nat} {content : Bytes} {rest : List (Option Bytes)}
    (h : Truthful contentAt seq column (some content :: rest)) :
    contentAt seq column = some content := h 0 content rfl

theorem pushColumns_some (b : StagingBuffer) (t : Token) (seq column : Nat) (content : Bytes)
    (rest : List (Option Bytes)) : b.pushColumns t seq column (some content :: rest) =
      if (b.push t seq column content).1 = true ∨
          (b.push t seq column content).2.isCurrent t = true then
        (b.push t seq column content).2.pushColumns t seq (column + 1) rest
      else (false, (b.push t seq column content).2) := by
  rw [pushColumns]

theorem Tracks.pushColumns (h : Tracks b t contentAt latest depth) {seq column : Nat}
    {contents : List (Option Bytes)} (htrue : Truthful contentAt seq column contents) :
    (b.pushColumns t seq column contents).1 = true ∧
    Tracks (b.pushColumns t seq column contents).2 t contentAt latest depth ∧
    OthersKeep b (b.pushColumns t seq column contents).2 t.owner := by
  induction contents generalizing b column with
  | nil => exact ⟨rfl, h, .refl b t.owner⟩
  | cons head rest ih =>
    cases head with
    | none => exact ih h htrue.tail
    | some content =>
      obtain ⟨hpushed, hothers⟩ := h.push htrue.head
      obtain ⟨hanswer, hrest, hkeep⟩ := ih hpushed htrue.tail
      rw [pushColumns_some, if_pos (.inr hpushed.current)]
      exact ⟨hanswer, hrest, hothers.trans hkeep⟩

/-- While the token stays current, no row is given up. -/
theorem stageRows_cons {row : StagedRow} {rest : List StagedRow}
    (hpushed : (b.pushColumns t row.seq 0 row.columns).1 = true)
    (hsealed : ((b.pushColumns t row.seq 0 row.columns).2.commit t row.seq).1 = true) :
    b.stageRows t (row :: rest) =
      ((b.pushColumns t row.seq 0 row.columns).2.commit t row.seq).2.stageRows t rest := by
  rw [StagingBuffer.stageRows]
  split
  · rename_i heq
    rw [heq] at hpushed
    cases hpushed
  · rename_i heq
    rw [heq] at hsealed
    rw [heq]
    split
    · rename_i heq'
      rw [heq'] at hsealed
      cases hsealed
    · rename_i heq'
      rw [heq']

theorem Tracks.stageRows (h : Tracks b t contentAt latest depth) {rows : List StagedRow}
    (hascending : rows.Pairwise fun x y => x.seq < y.seq)
    (hafter : ∀ row ∈ rows, latest < row.seq) {bound : Nat} (hlatest : latest ≤ bound)
    (hbound : ∀ row ∈ rows, row.seq ≤ bound)
    (htrue : ∀ row ∈ rows, Truthful contentAt row.seq 0 row.columns) :
    Tracks (b.stageRows t rows).2 t contentAt bound depth ∧
    OthersKeep b (b.stageRows t rows).2 t.owner := by
  induction rows generalizing b latest with
  | nil => exact ⟨h.mono hlatest fun _ _ _ hc => hc, .refl b t.owner⟩
  | cons row rest ih =>
    obtain ⟨hfirst, hrest⟩ := List.pairwise_cons.mp hascending
    obtain ⟨hanswer, hpushed, hothers⟩ := h.pushColumns (htrue row List.mem_cons_self)
    obtain ⟨hsealed, hcommitted, hkeep⟩ := hpushed.commit (hafter row List.mem_cons_self)
    obtain ⟨hfilled, hrestKeep⟩ := ih hcommitted hrest hfirst
      (hbound row List.mem_cons_self) (fun x hx => hbound x (List.mem_cons_of_mem row hx))
      fun x hx => htrue x (List.mem_cons_of_mem row hx)
    rw [stageRows_cons hanswer hsealed]
    exact ⟨hfilled, (hothers.trans hkeep).trans hrestKeep⟩

/-- Filling an empty ring with versions given in ascending order. -/
theorem Tracks.populate (h : Tracks b t contentAt 0 depth) {rows : List StagedRow}
    (hascending : rows.Pairwise fun x y => x.seq < y.seq) {bound : Nat}
    (hbound : ∀ row ∈ rows, 1 ≤ row.seq ∧ row.seq ≤ bound)
    (htrue : ∀ row ∈ rows, Truthful contentAt row.seq 0 row.columns) :
    Tracks (b.populate t rows).2 t contentAt bound depth ∧
    OthersKeep b (b.populate t rows).2 t.owner := by
  unfold StagingBuffer.populate
  rw [List.mergeSort_of_pairwise (hascending.imp fun hlt => decide_eq_true (Nat.le_of_lt hlt))]
  exact h.stageRows hascending (fun row hrow => (hbound row hrow).1) (Nat.zero_le bound)
    (fun row hrow => (hbound row hrow).2) htrue

/-! ## Forgetting a table -/

theorem Valid.freeSlots (h : b.Valid) (l : List Nat) :
    Valid (b.freeSlots l) ∧ ∀ g, (b.freeSlots l).ringFor g =
      if ∃ i ∈ l, b.slots[i]?.bind (·.owner) = some g then none else b.ringFor g := by
  induction l generalizing b with
  | nil => exact ⟨h, fun g => by simp [StagingBuffer.freeSlots]⟩
  | cons i rest ih =>
    obtain ⟨hvalid, hrings⟩ := ih (h.freeSlot i)
    refine ⟨hvalid, fun g => ?_⟩
    show ((b.freeSlot i).freeSlots rest).ringFor g = _
    rw [hrings, h.ringFor_freeSlot]
    -- a slot that is freed has no owner afterwards, the others keep theirs
    have howner : ∀ j : Nat, (b.freeSlot i).slots[j]?.bind (·.owner) =
        if j = i then none else b.slots[j]?.bind (·.owner) := by
      intro j
      rw [slots_freeSlot]
      split
      · cases b.slots[j]? <;> rfl
      · rfl
    simp only [howner]
    by_cases hi : b.slots[i]?.bind (·.owner) = some g
    · simp [hi]
    · have hiff : (∃ j ∈ rest, (if j = i then none else b.slots[j]?.bind (·.owner)) = some g) ↔
          ∃ j ∈ i :: rest, b.slots[j]?.bind (·.owner) = some g := by
        constructor
        · rintro ⟨j, hj, heq⟩
          split at heq
          · cases heq
          · exact ⟨j, List.mem_cons_of_mem i hj, heq⟩
        · rintro ⟨j, hj, heq⟩
          have hne : j ≠ i := by
            rintro rfl
            exact hi heq
          rcases List.mem_cons.mp hj with rfl | hmem
          · exact absurd rfl hne
          · exact ⟨j, hmem, by rw [if_neg hne]; exact heq⟩
      simp only [hiff, if_neg hi]

theorem Valid.invalidate (h : b.Valid) (table : TableId) :
    Valid (b.invalidate table).2 ∧ ∀ g, (b.invalidate table).2.ringFor g =
      if g.table = table then none else b.ringFor g := by
  obtain ⟨hvalid, hrings⟩ := h.freeSlots (b.slotsOf table)
  refine ⟨hvalid, fun g => (hrings g).trans ?_⟩
  have hmem : ∀ i, i ∈ b.slotsOf table ↔
      ∃ owner, b.slots[i]?.bind (·.owner) = some owner ∧ owner.table = table := by
    intro i
    unfold slotsOf
    rw [List.mem_filter, List.mem_range, Option.any_eq_true]
    constructor
    · rintro ⟨-, owner, howner, htable⟩
      exact ⟨owner, howner, by simpa using htable⟩
    · rintro ⟨owner, howner, htable⟩
      obtain ⟨slot, hslot, -⟩ := Option.bind_eq_some_iff.mp howner
      exact ⟨(Array.getElem?_eq_some_iff.mp hslot).1, owner, howner, by simpa using htable⟩
  by_cases htable : g.table = table
  · rw [if_pos htable]
    split
    · rfl
    · rename_i hnone
      -- a group with a ring owns a slot, and that slot was freed
      cases hgo : b.owners[g]? with
      | none => exact ringFor_eq_none hgo
      | some i =>
        obtain ⟨slot, hslot, hsg⟩ := (h.owners g i).mp hgo
        have howner : b.slots[i]?.bind (·.owner) = some g := by rw [hslot]; exact hsg
        exact absurd ⟨i, (hmem i).mpr ⟨g, howner, htable⟩, howner⟩ hnone
  · rw [if_neg htable, if_neg]
    rintro ⟨i, hi, howner⟩
    obtain ⟨owner, howner', htable'⟩ := (hmem i).mp hi
    rw [howner] at howner'
    cases howner'
    exact htable htable'

end VersionChain.StagingBuffer
