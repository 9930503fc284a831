import VersionChain.Proofs.Staging.Claims

/-!
# Who has been idle for longest

The groups are listed in the order in which they last claimed a slot or committed to it. A buffer
notes these times in its slots only, but they are in this order. So if a slot has to be taken from
its group, this is the first group of the list that has one.

* `activeAt` — when a group last claimed or committed;
* `Aged` — the times are in the order of the list;
* `Aged.victim_eq` — the slot that has been idle for longest;
* `Aged.perform` — one call;
* `Takes` — what claiming anew does to the claims.
-/

namespace VersionChain.StagingBuffer

variable {b c : StagingBuffer} {t : Token} {owner g : GroupId} {order : List GroupId}

/-! ## Times -/

/-- When a group last claimed the slot that it has, or committed to it. -/
def activeAt (b : StagingBuffer) (g : GroupId) : Option Nat :=
  (b.owners[g]?.bind fun i => b.slots[i]?).map (·.lastActive)

theorem Valid.activeAt_eq (h : b.Valid) {i : Nat} {slot : StagingSlot}
    (hslot : b.slots[i]? = some slot) (howner : slot.owner = some g) :
    b.activeAt g = some slot.lastActive := by
  unfold activeAt
  rw [(h.owners g i).mpr ⟨slot, hslot, howner⟩, Option.bind_some, hslot]
  rfl

theorem activeAt_eq_none (h : b.owners[g]? = none) : b.activeAt g = none := by
  unfold activeAt
  rw [h]
  rfl

/-- A group keeps its time if it keeps its slot and the time in it. -/
theorem activeAt_congr (howners : c.owners[g]? = b.owners[g]?)
    (hslots : ∀ i, b.owners[g]? = some i →
      (c.slots[i]?).map (·.lastActive) = (b.slots[i]?).map (·.lastActive)) :
    c.activeAt g = b.activeAt g := by
  unfold activeAt
  rw [howners]
  cases hg : b.owners[g]? with
  | none => rfl
  | some i => exact hslots i hg

theorem lastActive_modify (i j : Nat) (f : StagingSlot → StagingSlot)
    (hf : ∀ slot, (f slot).lastActive = slot.lastActive) :
    ((b.slots.modify i f)[j]?).map (·.lastActive) = (b.slots[j]?).map (·.lastActive) := by
  rw [Array.getElem?_modify]
  split
  · rw [Option.map_map]
    exact congrArg (fun p => (b.slots[j]?).map p) (funext hf)
  · rfl

theorem activeAt_modifyRing (b : StagingBuffer) (i : Nat) (f : Region → Region)
    (cursor valid : Nat) (g : GroupId) :
    (b.modifyRing i f cursor valid).activeAt g = b.activeAt g := by
  unfold modifyRing
  split
  · exact activeAt_congr rfl fun j _ => lastActive_modify i j _ fun _ => rfl
  · rfl

/-- Noting the time in the slot of a group. -/
theorem Valid.activeAt_touch (h : b.Valid) {i : Nat} {slot : StagingSlot}
    (hslot : b.slots[i]? = some slot) (howner : slot.owner = some owner) (tick active : Nat)
    (g : GroupId) :
    activeAt { b with tick, slots := b.slots.modify i ({ · with lastActive := active }) } g =
      if g = owner then some active else b.activeAt g := by
  have hi := (h.owners owner i).mpr ⟨slot, hslot, howner⟩
  split
  · rename_i hg
    subst hg
    unfold activeAt
    simp only [hi, Option.bind_some]
    rw [Array.getElem?_modify, if_pos rfl, hslot]
    rfl
  · rename_i hg
    refine activeAt_congr rfl fun j hj => ?_
    obtain ⟨s, hs, hsg⟩ := (h.owners g j).mp hj
    have hother : slot.owner ≠ some g := by
      rw [howner]
      exact fun heq => hg (Option.some.inj heq).symm
    have hne := ne_of_owner hslot hother hs hsg
    show ((b.slots.modify i _)[j]?).map _ = _
    rw [Array.getElem?_modify, if_neg (Ne.symm hne)]

theorem Valid.activeAt_freeSlot (h : b.Valid) (i : Nat) (g : GroupId) :
    (b.freeSlot i).activeAt g =
      if b.slots[i]?.bind (·.owner) = some g then none else b.activeAt g := by
  cases hslot : b.slots[i]? with
  | none =>
    rw [freeSlot_eq_self hslot]
    rfl
  | some slot =>
    rw [Option.bind_some]
    split
    · rename_i hg
      exact activeAt_eq_none (by rw [owners_freeSlot hslot, if_pos hg])
    · rename_i hg
      refine activeAt_congr (by rw [owners_freeSlot hslot, if_neg hg]) fun j hj => ?_
      obtain ⟨s, hs, hsg⟩ := (h.owners g j).mp hj
      rw [slots_freeSlot, if_neg (ne_of_owner hslot hg hs hsg)]

theorem Valid.activeAt_claim (h : b.Valid) {i : Nat} {slot : StagingSlot}
    (hslot : b.slots[i]? = some slot) (hfree : slot.owner = none) (depth columns : Nat)
    (g : GroupId) :
    (b.claim i owner depth columns).2.activeAt g =
      if g = owner then some b.tick else b.activeAt g := by
  have hlt := (Array.getElem?_eq_some_iff.mp hslot).1
  split
  · rename_i hg
    subst hg
    unfold activeAt
    rw [owners_claim, if_pos rfl, Option.bind_some, slots_claim hlt, if_pos rfl]
    rfl
  · rename_i hg
    refine activeAt_congr (by rw [owners_claim, if_neg hg]) fun j hj => ?_
    obtain ⟨s, hs, hsg⟩ := (h.owners g j).mp hj
    have hne := ne_of_owner hslot (by rw [hfree]; exact nofun) hs hsg
    rw [slots_claim hlt, if_neg hne]

/-! ## The order of the groups -/

/-- Puts a group behind all others. -/
def moveLast (g : GroupId) (order : List GroupId) : List GroupId := order.filter (· ≠ g) ++ [g]

/-- The order after a call: a group that claims or commits is put last. -/
def orderAfter (b : StagingBuffer) (order : List GroupId) : StagingCommand → List GroupId
  | .acquire owner _ _ => moveLast owner order
  | .commit t _ => if b.isCurrent t then moveLast t.owner order else order
  | .populate t rows => if b.isCurrent t ∧ rows ≠ [] then moveLast t.owner order else order
  | .push _ _ _ _ => order
  | .recentBases _ _ _ _ => order
  | .invalidate _ => order

/-- A buffer after calls, and its groups in the order in which they last claimed or committed. -/
def attend (start : StagingBuffer × List GroupId) (commands : List StagingCommand) :
    StagingBuffer × List GroupId :=
  commands.foldl (fun s command => (s.1.perform command, s.1.orderAfter s.2 command)) start

theorem moveLast_moveLast (g : GroupId) (order : List GroupId) :
    moveLast g (moveLast g order) = moveLast g order := by
  unfold moveLast
  rw [List.filter_append, List.filter_filter]
  simp

theorem mem_moveLast {other : GroupId} :
    other ∈ moveLast g order ↔ other ∈ order ∨ other = g := by
  unfold moveLast
  rw [List.mem_append, List.mem_filter, List.mem_singleton, decide_eq_true_eq]
  by_cases hother : other = g
  · simp [hother]
  · simp [hother]

/-- A call with a token leaves every token as current as it was. -/
theorem Undisturbed.isCurrent_eq (h : Undisturbed b c t) (u : Token) :
    c.isCurrent u = b.isCurrent u :=
  Bool.eq_iff_iff.mpr ⟨isCurrent_congr fun i => (h.claims i).symm, isCurrent_congr h.claims⟩

/-- With a current token, the columns of a row are staged. -/
theorem Valid.pushColumns_answer (h : b.Valid) (hcurrent : b.isCurrent t = true)
    (seq column : Nat) (contents : List (Option Bytes)) :
    (b.pushColumns t seq column contents).1 = true := by
  induction contents generalizing b column with
  | nil => rfl
  | cons head rest ih =>
    cases head with
    | none => exact ih h hcurrent (column + 1)
    | some content =>
      have hpushed := h.push t seq column content
      have hstill := (hpushed.isCurrent_eq t).trans hcurrent
      rw [pushColumns_some, if_pos (.inr hstill)]
      exact ih hpushed.valid hstill (column + 1)

/-- The times of the groups are in the order of the list. -/
structure Aged (b : StagingBuffer) (order : List GroupId) : Prop where
  valid : Valid b
  listed : ∀ g active, b.activeAt g = some active → g ∈ order ∧ active ≤ b.tick
  ascending : order.Pairwise fun g g' => ∀ active active', b.activeAt g = some active →
    b.activeAt g' = some active' → active < active'

theorem aged_new (slots : Nat) : Aged (new slots) [] := by
  refine ⟨valid_new slots, fun g active hactive => ?_, List.Pairwise.nil⟩
  rw [activeAt_eq_none Std.HashMap.getElem?_empty] at hactive
  cases hactive

namespace Aged

/-- Groups may lose their slots. -/
theorem of_fewer (h : Aged b order) (hc : c.Valid) (htick : b.tick ≤ c.tick)
    (hactive : ∀ g, c.activeAt g = none ∨ c.activeAt g = b.activeAt g) : Aged c order := by
  have hold : ∀ {g active}, c.activeAt g = some active → b.activeAt g = some active := by
    intro g active hg
    rcases hactive g with hnone | hsame
    · cases hnone.symm.trans hg
    · exact hsame.symm.trans hg
  refine ⟨hc, fun g active hg => ?_, ?_⟩
  · obtain ⟨hmem, hle⟩ := h.listed g active (hold hg)
    exact ⟨hmem, Nat.le_trans hle htick⟩
  · exact h.ascending.imp fun hlt active active' hg hg' => hlt active active' (hold hg) (hold hg')

/-- A group that claims or commits does so later than all others. -/
theorem of_latest (h : Aged b order) (hc : c.Valid) (htick : b.tick < c.tick)
    (hself : c.activeAt g = some c.tick)
    (hothers : ∀ other, other ≠ g → c.activeAt other = none ∨ c.activeAt other = b.activeAt other) :
    Aged c (moveLast g order) := by
  have hold : ∀ {other active}, other ≠ g → c.activeAt other = some active →
      b.activeAt other = some active := by
    intro other active hother hactive
    rcases hothers other hother with hnone | hsame
    · cases hnone.symm.trans hactive
    · exact hsame.symm.trans hactive
  refine ⟨hc, fun other active hactive => ?_, ?_⟩
  · by_cases hother : other = g
    · rw [hother, hself] at hactive
      cases hactive
      exact ⟨mem_moveLast.mpr (.inr hother), Nat.le_refl _⟩
    · obtain ⟨hmem, hle⟩ := h.listed other active (hold hother hactive)
      exact ⟨mem_moveLast.mpr (.inl hmem), by omega⟩
  · unfold moveLast
    rw [List.pairwise_append]
    have hne : ∀ {other}, other ∈ order.filter (· ≠ g) → other ≠ g := fun hmem =>
      of_decide_eq_true (List.mem_filter.mp hmem).2
    refine ⟨?_, List.pairwise_singleton _ _, fun other hmem last hlast active active' ha ha' => ?_⟩
    · refine (h.ascending.sublist List.filter_sublist).imp_of_mem ?_
      intro x y hx hy hlt active active' ha ha'
      exact hlt active active' (hold (hne hx) ha) (hold (hne hy) ha')
    · obtain rfl := List.mem_singleton.mp hlast
      rw [hself] at ha'
      cases ha'
      have := (h.listed other active (hold (hne hmem) ha)).2
      omega

/-! ## Calls with a token -/

theorem push (h : Aged b order) (t : Token) (seq column : Nat) (content : Bytes) :
    Aged (b.push t seq column content).2 order := by
  have hvalid := (h.valid.push t seq column content).valid
  by_cases hcurrent : b.isCurrent t = true
  · obtain ⟨ring, hstaged⟩ := h.valid.staged hcurrent
    unfold StagingBuffer.push at hvalid ⊢
    simp only [countMismatch_eq hcurrent, hstaged.ring?_eq] at hvalid ⊢
    split
    · rename_i hcolumn
      rw [if_pos hcolumn] at hvalid
      refine h.of_fewer hvalid ?_ fun g => .inr (activeAt_modifyRing b _ _ _ _ g)
      unfold modifyRing
      split <;> exact Nat.le_refl _
    · exact h
  · rw [push_stale (Bool.eq_false_iff.mpr hcurrent)] at hvalid ⊢
    exact h.of_fewer hvalid (Nat.le_refl _) fun _ => .inr rfl

theorem commit (h : Aged b order) (t : Token) (seq : Nat) :
    Aged (b.commit t seq).2 (b.orderAfter order (.commit t seq)) := by
  have hvalid := (h.valid.commit t seq).valid
  by_cases hcurrent : b.isCurrent t = true
  · obtain ⟨ring, hstaged⟩ := h.valid.staged hcurrent
    obtain ⟨hwritten, -⟩ := hstaged.modifyRing (f := fun region => region.commit ring.cursor seq)
      Region.depth_commit Region.columns_commit ring.nextCursor ring.validAfter
    obtain ⟨slot, -, hslot, howner, -⟩ := hwritten.slot
    have htick : (b.modifyRing t.slot (·.commit ring.cursor seq) ring.nextCursor
        ring.validAfter).tick = b.tick := by
      unfold modifyRing
      split <;> rfl
    have hactive := hwritten.valid.activeAt_touch hslot howner (b.tick + 1) (b.tick + 1)
    unfold orderAfter
    simp only [if_pos hcurrent]
    unfold StagingBuffer.commit at hvalid ⊢
    simp only [countMismatch_eq hcurrent, hstaged.ring?_eq, htick] at hvalid ⊢
    refine h.of_latest hvalid (Nat.lt_succ_self _) ((hactive _).trans (if_pos rfl)) ?_
    exact fun other hother => .inr ((hactive other).trans
      ((if_neg hother).trans (activeAt_modifyRing b _ _ _ _ other)))
  · have hstale := Bool.eq_false_iff.mpr hcurrent
    unfold orderAfter
    simp only [if_neg hcurrent]
    rw [commit_stale hstale] at hvalid ⊢
    exact h.of_fewer hvalid (Nat.le_refl _) fun _ => .inr rfl

theorem recentBases (h : Aged b order) (t : Token) (target column limit : Nat) :
    Aged (b.recentBases t target column limit).2 order := by
  have hvalid := (h.valid.recentBases t target column limit).valid
  by_cases hcurrent : b.isCurrent t = true
  · obtain ⟨ring, hstaged⟩ := h.valid.staged hcurrent
    rw [hstaged.recentBases]
    exact h
  · rw [recentBases_stale (Bool.eq_false_iff.mpr hcurrent)] at hvalid ⊢
    exact h.of_fewer hvalid (Nat.le_refl _) fun _ => .inr rfl

/-- Staging rows commits to the ring of a group that has one, unless there are no rows. -/
theorem push_current (h : Aged b order) (t : Token) (seq column : Nat) (content : Bytes) :
    Aged (b.push t seq column content).2 order ∧
      (b.push t seq column content).2.isCurrent t = b.isCurrent t :=
  ⟨h.push t seq column content, (h.valid.push t seq column content).isCurrent_eq t⟩

/-- A commit moves the group of a current token, and the token stays as current as it is. -/
theorem commit_current (h : Aged b order) (t : Token) (seq : Nat) :
    Aged (b.commit t seq).2 (if b.isCurrent t then moveLast t.owner order else order) ∧
      (b.commit t seq).2.isCurrent t = b.isCurrent t :=
  ⟨h.commit t seq, (h.valid.commit t seq).isCurrent_eq t⟩

theorem stageRows (h : Aged b order) (t : Token) (rows : List StagedRow) :
    Aged (b.stageRows t rows).2
      (if b.isCurrent t ∧ rows ≠ [] then moveLast t.owner order else order) := by
  -- whether the token is current does not change on the way
  have hpush : ∀ (current : Bool) (o : List GroupId) (c : StagingBuffer) seq column content,
      Aged c o ∧ c.isCurrent t = current → Aged (c.push t seq column content).2 o ∧
        (c.push t seq column content).2.isCurrent t = current :=
    fun current o c seq column content hc =>
      (hc.1.push_current t seq column content).imp_right (·.trans hc.2)
  cases hcurrent : b.isCurrent t with
  | false =>
    rw [if_neg fun hall => Bool.false_ne_true hall.1]
    refine (stageRows_keeps (P := fun c => Aged c order ∧ c.isCurrent t = false)
      (hpush false order) (fun c seq hc => ?_) ⟨h, hcurrent⟩ rows).1
    have hcommit := hc.1.commit_current t seq
    rwa [hc.2, if_neg Bool.false_ne_true] at hcommit
  | true =>
    have hcommit : ∀ {o : List GroupId} (c : StagingBuffer) seq, Aged c o ∧ c.isCurrent t = true →
        Aged (c.commit t seq).2 (moveLast t.owner o) ∧ (c.commit t seq).2.isCurrent t = true := by
      intro o c seq hc
      have hcommit := hc.1.commit_current t seq
      rwa [hc.2, if_pos rfl] at hcommit
    cases rows with
    | nil =>
      rw [if_neg fun hall => hall.2 rfl]
      exact h
    | cons row rest =>
      rw [if_pos ⟨rfl, List.cons_ne_nil row rest⟩]
      have hpushed := pushColumns_keeps (hpush true order) ⟨h, hcurrent⟩ row.seq 0 row.columns
      obtain ⟨ring, hstaged⟩ := hpushed.1.valid.staged hpushed.2
      rw [stageRows_cons (h.valid.pushColumns_answer hcurrent row.seq 0 row.columns)
        (hstaged.commit row.seq).1]
      -- after the first commit the group is last, and further ones leave it there
      refine (stageRows_keeps
        (P := fun c => Aged c (moveLast t.owner order) ∧ c.isCurrent t = true)
        (hpush true _) (fun c seq hc => ?_) (hcommit _ row.seq hpushed) rest).1
      have hagain := hcommit c seq hc
      rwa [moveLast_moveLast] at hagain

theorem populate (h : Aged b order) (t : Token) (rows : List StagedRow) :
    Aged (b.populate t rows).2 (b.orderAfter order (.populate t rows)) := by
  have hstaged := h.stageRows t (rows.mergeSort fun x y => x.seq ≤ y.seq)
  have hrows : rows.mergeSort (fun x y => x.seq ≤ y.seq) ≠ [] ↔ rows ≠ [] := by
    rw [ne_eq, ne_eq, ← List.length_eq_zero_iff, List.length_mergeSort, List.length_eq_zero_iff]
  simp only [hrows] at hstaged
  exact hstaged

/-! ## Giving up and claiming -/

theorem freeSlot (h : Aged b order) (i : Nat) : Aged (b.freeSlot i) order := by
  refine h.of_fewer (h.valid.freeSlot i) ?_ fun g => ?_
  · unfold StagingBuffer.freeSlot
    split <;> exact Nat.le_refl _
  · rw [h.valid.activeAt_freeSlot]
    split
    · exact .inl rfl
    · exact .inr rfl

theorem freeSlots (h : Aged b order) (l : List Nat) : Aged (b.freeSlots l) order := by
  induction l generalizing b with
  | nil => exact h
  | cons i rest ih => exact ih (h.freeSlot i)

end Aged

/-- The first slot with the least time, or the choice made before. -/
theorem idlest_spec (best : Nat × Nat) (i : Nat) (l : List StagingSlot) :
    (idlest best i l = best.1 ∧ ∀ slot ∈ l, best.2 ≤ slot.lastActive) ∨
    ∃ k slot, l[k]? = some slot ∧ idlest best i l = i + k ∧ slot.lastActive < best.2 ∧
      ∀ other ∈ l, slot.lastActive ≤ other.lastActive := by
  induction l generalizing best i with
  | nil => exact .inl ⟨rfl, fun _ hmem => (List.not_mem_nil hmem).elim⟩
  | cons head rest ih =>
    unfold idlest
    by_cases hless : head.lastActive < best.2
    · rw [if_pos hless]
      rcases ih (i, head.lastActive) (i + 1) with
        ⟨hchosen, hleast⟩ | ⟨k, slot, hk, hchosen, hlt, hleast⟩
      · exact .inr ⟨0, head, rfl, hchosen, hless, List.forall_mem_cons.mpr ⟨Nat.le_refl _, hleast⟩⟩
      · refine .inr ⟨k + 1, slot, hk, hchosen.trans (by omega), Nat.lt_trans hlt hless, ?_⟩
        exact List.forall_mem_cons.mpr ⟨Nat.le_of_lt hlt, hleast⟩
    · rw [if_neg hless]
      rcases ih best (i + 1) with ⟨hchosen, hleast⟩ | ⟨k, slot, hk, hchosen, hlt, hleast⟩
      · exact .inl ⟨hchosen, List.forall_mem_cons.mpr ⟨Nat.not_lt.mp hless, hleast⟩⟩
      · refine .inr ⟨k + 1, slot, hk, hchosen.trans (by omega), hlt, ?_⟩
        exact List.forall_mem_cons.mpr ⟨by omega, hleast⟩

/-- The slot that is chosen has no owner, or all slots have one and none has been idle for
longer. -/
theorem Valid.victim_spec (h : b.Valid) : ∃ slot, b.slots[b.victim]? = some slot ∧
    (slot.owner = none ∨ (∀ (i : Nat) other, b.slots[i]? = some other →
      other.owner ≠ none ∧ slot.lastActive ≤ other.lastActive)) := by
  have hget : ∀ {i}, i < b.slots.size → ∃ slot, b.slots[i]? = some slot :=
    fun hi => ⟨_, Array.getElem?_eq_getElem hi⟩
  obtain ⟨slot, hslot⟩ := hget h.victim_lt
  refine ⟨slot, hslot, ?_⟩
  unfold victim at hslot
  cases hfind : b.slots.findIdx? (·.owner.isNone) with
  | some i =>
    rw [hfind] at hslot
    obtain ⟨hlt, hnone, -⟩ := Array.findIdx?_eq_some_iff_getElem.mp hfind
    simp only at hslot
    rw [Array.getElem?_eq_getElem hlt] at hslot
    cases hslot
    exact .inl (Option.isNone_iff_eq_none.mp hnone)
  | none =>
    rw [hfind] at hslot
    simp only at hslot
    refine .inr fun i other hother => ?_
    have hmem : other ∈ b.slots.toList :=
      Array.mem_toList_iff.mpr (Array.mem_of_getElem? hother)
    refine ⟨?_, ?_⟩
    · have hnot := Array.findIdx?_eq_none_iff.mp hfind other (Array.mem_of_getElem? hother)
      rw [Option.isNone_eq_false_iff] at hnot
      exact fun hnone => Option.ne_none_iff_isSome.mpr hnot hnone
    · rcases idlest_spec (0, (b.slots.getD 0 {}).lastActive) 0 b.slots.toList with
        ⟨hchosen, hleast⟩ | ⟨k, chosen, hk, hchosen, -, hleast⟩
      · rw [hchosen] at hslot
        have hfirst : b.slots.getD 0 {} = slot := by
          rw [Array.getD_eq_getD_getElem?, hslot]
          rfl
        rw [← hfirst]
        exact hleast other hmem
      · rw [hchosen, Nat.zero_add] at hslot
        rw [Array.getElem?_toList] at hk
        cases hk.symm.trans hslot
        exact hleast other hmem

/-- A slot is taken from the group that owns it, if there is one, and claimed by another group. -/
structure Takes (b c : StagingBuffer) (t : Token) (slot : StagingSlot) (owner : GroupId) : Prop
    where
  chosen : b.slots[b.victim]? = some slot
  token : t = ⟨b.victim, owner, b.nextEpoch⟩
  tick : c.tick = b.tick
  evicted : c.evictedWhileOwned = b.evictedWhileOwned + if slot.owner = none then 0 else 1
  owners : ∀ g, c.owners[g]? =
    if g = owner then some b.victim else if slot.owner = some g then none else b.owners[g]?
  active : ∀ g, c.activeAt g =
    if g = owner then some b.tick else if slot.owner = some g then none else b.activeAt g

/-- Freeing a slot counts nothing. -/
theorem freeSlot_counters (b : StagingBuffer) (i : Nat) : (b.freeSlot i).tick = b.tick ∧
    (b.freeSlot i).nextEpoch = b.nextEpoch ∧
    (b.freeSlot i).evictedWhileOwned = b.evictedWhileOwned := by
  unfold freeSlot
  split <;> exact ⟨rfl, rfl, rfl⟩

/-- The slot is freed and then claimed; it is counted if it had an owner. -/
theorem claimNew_eq {slot : StagingSlot} (hslot : b.slots[b.victim]? = some slot)
    (owner : GroupId) (depth columns : Nat) :
    b.claimNew owner depth columns =
      (freeSlot { b with
        evictedWhileOwned := b.evictedWhileOwned + if slot.owner = none then 0 else 1 }
        b.victim).claim b.victim owner depth columns := by
  have hgetD : b.slots.getD b.victim {} = slot := by
    rw [Array.getD_eq_getD_getElem?, hslot]
    rfl
  unfold claimNew
  simp only [hgetD]
  cases howner : slot.owner with
  | none => rfl
  | some g => rfl

theorem Valid.takes_claimNew (h : b.Valid) (owner : GroupId) (depth columns : Nat) :
    ∃ slot, Takes b (b.claimNew owner depth columns).2 (b.claimNew owner depth columns).1 slot
      owner := by
  obtain ⟨slot, hslot, -⟩ := h.victim_spec
  let counted : StagingBuffer := { b with
    evictedWhileOwned := b.evictedWhileOwned + if slot.owner = none then 0 else 1 }
  have hcounted : counted.Valid := h.count b.tick _
  obtain ⟨htick, hepoch, hevicted⟩ := counted.freeSlot_counters b.victim
  have hfreed : (counted.freeSlot b.victim).slots[b.victim]? = some (freed slot) := by
    rw [slots_freeSlot, if_pos rfl]
    exact congrArg (Option.map freed) hslot
  have hclaim := claimNew_eq hslot owner depth columns
  refine ⟨slot, hslot, ?_, ?_, ?_, fun g => ?_, fun g => ?_⟩
  · rw [hclaim]
    exact congrArg (Token.mk b.victim owner) hepoch
  · rw [hclaim]
    exact htick
  · rw [hclaim]
    exact hevicted
  · rw [hclaim, owners_claim, owners_freeSlot (b := counted) hslot]
  · rw [hclaim, (hcounted.freeSlot b.victim).activeAt_claim hfreed rfl, htick,
      hcounted.activeAt_freeSlot, show counted.slots[b.victim]? = some slot from hslot]
    rfl

namespace Aged

/-- Whether a group keeps its slot or takes another one, it is active now. -/
theorem acquire (h : Aged b order) (owner : GroupId) (depth columns : Nat) :
    Aged (b.acquire owner depth columns).2.2 (moveLast owner order) := by
  have hvalid := (h.valid.acquire owner depth columns).valid
  have hticked : b.ticked.Valid := h.valid.count (b.tick + 1) b.evictedWhileOwned
  rcases h.valid.acquire_cases owner depth columns with
    ⟨i, slot, hslot, howner, -, hacquire⟩ | ⟨i, slot, hslot, howner, -, hacquire⟩ |
    ⟨howner, hacquire⟩
  · have hactive := h.valid.activeAt_touch hslot howner (b.tick + 1) (b.tick + 1)
    rw [hacquire] at hvalid ⊢
    refine h.of_latest hvalid (Nat.lt_succ_self _) ((hactive owner).trans (if_pos rfl)) ?_
    exact fun other hother => .inr ((hactive other).trans (if_neg hother))
  · obtain ⟨taken, htakes⟩ := (hticked.freeSlot i).takes_claimNew owner (clampDepth depth)
      (min columns maxShape)
    have htick := htakes.tick.trans (b.ticked.freeSlot_counters i).1
    rw [hacquire] at hvalid ⊢
    refine h.of_latest hvalid (htick ▸ Nat.lt_succ_self b.tick) ?_ fun other hother => ?_
    · rw [htakes.active, if_pos rfl, htakes.tick]
    · rw [htakes.active, if_neg hother, hticked.activeAt_freeSlot]
      split
      · exact .inl rfl
      · split
        · exact .inl rfl
        · exact .inr rfl
  · obtain ⟨taken, htakes⟩ := hticked.takes_claimNew owner (clampDepth depth)
      (min columns maxShape)
    rw [hacquire] at hvalid ⊢
    refine h.of_latest hvalid (htakes.tick ▸ Nat.lt_succ_self b.tick) ?_ fun other hother => ?_
    · rw [htakes.active, if_pos rfl, htakes.tick]
    · rw [htakes.active, if_neg hother]
      split
      · exact .inl rfl
      · exact .inr rfl

theorem perform (h : Aged b order) (command : StagingCommand) :
    Aged (b.perform command) (b.orderAfter order command) := by
  cases command with
  | acquire owner depth columns => exact h.acquire owner depth columns
  | push t seq column content => exact h.push t seq column content
  | commit t seq => exact h.commit t seq
  | populate t rows => exact h.populate t rows
  | recentBases t target column limit => exact h.recentBases t target column limit
  | invalidate table => exact h.freeSlots _

/-- If all slots have an owner, the one that is chosen is that of the first group in the order which
has a slot. -/
theorem victim_eq (h : Aged b order)
    (hclaimed : ∀ (i : Nat) slot, b.slots[i]? = some slot → slot.owner ≠ none) :
    ∃ slot g, b.slots[b.victim]? = some slot ∧ slot.owner = some g ∧
      order.find? (b.owners.contains ·) = some g := by
  obtain ⟨slot, hslot, hnone | hleast⟩ := h.valid.victim_spec
  · exact absurd hnone (hclaimed _ slot hslot)
  · obtain ⟨g, howner⟩ := Option.ne_none_iff_exists'.mp (hclaimed _ slot hslot)
    refine ⟨slot, g, hslot, howner, ?_⟩
    have hactive := h.valid.activeAt_eq hslot howner
    obtain ⟨before, after, horder⟩ := List.append_of_mem (h.listed g _ hactive).1
    have hascending := h.ascending
    rw [horder, List.pairwise_append] at hascending
    rw [horder, List.find?_append]
    have hbefore : before.find? (b.owners.contains ·) = none := by
      refine List.find?_eq_none.mpr fun other hother hcontains => ?_
      -- a group before it in the order would have been idle for longer
      obtain ⟨i, hi⟩ := Option.isSome_iff_exists.mp
        (Std.HashMap.contains_eq_isSome_getElem?.symm.trans hcontains)
      obtain ⟨s, hs, hsOther⟩ := (h.valid.owners other i).mp hi
      have hlt := hascending.2.2 other hother g List.mem_cons_self _ _
        (h.valid.activeAt_eq hs hsOther) hactive
      have hle := (hleast i s hs).2
      omega
    have hself : b.owners.contains g = true := by
      rw [Std.HashMap.contains_eq_isSome_getElem?,
        (h.valid.owners g b.victim).mpr ⟨slot, hslot, howner⟩]
      rfl
    rw [hbefore, Option.none_or, List.find?_cons_of_pos hself]

end Aged

end VersionChain.StagingBuffer
