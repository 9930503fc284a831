import VersionChain.Record.Diff
import VersionChain.Proofs.Record.Layout

/-!
# Steps that cover the target

Whatever way the difference codec chooses its steps, carrying them out on the base gives the
target. Along the walk the invariant is that the steps written so far rebuild the target up to
the literal that is still open.

* `Diff.walk_covers` — the greedy walk keeps the invariant to the end;
* `Diff.trimmed_covers` — so does the single changed stretch;
* `Diff.steps_cover` — hence every choice of steps rebuilds the target.
-/

namespace VersionChain

/-! ## Common runs -/

/-- A run of `a` from `i` on that `b` repeats from `j` on. -/
structure Bytes.Repeats (a : Bytes) (i : Nat) (b : Bytes) (j length : Nat) : Prop where
  left_le : i + length ≤ a.size
  right_le : j + length ≤ b.size
  eq : a.extract i (i + length) = b.extract j (j + length)

namespace Bytes

/-- Bytes that agree one by one form a repeated run. -/
theorem Repeats.of_getElem {a b : Bytes} {i j length : Nat} (left : i + length ≤ a.size)
    (right : j + length ≤ b.size)
    (h : ∀ k, (hk : k < length) → a[i + k] = b[j + k]) : a.Repeats i b j length := by
  refine ⟨left, right, ?_⟩
  apply Array.ext
  · simp only [Array.size_extract]
    omega
  · intro k hk _
    simp only [Array.size_extract] at hk
    rw [Array.getElem_extract, Array.getElem_extract]
    exact h k (by omega)

/-- A count of agreeing bytes lies inside both byte strings, and the bytes do agree. -/
theorem agreement_spec (a : Bytes) (i : Nat) (b : Bytes) (j n k : Nat) (hn : n ≤ k)
    (hk : k < agreement a i b j n) :
    ∃ (ha : i + k < a.size) (hb : j + k < b.size), a[i + k] = b[j + k] := by
  fun_induction agreement a i b j n with
  | case1 n h heq ih =>
    by_cases hnk : k = n
    · subst hnk
      exact ⟨h.1, h.2, heq⟩
    · exact ih (by omega) hk
  | case2 n h hne => omega
  | case3 n h => omega

theorem endAgreement_spec (a b : Bytes) (floor n k : Nat) (hn : n ≤ k)
    (hk : k < endAgreement a b floor n) :
    ∃ (ha : floor + k < a.size) (hb : floor + k < b.size),
      a[a.size - 1 - k] = b[b.size - 1 - k] := by
  fun_induction endAgreement a b floor n with
  | case1 n h heq ih =>
    by_cases hnk : k = n
    · subst hnk
      exact ⟨h.1, h.2, heq⟩
    · exact ih (by omega) hk
  | case2 n h hne => omega
  | case3 n h => omega

/-- The common run from two places on is a repeated run. -/
theorem repeats_commonPrefix (a : Bytes) (i : Nat) (b : Bytes) (j : Nat) (hi : i ≤ a.size)
    (hj : j ≤ b.size) : a.Repeats i b j (commonPrefix a i b j) := by
  have inside := commonPrefix_le a i b j
  refine .of_getElem (by omega) (by omega) ?_
  intro k hk
  obtain ⟨_, _, heq⟩ := agreement_spec a i b j 0 k (Nat.zero_le k) hk
  exact heq

/-- The common ending is a repeated run at the ends of both byte strings, and does not reach
back beyond the floor. -/
theorem repeats_commonSuffix (a b : Bytes) (floor : Nat) (ha : floor ≤ a.size)
    (hb : floor ≤ b.size) :
    floor + commonSuffix a b floor ≤ a.size ∧ floor + commonSuffix a b floor ≤ b.size ∧
      a.Repeats (a.size - commonSuffix a b floor) b (b.size - commonSuffix a b floor)
        (commonSuffix a b floor) := by
  have spec := endAgreement_spec a b floor 0
  have inside : floor + commonSuffix a b floor ≤ a.size ∧
      floor + commonSuffix a b floor ≤ b.size := by
    by_cases hzero : commonSuffix a b floor = 0
    · omega
    · obtain ⟨h₁, h₂, -⟩ := spec (commonSuffix a b floor - 1) (Nat.zero_le _)
        (by unfold commonSuffix at hzero ⊢; omega)
      omega
  refine ⟨inside.1, inside.2, .of_getElem (by omega) (by omega) ?_⟩
  intro k hk
  obtain ⟨_, _, heq⟩ := spec (commonSuffix a b floor - 1 - k) (Nat.zero_le _)
    (by unfold commonSuffix at hk ⊢; omega)
  have left : a.size - 1 - (commonSuffix a b floor - 1 - k) = a.size - commonSuffix a b floor + k := by
    omega
  have right : b.size - 1 - (commonSuffix a b floor - 1 - k) = b.size - commonSuffix a b floor + k := by
    omega
  simpa only [left, right] using heq

/-- Two stretches of a byte string that meet. -/
theorem extract_append_extract_of_le (b : Bytes) {start middle stop : Nat} (h₁ : start ≤ middle)
    (h₂ : middle ≤ stop) : b.extract start middle ++ b.extract middle stop = b.extract start stop := by
  rw [Array.extract_append_extract, Nat.min_eq_left h₁, Nat.max_eq_right h₂]

end Bytes

/-! ## Single steps -/

namespace Diff

/-- The steps in `ops` rebuild the target up to position `stop`. -/
def Covers (base target : Bytes) (ops : List Op) (stop : Nat) : Prop :=
  Op.applyAll base #[] ops = .ok (target.extract 0 stop)

/-- Steps that continue a covered part. -/
theorem Covers.append {base target : Bytes} {front back : List Op} {middle stop : Nat}
    (h : Covers base target front middle)
    (hback : Op.applyAll base (target.extract 0 middle) back = .ok (target.extract 0 stop)) :
    Covers base target (front ++ back) stop := by
  unfold Covers
  rw [Op.applyAll_append back h]
  exact hback

theorem applyAll_singleton (base out : Bytes) (op : Op) :
    Op.applyAll base out [op] = op.apply base out := by
  rw [Op.applyAll_cons]
  cases op.apply base out <;> rfl

theorem reverse_between (target : Bytes) (start stop : Nat) :
    (between target start stop).reverse = between target start stop := by
  unfold between
  split <;> rfl

/-- The literal between two positions continues what is covered. -/
theorem applyAll_between (base target : Bytes) {start stop : Nat} (h : start ≤ stop) :
    Op.applyAll base (target.extract 0 start) (between target start stop) =
      .ok (target.extract 0 stop) := by
  unfold between
  split
  · rw [applyAll_singleton]
    show Except.ok _ = _
    rw [Bytes.extract_append_extract_of_le target (Nat.zero_le start) h]
  · have hstop : start = stop := by omega
    rw [hstop]
    rfl

/-- Copying a repeated run continues what is covered. The offsets fit into their fields because
the base is short enough. -/
theorem apply_copy {base target : Bytes} {offset pos length : Nat}
    (hrun : base.Repeats offset target pos length) (hbase : base.size < lengthLimit) :
    Op.apply base (target.extract 0 pos) (.copy (.ofNat offset) (.ofNat length)) =
      .ok (target.extract 0 (pos + length)) := by
  have inside := hrun.left_le
  have hoffset : (UInt32.ofNat offset).toNat = offset :=
    UInt32.toNat_ofNat_of_lt' (by simp only [lengthLimit] at hbase; simp [UInt32.size]; omega)
  have hlength : (UInt32.ofNat length).toNat = length :=
    UInt32.toNat_ofNat_of_lt' (by simp only [lengthLimit] at hbase; simp [UInt32.size]; omega)
  simp only [Op.apply, hoffset, hlength]
  rw [if_pos inside, hrun.eq,
    Bytes.extract_append_extract_of_le target (Nat.zero_le pos) (Nat.le_add_right pos length)]

theorem applyAll_copyOf {base target : Bytes} {offset pos length : Nat}
    (hrun : base.Repeats offset target pos length) (hbase : base.size < lengthLimit) :
    Op.applyAll base (target.extract 0 pos) (copyOf offset length) =
      .ok (target.extract 0 (pos + length)) := by
  unfold copyOf
  split
  · rw [applyAll_singleton]
    exact apply_copy hrun hbase
  · have hlength : length = 0 := by omega
    subst hlength
    rfl

/-! ## Whole choices of steps -/

/-- A literal covers the target. -/
theorem literal_covers (base target : Bytes) : Covers base target (literal target) target.size := by
  unfold Covers literal
  rw [Array.extract_size]
  split
  · rename_i hempty
    rw [Array.isEmpty_iff.mp hempty]
    rfl
  · rw [applyAll_singleton]
    simp [Op.apply]

/-- A run that was found is repeated by the target. -/
theorem repeats_of_runAt? {minMatch : Nat} {base target : Bytes} {place pos : Nat} {run : Run}
    (h : runAt? minMatch base target place pos = some run) (hpos : pos ≤ target.size) :
    base.Repeats run.offset target pos run.length := by
  simp only [runAt?, Option.ite_none_right_eq_some, Option.some.injEq] at h
  obtain ⟨⟨hplace, -⟩, rfl⟩ := h
  exact Bytes.repeats_commonPrefix base place target pos (Nat.le_of_lt hplace) hpos

theorem repeats_of_run? {minMatch : Nat} {base target : Bytes} {index : WindowIndex}
    {aligned pos : Nat} {run : Run} (h : run? minMatch base target index aligned pos = some run)
    (hpos : pos ≤ target.size) : base.Repeats run.offset target pos run.length := by
  rcases Option.or_eq_some_iff.mp h with h | ⟨-, h⟩
  · exact repeats_of_runAt? h hpos
  · obtain ⟨place, -, h⟩ := Option.bind_eq_some_iff.mp h
    exact repeats_of_runAt? h hpos

/-- Walking along the target ends with steps that cover it. Neither the index nor the place
that lines up has to be right: a run counts only if the bytes agree. -/
theorem walk_covers (coder : DiffCoder) {base target : Bytes} (index : WindowIndex)
    {pos start cursor : Nat} {ops : List Op} (hbase : base.size < lengthLimit)
    (hstart : start ≤ pos) (hpos : pos ≤ target.size)
    (h : Covers base target ops.reverse start) :
    Covers base target (walk coder base target index pos start cursor ops).reverse target.size := by
  fun_induction walk coder base target index pos start cursor ops with
  | case1 pos start cursor ops hroom run hrun ih =>
    have hrepeats := repeats_of_run? hrun hpos
    refine ih (Nat.le_refl _) hrepeats.right_le ?_
    -- the open literal comes first, then the copy
    have hliteral : Covers base target (ops.reverse ++ (between target start pos)) pos :=
      h.append (applyAll_between base target hstart)
    have hcopy : Covers base target ((ops.reverse ++ between target start pos) ++
        [.copy (.ofNat run.offset) (.ofNat run.length)]) (pos + run.length) := by
      refine hliteral.append ?_
      rw [applyAll_singleton]
      exact apply_copy hrepeats hbase
    simpa only [List.reverse_cons, List.reverse_append, reverse_between] using hcopy
  | case2 pos start cursor ops hroom hnone ih =>
    simp only [windowWidth] at hroom
    exact ih (by omega) (by omega) h
  | case3 pos start cursor ops hend =>
    rw [List.reverse_append, reverse_between]
    exact h.append (applyAll_between base target (Nat.le_trans hstart hpos))

theorem greedy_covers (coder : DiffCoder) {base : Bytes} (target : Bytes)
    (hbase : base.size < lengthLimit) :
    Covers base target (greedy coder base target) target.size := by
  unfold greedy
  split
  · exact literal_covers base target
  · refine walk_covers coder (windowIndex base) hbase (Nat.le_refl 0) (Nat.zero_le _) ?_
    unfold Covers
    rw [Array.extract_zero]
    rfl

/-- Keeping a common beginning and a common ending covers the target. -/
theorem trimmed_covers {base : Bytes} (target : Bytes) (hbase : base.size < lengthLimit) :
    Covers base target (trimmed base target) target.size := by
  have hfront := Bytes.repeats_commonPrefix base 0 target 0 (Nat.zero_le _) (Nat.zero_le _)
  have hfrontBase := hfront.left_le
  have hfrontTarget := hfront.right_le
  obtain ⟨hbackBase, hbackTarget, hback⟩ :=
    Bytes.repeats_commonSuffix base target (base.commonPrefix 0 target 0) (by omega) (by omega)
  unfold trimmed
  have hbegin : Covers base target (copyOf 0 (base.commonPrefix 0 target 0))
      (0 + base.commonPrefix 0 target 0) := by
    have hcopy := applyAll_copyOf hfront hbase
    simpa only [Covers, Array.extract_zero] using hcopy
  rw [Nat.zero_add] at hbegin
  have hmiddle := hbegin.append (applyAll_between base target
    (show base.commonPrefix 0 target 0 ≤
      target.size - base.commonSuffix target (base.commonPrefix 0 target 0) by omega))
  have hend := hmiddle.append (applyAll_copyOf hback hbase)
  rwa [Nat.sub_add_cancel (by omega)] at hend

/-- Whatever steps the codec writes, they cover the target. -/
theorem steps_cover (coder : DiffCoder) (tag : Tag) {base : Bytes} (target : Bytes) (extraPass : Bool)
    (hbase : base.size < lengthLimit) :
    Covers base target (steps coder tag base target extraPass) target.size := by
  unfold steps
  split
  · exact literal_covers base target
  · dsimp only
    split
    · split
      · exact trimmed_covers target hbase
      · exact greedy_covers coder target hbase
    · exact greedy_covers coder target hbase

end Diff

end VersionChain
