import VersionChain.Proofs.Record.Stream

/-!
# Lengths of records

The codec decides between two lists of steps by a length that it counts before it writes
anything. What is counted is the length of the record that is then written, so that the choice
is one between the records themselves, and the extra pass cannot make a record longer.

* `Record.size_write` — the count is right;
* `Diff.allFit_steps` — so are the lengths inside of the record: it is read as the steps that
  were counted;
* `Diff.recordSize_trimmed` — a single changed stretch, of which any part may be empty;
* `DiffCoder.encode_sizes` — the records with and without the extra pass, and keyframes.
-/

namespace VersionChain

/-! ## The count -/

namespace Diff

/-- Two lists of steps that come into one record need one header less. -/
theorem recordSize_append (ops more : List Op) :
    recordSize (ops ++ more) + Header.size = recordSize ops + recordSize more := by
  induction ops with
  | nil =>
    simp only [List.nil_append, recordSize]
    omega
  | cons op ops ih =>
    simp only [List.cons_append, recordSize]
    omega

end Diff

namespace Record

/-- A record is as long as was counted. -/
theorem size_write (header : Header) (ops : List Op) :
    (write header ops).size = Diff.recordSize ops := by
  rw [write, List.size_toArray, List.length_append, Header.length_bytes]
  induction ops with
  | nil => rfl
  | cons op ops ih =>
    rw [List.flatMap_cons, List.length_append, Op.length_bytes, Diff.recordSize, ← ih]
    omega

/-- The record of a target that carries these steps. -/
def ofSteps (tag : Tag) (target : Bytes) (ops : List Op) : Bytes :=
  write ⟨tag, .ofNat target.size, checksum target⟩ ops

theorem size_ofSteps (tag : Tag) (target : Bytes) (ops : List Op) :
    (ofSteps tag target ops).size = Diff.recordSize ops :=
  size_write _ ops

end Record

/-- Steps that can be carried out have lengths that fit, if that of the result does. -/
theorem Op.allFit_of_applyAll {base out result : Bytes} {ops : List Op}
    (h : applyAll base out ops = .ok result) (bound : result.size < UInt32.size) : AllFit ops := by
  induction ops generalizing out with
  | nil => exact allFit_nil
  | cons op ops ih =>
    obtain ⟨next, hop, hops⟩ := applyAll_cons_eq_ok.mp h
    have hnext : next.size < UInt32.size := Nat.lt_of_le_of_lt (size_le_of_applyAll hops) bound
    exact List.forall_mem_cons.mpr ⟨fits_of_apply hop hnext, ih hops⟩

/-! ## What is counted -/

namespace Diff

variable (coder : DiffCoder) {tag : Tag} {base target : Bytes}

/-- The steps that are counted are read back from the record. -/
theorem allFit_steps (tag : Tag) (extraPass : Bool) (hbase : base.size < lengthLimit)
    (htarget : target.size < lengthLimit) : Op.AllFit (steps coder tag base target extraPass) :=
  Op.allFit_of_applyAll (applyAll_steps coder tag target extraPass hbase) htarget

/-- A literal costs its introduction and its bytes, and nothing if it is empty. -/
theorem recordSize_literal (target : Bytes) :
    recordSize (literal target) = if target.isEmpty then 11 else 16 + target.size := by
  unfold literal
  split
  · rfl
  · simp only [recordSize, Op.size, Header.size]
    omega

theorem recordSize_copyOf (offset length : Nat) :
    recordSize (copyOf offset length) = 11 + if 0 < length then 9 else 0 := by
  unfold copyOf
  split <;> rfl

theorem recordSize_between (target : Bytes) {start stop : Nat} (h : stop ≤ target.size) :
    recordSize (between target start stop) =
      11 + if start < stop then 5 + (stop - start) else 0 := by
  unfold between
  split
  · simp only [recordSize, Op.size, Header.size, Array.size_extract, Nat.min_eq_left h]
    omega
  · rfl

/-- A beginning and an ending that are copied, with a literal between them. -/
theorem recordSize_stretch (offset offset' : Nat) (target : Bytes) (front back : Nat) :
    recordSize (copyOf offset front ++ between target front (target.size - back) ++
        copyOf offset' back) =
      11 + (if 0 < front then 9 else 0) +
        (if front < target.size - back then 5 + (target.size - back - front) else 0) +
        (if 0 < back then 9 else 0) := by
  have hfirst := recordSize_append (copyOf offset front) (between target front (target.size - back))
  have hboth := recordSize_append
    (copyOf offset front ++ between target front (target.size - back)) (copyOf offset' back)
  simp only [recordSize_copyOf, recordSize_between target (Nat.sub_le ..), Header.size]
    at hfirst hboth
  omega

/-- The common beginning and the common ending each cost a copy, and what is between costs a
literal; a part that is empty costs nothing. -/
theorem recordSize_trimmed (base target : Bytes) :
    recordSize (trimmed base target) =
      let front := base.commonPrefix 0 target 0
      let back := base.commonSuffix target front
      11 + (if 0 < front then 9 else 0) +
        (if front < target.size - back then 5 + (target.size - back - front) else 0) +
        (if 0 < back then 9 else 0) :=
  recordSize_stretch _ _ target _ _

/-! ## What is chosen -/

/-- From a target that is shorter than the shortest run that is copied, nothing is. -/
theorem walk_of_short (h : target.size < coder.minMatch) (index : WindowIndex)
    (pos start cursor : Nat) (ops : List Op) :
    walk coder base target index pos start cursor ops =
      between target start target.size ++ ops := by
  fun_induction walk coder base target index pos start cursor ops with
  | case1 pos start cursor ops hroom run hrun ih =>
    have hpos : pos ≤ target.size := Nat.le_of_add_right_le hroom
    have hinside : pos + run.length ≤ target.size := (repeats_of_run? hrun hpos).right_le
    have hmatch : coder.minMatch ≤ run.length := minMatch_le_of_run? hrun
    omega
  | case2 pos start cursor ops hroom hnone ih => exact ih
  | case3 pos start cursor ops hend => rfl

theorem greedy_of_short (base : Bytes) (h : target.size < coder.minMatch) :
    greedy coder base target = literal target := by
  unfold greedy
  split
  · rfl
  · rename_i hsize
    have hpos : 0 < target.size := by
      simp only [windowWidth] at hsize
      omega
    have hnonempty : target.isEmpty = false := by simpa using Array.ne_empty_of_size_pos hpos
    rw [walk_of_short coder h, List.append_nil, reverse_between, between, if_pos hpos,
      Array.extract_size, literal, hnonempty]
    rfl

/-- Without the extra pass nothing is compared. -/
theorem steps_one_pass (base target : Bytes) (h : tag.isKeyframe = false) :
    steps coder tag base target false = greedy coder base target := by
  simp only [steps, h, Bool.false_eq_true, if_false]

/-- The extra pass keeps what the walk found unless the single changed stretch is shorter. -/
theorem steps_extraPass (base target : Bytes) (h : tag.isKeyframe = false) :
    steps coder tag base target true =
      if recordSize (trimmed base target) < recordSize (greedy coder base target) then
        trimmed base target
      else greedy coder base target := by
  simp only [steps, h, Bool.false_eq_true, if_false, if_true]

theorem recordSize_extraPass (base target : Bytes) (h : tag.isKeyframe = false) :
    recordSize (steps coder tag base target true) =
      min (recordSize (greedy coder base target)) (recordSize (trimmed base target)) := by
  rw [steps_extraPass coder base target h]
  split <;> omega

theorem recordSize_extraPass_le (tag : Tag) (base target : Bytes) :
    recordSize (steps coder tag base target true) ≤
      recordSize (steps coder tag base target false) := by
  cases h : tag.isKeyframe with
  | true =>
    have hsame : steps coder tag base target true = steps coder tag base target false :=
      (steps_keyframe coder base target true h).trans
        (steps_keyframe coder base target false h).symm
    exact Nat.le_of_eq (congrArg recordSize hsame)
  | false =>
    rw [recordSize_extraPass coder base target h, steps_one_pass coder base target h]
    exact Nat.min_le_left ..

end Diff

/-! ## Records -/

namespace DiffCoder

variable (coder : DiffCoder) {tag : Tag} {base target : Bytes}

/-- A record is read as the steps that were counted. -/
theorem recordOf_read (tag : Tag) (extraPass : Bool) (hbase : base.size < Diff.lengthLimit)
    (htarget : target.size < Diff.lengthLimit) :
    ∃ body, Header.read (coder.recordOf tag base target extraPass).toList =
        .ok (⟨.ofWire tag.toWire, .ofNat target.size, checksum target⟩, body) ∧
      (Op.Reader.mk body).Yields
        ((Diff.steps coder tag base target extraPass).map .ok) :=
  ⟨_, Record.read_write _ _,
    Op.Reader.yields_bytes (Diff.allFit_steps coder tag extraPass hbase htarget)⟩

theorem encode_keyframe (base : Bytes) (extraPass : Bool) (htag : tag.isKeyframe = true)
    (hbase : base.size < Diff.lengthLimit) (htarget : target.size < Diff.lengthLimit) :
    coder.encode tag base target extraPass =
      .record (Record.ofSteps tag target (Diff.literal target)) := by
  rw [encode_eq_record coder tag extraPass hbase htarget, recordOf,
    Diff.steps_keyframe coder base target extraPass htag, Record.ofSteps]

/-- What is known of the records of a target without and with the extra pass. -/
structure Written (coder : DiffCoder) (tag : Tag) (base target single extra : Bytes) : Prop where
  encode_single : coder.encode tag base target false = .record single
  encode_extra : coder.encode tag base target true = .record extra
  /-- A record is as long as was counted for the steps that are read from it. -/
  counted : ∀ record, record = single ∨ record = extra →
    ∃ header body ops, Header.read record.toList = .ok (header, body) ∧
      (Op.Reader.mk body).Yields (ops.map .ok) ∧ record.size = Diff.recordSize ops
  extra_le : extra.size ≤ single.size
  /-- The extra pass gives the shorter of two records, and that of the walk if they are of one
  length. -/
  delta : tag.isKeyframe = false →
    let greedy := Record.ofSteps tag target (Diff.greedy coder base target)
    let trimmed := Record.ofSteps tag target (Diff.trimmed base target)
    single = greedy ∧ extra.size = min greedy.size trimmed.size ∧
      (greedy.size = trimmed.size → extra = greedy)
  /-- A single changed stretch costs a copy for the common beginning, one for the common ending, and
  a literal for what is between. A part that is empty costs nothing. -/
  stretch : let front := base.commonPrefix 0 target 0
    let back := base.commonSuffix target front
    (Record.ofSteps tag target (Diff.trimmed base target)).size =
      11 + (if 0 < front then 9 else 0) +
        (if front < target.size - back then 5 + (target.size - back - front) else 0) +
        (if 0 < back then 9 else 0)
  /-- A keyframe is the same record for every base and pass: the header, and the target as one
  literal if it is not empty. -/
  keyframe : tag.isKeyframe = true →
    (∀ other extraPass, other.size < Diff.lengthLimit →
      coder.encode tag other target extraPass = .record single) ∧
    single.size = if target.isEmpty then 11 else 16 + target.size

/-- Whatever is encoded, its length was counted before, and the extra pass does not make it
longer. -/
theorem encode_sizes (coder : DiffCoder) (tag : Tag) (base target : Bytes)
    (hbase : base.size < Diff.lengthLimit) (htarget : target.size < Diff.lengthLimit) :
    ∃ single extra, coder.Written tag base target single extra := by
  refine ⟨coder.recordOf tag base target false, coder.recordOf tag base target true,
    encode_eq_record coder tag false hbase htarget, encode_eq_record coder tag true hbase htarget,
    ?counted, ?shorter, fun hdelta => ?delta, ?stretch, fun hkeyframe => ?keyframe⟩
  case counted =>
    have counted (extraPass : Bool) := recordOf_read coder tag extraPass hbase htarget
    rintro record (rfl | rfl)
    · obtain ⟨body, hread, hyields⟩ := counted false
      exact ⟨_, body, _, hread, hyields, Record.size_write _ _⟩
    · obtain ⟨body, hread, hyields⟩ := counted true
      exact ⟨_, body, _, hread, hyields, Record.size_write _ _⟩
  case shorter =>
    rw [recordOf, Record.size_write, recordOf, Record.size_write]
    exact Diff.recordSize_extraPass_le coder tag base target
  case delta =>
    refine ⟨?_, ?_, fun heq => ?_⟩
    · rw [recordOf, Diff.steps_one_pass coder base target hdelta]
      rfl
    · rw [recordOf, Record.size_write, Record.size_ofSteps, Record.size_ofSteps]
      exact Diff.recordSize_extraPass coder base target hdelta
    · -- only a shorter record replaces that of the walk
      rw [Record.size_ofSteps, Record.size_ofSteps] at heq
      rw [recordOf, Diff.steps_extraPass coder base target hdelta,
        if_neg (Nat.not_lt.mpr (Nat.le_of_eq heq))]
      rfl
  case stretch =>
    rw [Record.size_ofSteps]
    exact Diff.recordSize_trimmed base target
  case keyframe =>
    have hsingle : coder.recordOf tag base target false =
        Record.ofSteps tag target (Diff.literal target) := by
      rw [recordOf, Diff.steps_keyframe coder base target false hkeyframe, Record.ofSteps]
    rw [hsingle]
    refine ⟨fun other extraPass hother => ?_, ?_⟩
    · exact encode_keyframe coder other extraPass hkeyframe hother htarget
    · rw [Record.size_ofSteps]
      exact Diff.recordSize_literal target

/-- A changed byte in the middle. The walk copies nothing of a target that is this short, but the extra
pass does. -/
theorem encode_sizes_changed_byte :
    let base : Bytes := #[1, 2, 3, 4, 5, 6, 7, 8, 9, 10, 11, 12, 13, 14, 15, 16, 17, 18, 19, 20, 21,
      22, 23, 24, 25, 26, 27, 28, 29, 30, 31]
    let target : Bytes := base.setIfInBounds 15 0
    (base.size < Diff.lengthLimit ∧ target.size < Diff.lengthLimit) ∧
    ∃ single extra, (withMinMatch 32).Written (.back 1) base target single extra ∧
      single.size = 47 ∧ extra.size = 35 := by
  intro base target
  have hbase : base.size < Diff.lengthLimit := by decide
  have htarget : target.size < Diff.lengthLimit := by decide
  obtain ⟨single, extra, h⟩ := encode_sizes (withMinMatch 32) (.back 1) base target hbase htarget
  obtain ⟨hsingle, hextra, -⟩ := h.delta rfl
  have hgreedy : single.size = 47 := by
    rw [hsingle, Diff.greedy_of_short _ base (by decide), Record.size_ofSteps,
      Diff.recordSize_literal]
    rfl
  have htrimmed : (Record.ofSteps (.back 1) target (Diff.trimmed base target)).size = 35 :=
    h.stretch.trans (by decide +kernel)
  refine ⟨⟨hbase, htarget⟩, single, extra, h, hgreedy, ?_⟩
  rw [hextra, ← hsingle, hgreedy, htrimmed]
  rfl

end DiffCoder

end VersionChain
