import VersionChain.Proofs.Record.Parsing
import VersionChain.Proofs.Record.Slices

/-!
# Which records are decoded

A record is decoded to a target exactly if it is laid out as a record of that target: the fixed
part with the target's length and checksum, and behind it whole steps that stay inside the base
and whose outputs make up the target. Whatever else is given to the decoder is refused, and the
refusal names the first check that fails in the order of the bytes.

* `Record.WellFormed` — the layout of a record of a target, in bytes;
* `Record.BadStep`, `Record.FirstViolation` — the first check that fails, in bytes;
* `Record.rebuild_eq_ok`, `Record.rebuild_eq_error` — what was found on the way through the steps;
* `Record.decode_verdict` — accepted and refused records, the refusals, and the accesses.
-/

namespace VersionChain

namespace Op

/-- Whether a step stays inside the base. -/
def Inside (base : Bytes) : Op → Prop
  | copy offset length => offset.toNat + length.toNat ≤ base.size
  | insert _ => True

/-- The bytes that a step appends. -/
def output (base : Bytes) : Op → List UInt8
  | copy offset length => (base.toList.drop offset.toNat).take length.toNat
  | insert content => content.toList

/-- A step is carried out exactly if it stays inside the base, and appends its output. -/
theorem apply_eq_ok_iff {base out next : Bytes} {op : Op} :
    op.apply base out = .ok next ↔
      op.Inside base ∧ next = out ++ (op.output base).toArray := by
  cases op with
  | copy offset length =>
    have hrun : base.extract offset.toNat (offset.toNat + length.toNat) =
        ((base.toList.drop offset.toNat).take length.toNat).toArray := by
      rw [← Array.toList_inj, Array.toList_extract, List.extract_eq_take_drop,
        Nat.add_sub_cancel_left]
    simp only [apply, Inside, output, ← hrun]
    split
    · rename_i hinside
      simp only [Except.ok.injEq, hinside, true_and, eq_comm]
    · rename_i houtside
      simp only [reduceCtorEq, houtside, false_and]
  | insert content =>
    simp only [apply, Inside, output, Except.ok.injEq, true_and, Array.toArray_toList, eq_comm]

/-- Only a copy is refused, and only if it reaches outside of the base. -/
theorem apply_eq_error {base out : Bytes} {op : Op} {e : RecordError}
    (h : op.apply base out = .error e) :
    ∃ offset length, op = copy offset length ∧ ¬(copy offset length).Inside base ∧
      e = .copyOutOfRange offset length base.size := by
  cases op with
  | copy offset length =>
    simp only [apply] at h
    split at h
    · cases h
    · rename_i houtside
      cases h
      exact ⟨offset, length, rfl, houtside, rfl⟩
  | insert content => cases h

end Op

namespace Record

/-! ## The layout in bytes -/

/-- The base that the steps of a record read: under the tag 0 there is none. -/
def effectiveBase (wire : UInt16) (base : Bytes) : Bytes :=
  if wire = 0 then #[] else base

/-- What steps build together. -/
def built (base : Bytes) (ops : List Op) : List UInt8 :=
  ops.flatMap (Op.output base)

/-- Whole steps that pass: each stays inside the base, and no more than `limit` bytes are built. -/
structure Passes (base : Bytes) (limit : Nat) (ops : List Op) : Prop where
  fits : ∀ op ∈ ops, op.Fits
  inside : ∀ op ∈ ops, op.Inside base
  bounded : (built base ops).length ≤ limit

/-- The record consists of the fixed part for the target and of whole steps, each inside the base,
that together build the target. -/
def WellFormed (base record target : Bytes) : Prop :=
  ∃ (wire : UInt16) (length : UInt32) (ops : List Op),
    record.toList = layout wire length (checksum target) (ops.flatMap Op.bytes) ∧
    length.toNat = target.size ∧
    (∀ op ∈ ops, op.Fits) ∧ (∀ op ∈ ops, op.Inside (effectiveBase wire base)) ∧
    built (effectiveBase wire base) ops = target.toList

/-- The first check that fails on the bytes of the next step, behind `before` bytes that were
built: whether it can be read, whether it stays inside the base, and whether more is built than
expected. -/
inductive BadStep (base : Bytes) (expected : UInt32) (before : Nat) :
    List UInt8 → RecordError → Prop
  /-- A known code, and no whole step behind it. -/
  | truncated {code : UInt8} {tail : List UInt8} (known : code = copyCode ∨ code = insertCode)
      (cut : ∀ op : Op, op.Fits → ∀ more, code :: tail ≠ op.bytes ++ more) :
      BadStep base expected before (code :: tail) .truncated
  | unknownOp {code : UInt8} {tail : List UInt8} (notCopy : code ≠ copyCode)
      (notInsert : code ≠ insertCode) :
      BadStep base expected before (code :: tail) (.unknownOp code)
  | outOfRange {offset length : UInt32} {rest : List UInt8}
      (outside : ¬(Op.copy offset length).Inside base) :
      BadStep base expected before ((Op.copy offset length).bytes ++ rest)
        (.copyOutOfRange offset length base.size)
  | overrun {op : Op} {rest : List UInt8} (fits : op.Fits) (inside : op.Inside base)
      (long : expected.toNat < before + (op.output base).length) :
      BadStep base expected before (op.bytes ++ rest)
        (.lengthMismatch expected (before + (op.output base).length))

/-- The first check that fails on a record: the fixed part, the steps one after the other, the
length of the whole and the checksum. -/
inductive FirstViolation (base record : Bytes) : RecordError → Prop
  | short (h : record.size < Header.size) : FirstViolation base record .truncated
  | magic (h : Header.size ≤ record.size) (other : record.toList.headD 0 ≠ recordMagic) :
      FirstViolation base record (.badMagic (record.toList.headD 0))
  | step {wire : UInt16} {length crc : UInt32} {ops : List Op} {rest : List UInt8} {e : RecordError}
      (bytes : record.toList = layout wire length crc (ops.flatMap Op.bytes ++ rest))
      (passes : Passes (effectiveBase wire base) length.toNat ops)
      (bad : BadStep (effectiveBase wire base) length
        (built (effectiveBase wire base) ops).length rest e) :
      FirstViolation base record e
  | length {wire : UInt16} {length crc : UInt32} {ops : List Op}
      (bytes : record.toList = layout wire length crc (ops.flatMap Op.bytes))
      (passes : Passes (effectiveBase wire base) length.toNat ops)
      (other : (built (effectiveBase wire base) ops).length ≠ length.toNat) :
      FirstViolation base record
        (.lengthMismatch length (built (effectiveBase wire base) ops).length)
  | checksum {wire : UInt16} {length crc : UInt32} {ops : List Op}
      (bytes : record.toList = layout wire length crc (ops.flatMap Op.bytes))
      (passes : Passes (effectiveBase wire base) length.toNat ops)
      (whole : (built (effectiveBase wire base) ops).length = length.toNat)
      (other : VersionChain.checksum (built (effectiveBase wire base) ops).toArray ≠ crc) :
      FirstViolation base record .checksumMismatch

/-! ## Steps that pass -/

theorem passes_nil (base : Bytes) (limit : Nat) : Passes base limit [] where
  fits := by simp
  inside := by simp
  bounded := Nat.zero_le _

/-- Steps pass one by one, each with what the ones before it left of the limit. -/
theorem passes_cons_iff {base : Bytes} {limit : Nat} {op : Op} {ops : List Op} :
    Passes base limit (op :: ops) ↔
      op.Fits ∧ op.Inside base ∧ (op.output base).length ≤ limit ∧
        Passes base (limit - (op.output base).length) ops := by
  have hbuilt : (built base (op :: ops)).length =
      (op.output base).length + (built base ops).length := by
    simp only [built, List.flatMap_cons, List.length_append]
  constructor
  · rintro ⟨fits, inside, bounded⟩
    rw [hbuilt] at bounded
    obtain ⟨fitsHere, fits⟩ := List.forall_mem_cons.mp fits
    obtain ⟨insideHere, inside⟩ := List.forall_mem_cons.mp inside
    exact ⟨fitsHere, insideHere, by omega, fits, inside, by omega⟩
  · rintro ⟨fitsHere, insideHere, boundHere, fits, inside, bounded⟩
    refine ⟨List.forall_mem_cons.mpr ⟨fitsHere, fits⟩,
      List.forall_mem_cons.mpr ⟨insideHere, inside⟩, ?_⟩
    rw [hbuilt]
    omega

/-- A step that passes is carried out, and what stands behind it comes next. -/
theorem rebuild_step {base out : Bytes} {expected : UInt32} {op : Op} (rest : List UInt8)
    (fits : op.Fits) (inside : op.Inside base)
    (bound : out.size + (op.output base).length ≤ expected.toNat) :
    rebuild base expected out (op.bytes ++ rest) =
      rebuild base expected (out ++ (op.output base).toArray) rest := by
  have happly : op.apply base out = .ok (out ++ (op.output base).toArray) :=
    Op.apply_eq_ok_iff.mpr ⟨inside, rfl⟩
  rw [rebuild_of_read (Op.read_eq_ok_iff.mpr ⟨fits, rfl⟩), happly]
  simp only [Except.bind]
  rw [if_neg (by simpa using bound)]

/-- Steps that pass are carried out, and what stands behind them comes next. -/
theorem rebuild_passes {base out : Bytes} {expected : UInt32} {ops : List Op} (rest : List UInt8)
    (bound : out.size ≤ expected.toNat) (passes : Passes base (expected.toNat - out.size) ops) :
    rebuild base expected out (ops.flatMap Op.bytes ++ rest) =
      rebuild base expected (out ++ (built base ops).toArray) rest := by
  induction ops generalizing out with
  | nil => simp [built]
  | cons op ops ih =>
    obtain ⟨fits, inside, boundHere, passes⟩ := passes_cons_iff.mp passes
    have hsize : (out ++ (op.output base).toArray).size = out.size + (op.output base).length := by
      simp
    rw [List.flatMap_cons, List.append_assoc, rebuild_step _ fits inside (by omega),
      ih (by omega) (by rw [hsize, ← Nat.sub_sub]; exact passes)]
    simp only [built, List.flatMap_cons, Array.append_assoc, List.append_toArray]

/-- Nothing but steps that pass is rebuilt to what they build. -/
theorem rebuild_whole {base : Bytes} {expected : UInt32} {ops : List Op}
    (passes : Passes base expected.toNat ops) :
    rebuild base expected #[] (ops.flatMap Op.bytes) = .ok (built base ops).toArray := by
  have hsize : (#[] : Bytes).size ≤ expected.toNat := Nat.zero_le _
  have hpassed := rebuild_passes [] hsize passes
  rwa [List.append_nil, Array.empty_append, rebuild] at hpassed

/-- What was rebuilt was built by whole steps that pass. -/
theorem rebuild_eq_ok {base out result : Bytes} {expected : UInt32} {bytes : List UInt8}
    (bound : out.size ≤ expected.toNat) (h : rebuild base expected out bytes = .ok result) :
    ∃ ops, bytes = ops.flatMap Op.bytes ∧ Passes base (expected.toNat - out.size) ops ∧
      result = out ++ (built base ops).toArray := by
  fun_induction rebuild base expected out bytes with
  | case1 out =>
    cases h
    exact ⟨[], rfl, passes_nil .., by simp [built]⟩
  | case2 => cases h
  | case3 => cases h
  | case4 => cases h
  | case5 out code tail op rest hread next happly hshort ih =>
    obtain ⟨fits, hbytes⟩ := Op.read_eq_ok_iff.mp hread
    obtain ⟨inside, rfl⟩ := Op.apply_eq_ok_iff.mp happly
    simp only [Array.size_append, List.size_toArray] at hshort ih
    obtain ⟨ops, rfl, passes, rfl⟩ := ih (by omega) h
    refine ⟨op :: ops, by rw [List.flatMap_cons, hbytes], ?_, ?_⟩
    · rw [← Nat.sub_sub] at passes
      exact passes_cons_iff.mpr ⟨fits, inside, by omega, passes⟩
    · simp only [built, List.flatMap_cons, Array.append_assoc, List.append_toArray]

/-- A refusal on the way names the first step on which a check fails, behind steps that pass. -/
theorem rebuild_eq_error {base out : Bytes} {expected : UInt32} {bytes : List UInt8}
    {e : RecordError} (bound : out.size ≤ expected.toNat)
    (h : rebuild base expected out bytes = .error e) :
    ∃ ops rest, bytes = ops.flatMap Op.bytes ++ rest ∧
      Passes base (expected.toNat - out.size) ops ∧
      BadStep base expected (out.size + (built base ops).length) rest e := by
  fun_induction rebuild base expected out bytes with
  | case1 => cases h
  | case2 out code tail e' hread =>
    cases h
    refine ⟨[], code :: tail, rfl, passes_nil .., ?_⟩
    rcases Op.read_eq_error hread with ⟨known, rfl⟩ | ⟨notCopy, notInsert, rfl⟩
    · refine .truncated known fun op fits more hbytes => ?_
      rw [Op.read_eq_ok_iff.mpr ⟨fits, hbytes⟩] at hread
      cases hread
    · exact .unknownOp notCopy notInsert
  | case3 out code tail op rest hread e' happly =>
    cases h
    obtain ⟨-, hbytes⟩ := Op.read_eq_ok_iff.mp hread
    obtain ⟨offset, length, rfl, outside, rfl⟩ := Op.apply_eq_error happly
    refine ⟨[], code :: tail, rfl, passes_nil .., ?_⟩
    rw [hbytes]
    exact .outOfRange outside
  | case4 out code tail op rest hread next happly hlong =>
    cases h
    obtain ⟨fits, hbytes⟩ := Op.read_eq_ok_iff.mp hread
    obtain ⟨inside, rfl⟩ := Op.apply_eq_ok_iff.mp happly
    refine ⟨[], code :: tail, rfl, passes_nil .., ?_⟩
    rw [hbytes]
    simp only [Array.size_append, List.size_toArray] at hlong ⊢
    exact .overrun fits inside hlong
  | case5 out code tail op rest hread next happly hshort ih =>
    obtain ⟨fits, hbytes⟩ := Op.read_eq_ok_iff.mp hread
    obtain ⟨inside, rfl⟩ := Op.apply_eq_ok_iff.mp happly
    simp only [Array.size_append, List.size_toArray] at hshort ih
    obtain ⟨ops, rest, rfl, passes, bad⟩ := ih (by omega) h
    refine ⟨op :: ops, rest, by rw [List.flatMap_cons, List.append_assoc, hbytes], ?_, ?_⟩
    · rw [← Nat.sub_sub] at passes
      exact passes_cons_iff.mpr ⟨fits, inside, by omega, passes⟩
    · simpa only [built, List.flatMap_cons, List.length_append, Nat.add_assoc] using bad

/-- On a step on which a check fails, nothing is rebuilt. -/
theorem BadStep.rebuild_eq {base out : Bytes} {expected : UInt32} {rest : List UInt8}
    {e : RecordError} (h : BadStep base expected out.size rest e) :
    rebuild base expected out rest = .error e := by
  cases h with
  | truncated known cut => exact rebuild_of_read_error (Op.read_truncated known cut)
  | unknownOp notCopy notInsert =>
    refine rebuild_of_read_error ?_
    simp only [Op.read, notCopy, notInsert, if_false]
  | @outOfRange offset length rest outside =>
    have fits : (Op.copy offset length).Fits := trivial
    rw [rebuild_of_read (Op.read_eq_ok_iff.mpr ⟨fits, rfl⟩)]
    simp only [Op.Inside] at outside
    simp only [Op.apply, outside, if_false, Except.bind]
  | overrun fits inside long =>
    rw [rebuild_of_read (Op.read_eq_ok_iff.mpr ⟨fits, rfl⟩),
      Op.apply_eq_ok_iff.mpr ⟨inside, rfl⟩]
    simp only [Except.bind, Array.size_append, List.size_toArray, long, if_true]

/-! ## The whole record -/

theorem isKeyframe_ofWire (wire : UInt16) : (Tag.ofWire wire).isKeyframe = decide (wire = 0) := by
  have htag : (Tag.ofWire wire).toWire = wire := Tag.ofWire_toWire (.back wire)
  simp only [Tag.isKeyframe, htag]

/-- Behind the fixed part, the steps are carried out on the base that the tag calls for, and then
the length and the checksum of the whole are looked at. -/
theorem decode_of_layout {base record : Bytes} {wire : UInt16} {length crc : UInt32}
    {body : List UInt8} (h : record.toList = layout wire length crc body) :
    decode base record =
      (rebuild (effectiveBase wire base) length #[] body).bind fun out =>
        if out.size ≠ length.toNat then .error (.lengthMismatch length out.size)
        else if checksum out ≠ crc then .error .checksumMismatch
        else .ok out := by
  unfold decode effectiveBase
  rw [h, Header.read_layout]
  simp only [isKeyframe_ofWire, decide_eq_true_eq]
  cases rebuild (if wire = 0 then #[] else base) length #[] body <;> rfl

/-- The records that are decoded are the well-formed ones. -/
theorem decode_eq_ok_iff {base record target : Bytes} :
    decode base record = .ok target ↔ WellFormed base record target := by
  constructor
  · intro h
    cases hread : Header.read record.toList with
    | error e => simp [decode, hread] at h
    | ok found =>
      obtain ⟨header, body⟩ := found
      obtain ⟨wire, -, hrecord⟩ := Header.read_eq_ok hread
      rw [decode_of_layout hrecord] at h
      cases hbuild : rebuild (effectiveBase wire base) header.targetLength #[] body with
      | error e => simp [hbuild, Except.bind] at h
      | ok out =>
        simp only [hbuild, Except.bind] at h
        split at h
        · cases h
        · rename_i hsize
          split at h
          · cases h
          · rename_i hcrc
            cases h
            obtain ⟨ops, rfl, passes, rfl⟩ := rebuild_eq_ok (Nat.zero_le _) hbuild
            simp only [ne_eq, Decidable.not_not] at hsize hcrc
            refine ⟨wire, header.targetLength, ops, ?_, hsize.symm, passes.fits, passes.inside, ?_⟩
            · rw [hcrc]
              exact hrecord
            · simp
  · rintro ⟨wire, length, ops, hrecord, hlength, fits, inside, htarget⟩
    have passes : Passes (effectiveBase wire base) length.toNat ops :=
      ⟨fits, inside, Nat.le_of_eq (by rw [htarget, hlength, Array.length_toList])⟩
    rw [decode_of_layout hrecord, rebuild_whole passes, htarget, Array.toArray_toList]
    simp [Except.bind, hlength]

/-- The first check that fails on a record is what the decoder answers. -/
theorem FirstViolation.decode_eq {base record : Bytes} {e : RecordError}
    (h : FirstViolation base record e) : decode base record = .error e := by
  cases h with
  | short hshort =>
    have hread := Header.read_eq_error_iff.mpr (.inl ⟨hshort, rfl⟩)
    simp only [decode, hread]
  | magic hlong other =>
    have hread := Header.read_eq_error_iff.mpr (.inr ⟨hlong, other, rfl⟩)
    simp only [decode, hread]
  | step hrecord passes bad =>
    rw [decode_of_layout hrecord, rebuild_passes _ (Nat.zero_le _) passes]
    rw [BadStep.rebuild_eq (by simpa using bad)]
    rfl
  | length hrecord passes other =>
    rw [decode_of_layout hrecord, rebuild_whole passes]
    simp [Except.bind, other]
  | checksum hrecord passes whole other =>
    rw [decode_of_layout hrecord, rebuild_whole passes]
    simp [Except.bind, whole, other]

/-- A refusal names the first check that fails. -/
theorem firstViolation_of_decode {base record : Bytes} {e : RecordError}
    (h : decode base record = .error e) : FirstViolation base record e := by
  cases hread : Header.read record.toList with
  | error e' =>
    simp only [decode, hread] at h
    cases h
    rcases Header.read_eq_error_iff.mp hread with ⟨hshort, rfl⟩ | ⟨hlong, other, rfl⟩
    · exact .short hshort
    · exact .magic hlong other
  | ok found =>
    obtain ⟨header, body⟩ := found
    obtain ⟨wire, -, hrecord⟩ := Header.read_eq_ok hread
    rw [decode_of_layout hrecord] at h
    cases hbuild : rebuild (effectiveBase wire base) header.targetLength #[] body with
    | error e' =>
      simp only [hbuild, Except.bind] at h
      cases h
      obtain ⟨ops, rest, rfl, passes, bad⟩ := rebuild_eq_error (Nat.zero_le _) hbuild
      simp only [List.size_toArray, List.length_nil, Nat.zero_add] at bad
      exact .step hrecord passes bad
    | ok out =>
      obtain ⟨ops, rfl, passes, rfl⟩ := rebuild_eq_ok (Nat.zero_le _) hbuild
      simp only [hbuild, Except.bind, Array.empty_append, List.size_toArray] at h
      split at h
      · rename_i hsize
        cases h
        exact .length hrecord passes hsize
      · rename_i hsize
        split at h
        · rename_i hcrc
          cases h
          exact .checksum hrecord passes (Decidable.not_not.mp hsize) hcrc
        · cases h

/-- Exactly the well-formed records of a target are decoded to it; every other byte string is
refused with the first check that fails on it; and on no input does an access of the decoder
leave the bytes that are there. -/
theorem decode_verdict (base record : Bytes) :
    (∀ target, decode base record = .ok target ↔ WellFormed base record target) ∧
    (∀ e, decode base record = .error e ↔ FirstViolation base record e) ∧
    decodeSliced base record = some (decode base record) :=
  ⟨fun _ => decode_eq_ok_iff, fun _ => ⟨firstViolation_of_decode, FirstViolation.decode_eq⟩,
    decodeSliced_eq base record⟩

end Record

end VersionChain
