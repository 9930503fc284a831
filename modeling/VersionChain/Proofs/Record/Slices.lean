import VersionChain.Proofs.Record.Layout

/-!
# Accesses of the decoder

The decoder with every stretch of bytes that it cuts out made an access of its own, which faults
if there is no such stretch: the run of the base that a copy appends, and the bytes that an
insert carries. A field of a number is read by a reader that answers for itself that the bytes
end too early, so nothing can fault there.

* `Record.decodeSliced_eq` — on no base and no record does the decoder fault.
-/

namespace VersionChain

/-- The bytes from `start` up to `stop`. There are none such, a fault, unless
`start ≤ stop ≤ b.size`. -/
def Bytes.slice? (b : Bytes) (start stop : Nat) : Option Bytes :=
  if start ≤ stop ∧ stop ≤ b.size then some (b.extract start stop) else none

/-- The bytes up to `n` and those from `n` on. There are none such, a fault, unless there are `n`
bytes. -/
def cutAt? (n : Nat) (bytes : List UInt8) : Option (List UInt8 × List UInt8) :=
  if n ≤ bytes.length then some (bytes.take n, bytes.drop n) else none

namespace Op

/-- Carries out a step, with the run of the base as an access. -/
def applySliced (base out : Bytes) : Op → Option (Except RecordError Bytes)
  | copy offset length =>
    let stop := offset.toNat + length.toNat
    if stop ≤ base.size then
      match base.slice? offset.toNat stop with
      | none => none
      | some run => some (.ok (out ++ run))
    else some (.error (.copyOutOfRange offset length base.size))
  | insert bytes => some (.ok (out ++ bytes))

/-- Reads the operand of an insert step, with the bytes that it carries as an access. -/
def readInsertSliced (bytes : List UInt8) : Option (Except RecordError (Op × List UInt8)) :=
  match readNumber bytes with
  | .error e => some (.error e)
  | .ok (length, rest) =>
    if rest.length < length then some (.error .truncated)
    else
      match cutAt? length rest with
      | none => none
      | some (content, rest) => some (.ok (insert content.toArray, rest))

/-- Reads one step, with the bytes that it carries as an access. -/
def readSliced : List UInt8 → Option (Except RecordError (Op × List UInt8))
  | [] => some (.error .truncated)
  | code :: rest =>
    if code = copyCode then some (readCopy rest)
    else if code = insertCode then readInsertSliced rest
    else some (.error (.unknownOp code))

/-- A copy cuts out what the check before it has found to be there. -/
theorem applySliced_eq (base out : Bytes) (op : Op) :
    op.applySliced base out = some (op.apply base out) := by
  cases op with
  | copy offset length =>
    by_cases hinside : offset.toNat + length.toNat ≤ base.size
    · have hslice : base.slice? offset.toNat (offset.toNat + length.toNat) =
          some (base.extract offset.toNat (offset.toNat + length.toNat)) :=
        if_pos ⟨Nat.le_add_right _ _, hinside⟩
      simp only [applySliced, apply, hinside, if_true, hslice]
    · simp only [applySliced, apply, hinside, if_false]
  | insert bytes => rfl

/-- An insert cuts off what the check before it has found to be there. -/
theorem readInsertSliced_eq (bytes : List UInt8) :
    readInsertSliced bytes = some (readInsert bytes) := by
  unfold readInsertSliced readInsert
  cases readNumber bytes with
  | error e => rfl
  | ok number =>
    obtain ⟨length, rest⟩ := number
    by_cases hshort : rest.length < length
    · simp only [hshort, if_true, splitExact?_eq_none_iff.mpr hshort]
    · have hlength : length ≤ rest.length := Nat.le_of_not_lt hshort
      have hcut : cutAt? length rest = some (rest.take length, rest.drop length) := if_pos hlength
      have hsplit : splitExact? length rest = some (rest.take length, rest.drop length) :=
        if_pos (List.length_take_of_le hlength)
      simp only [hshort, if_false, hcut, hsplit]

theorem readSliced_eq (bytes : List UInt8) : readSliced bytes = some (read bytes) := by
  cases bytes with
  | nil => rfl
  | cons code rest =>
    simp only [readSliced, read, readInsertSliced_eq]
    split
    · rfl
    · split <;> rfl

end Op

namespace Record

/-- Carries out the steps written in `bytes`, each with its accesses. -/
def rebuildSliced (base : Bytes) (expected : UInt32) (out : Bytes) (bytes : List UInt8) :
    Option (Except RecordError Bytes) :=
  match bytes with
  | [] => some (.ok out)
  | code :: tail =>
    match _h : Op.readSliced (code :: tail) with
    | none => none
    | some (.error e) => some (.error e)
    | some (.ok (op, rest)) =>
      match op.applySliced base out with
      | none => none
      | some (.error e) => some (.error e)
      | some (.ok out) =>
        if expected.toNat < out.size then some (.error (.lengthMismatch expected out.size))
        else rebuildSliced base expected out rest
  termination_by bytes.length
  decreasing_by
    rw [Op.readSliced_eq] at _h
    exact Op.length_lt_of_read (Option.some.inj _h)

/-- Rebuilds the target of a record, each step with its accesses. -/
def decodeSliced (base record : Bytes) : Option (Except RecordError Bytes) :=
  match Header.read record.toList with
  | .error e => some (.error e)
  | .ok (header, steps) =>
    let base := if header.tag.isKeyframe then #[] else base
    match rebuildSliced base header.targetLength #[] steps with
    | none => none
    | some (.error e) => some (.error e)
    | some (.ok out) =>
      if out.size ≠ header.targetLength.toNat then
        some (.error (.lengthMismatch header.targetLength out.size))
      else if checksum out ≠ header.crc then some (.error .checksumMismatch)
      else some (.ok out)

theorem rebuildSliced_eq (base : Bytes) (expected : UInt32) (out : Bytes) (bytes : List UInt8) :
    rebuildSliced base expected out bytes = some (rebuild base expected out bytes) := by
  fun_induction rebuildSliced base expected out bytes with
  | case1 out => rw [rebuild]
  | case2 out code tail hread =>
    rw [Op.readSliced_eq] at hread
    cases hread
  | case3 out code tail e hread =>
    rw [Op.readSliced_eq] at hread
    rw [rebuild_of_read_error (Option.some.inj hread)]
  | case4 out code tail op rest hread happly =>
    rw [Op.applySliced_eq] at happly
    cases happly
  | case5 out code tail op rest hread e happly =>
    rw [Op.readSliced_eq] at hread
    rw [Op.applySliced_eq] at happly
    rw [rebuild_of_read (Option.some.inj hread), Option.some.inj happly]
    rfl
  | case6 out code tail op rest hread next happly hlong =>
    rw [Op.readSliced_eq] at hread
    rw [Op.applySliced_eq] at happly
    rw [rebuild_of_read (Option.some.inj hread), Option.some.inj happly]
    exact congrArg some (if_pos hlong).symm
  | case7 out code tail op rest hread next happly hshort ih =>
    rw [Op.readSliced_eq] at hread
    rw [Op.applySliced_eq] at happly
    rw [ih, rebuild_of_read (Option.some.inj hread), Option.some.inj happly]
    exact congrArg some (if_neg hshort).symm

/-- Every access of the decoder is to bytes that are there. -/
theorem decodeSliced_eq (base record : Bytes) :
    decodeSliced base record = some (decode base record) := by
  unfold decodeSliced decode
  cases Header.read record.toList with
  | error e => rfl
  | ok found =>
    obtain ⟨header, steps⟩ := found
    simp only [rebuildSliced_eq]
    cases rebuild (if header.tag.isKeyframe then #[] else base) header.targetLength #[] steps with
    | error e => rfl
    | ok out => simp only [apply_ite some]

end Record

end VersionChain
