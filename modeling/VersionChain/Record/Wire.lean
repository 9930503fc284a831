import VersionChain.Record.Op
import VersionChain.Record.Tag
import VersionChain.Text.Hex

/-!
# Layout of a delta record

A record is the byte `0xD7`, the tag in two bytes, the length of the target and its
checksum in four bytes each, and then the steps one after the other:

* copy: the byte `0x01`, the offset and the length in four bytes each;
* insert: the byte `0x02`, the length in four bytes, the bytes.

All numbers are little-endian.
-/

namespace VersionChain

/-- Wording of a record error. -/
def RecordError.message : RecordError → String
  | truncated => "delta record truncated"
  | badMagic found => s!"bad delta magic: {Hex.markedByte found}"
  | unknownOp code => s!"unknown delta op: {Hex.markedByte code}"
  | copyOutOfRange offset length baseLength =>
    s!"copy [{offset}, +{length}) outside base of {baseLength} bytes"
  | lengthMismatch expected actual =>
    s!"reconstructed {actual} bytes, header says {expected}"
  | checksumMismatch => "content checksum mismatch"

/-- The first byte of every record. -/
def recordMagic : UInt8 := 0xD7

/-- The byte that introduces a copy step. -/
def copyCode : UInt8 := 0x01

/-- The byte that introduces an insert step. -/
def insertCode : UInt8 := 0x02

/-- The fixed part at the start of a record. -/
structure Header where
  tag : Tag
  targetLength : UInt32
  crc : UInt32
  deriving DecidableEq, Repr

namespace Header

/-- Length of the fixed part. -/
def size : Nat := 1 + 2 + 4 + 4

/-- The bytes of a header. -/
def bytes (h : Header) : List UInt8 :=
  recordMagic :: (littleEndian 2 h.tag.toWire.toNat ++
    littleEndian 4 h.targetLength.toNat ++ littleEndian 4 h.crc.toNat)

@[simp] theorem length_bytes (h : Header) : h.bytes.length = size := by
  simp [bytes, size]

/-- Reads the header of a record and returns it with the bytes behind it. -/
def read (record : List UInt8) : Except RecordError (Header × List UInt8) :=
  match splitExact? size record with
  | none => .error .truncated
  | some (front, rest) =>
    if front.headD 0 = recordMagic then
      .ok ({ tag := .ofWire (.ofNat (ofLittleEndian (front.extract 1 3)))
             targetLength := .ofNat (ofLittleEndian (front.extract 3 7))
             crc := .ofNat (ofLittleEndian (front.extract 7 11)) }, rest)
    else .error (.badMagic (front.headD 0))

end Header

namespace Op

/-- The bytes of a step. -/
def bytes : Op → List UInt8
  | copy offset length =>
    copyCode :: (littleEndian 4 offset.toNat ++ littleEndian 4 length.toNat)
  | insert content => insertCode :: (littleEndian 4 content.size ++ content.toList)

/-- Number of bytes of a step. -/
def size : Op → Nat
  | copy .. => 1 + 4 + 4
  | insert content => 1 + 4 + content.size

@[simp] theorem length_bytes (op : Op) : op.bytes.length = op.size := by
  cases op with
  | copy => simp [bytes, size]
  | insert =>
    simp only [bytes, size, List.length_cons, List.length_append, length_littleEndian,
      Array.length_toList]
    omega

/-- Reads a four-byte number. -/
def readNumber (bytes : List UInt8) : Except RecordError (Nat × List UInt8) :=
  match splitExact? 4 bytes with
  | none => .error .truncated
  | some (front, rest) => .ok (ofLittleEndian front, rest)

/-- Reads the operands of a copy step. -/
def readCopy (bytes : List UInt8) : Except RecordError (Op × List UInt8) :=
  match readNumber bytes with
  | .error e => .error e
  | .ok (offset, rest) =>
    match readNumber rest with
    | .error e => .error e
    | .ok (length, rest) => .ok (copy (.ofNat offset) (.ofNat length), rest)

/-- Reads the operand of an insert step. -/
def readInsert (bytes : List UInt8) : Except RecordError (Op × List UInt8) :=
  match readNumber bytes with
  | .error e => .error e
  | .ok (length, rest) =>
    match splitExact? length rest with
    | none => .error .truncated
    | some (content, rest) => .ok (insert content.toArray, rest)

/-- Reads one step and returns it with the bytes behind it. -/
def read : List UInt8 → Except RecordError (Op × List UInt8)
  | [] => .error .truncated
  | code :: rest =>
    if code = copyCode then readCopy rest
    else if code = insertCode then readInsert rest
    else .error (.unknownOp code)

theorem readNumber_length {bytes rest : List UInt8} {n : Nat}
    (h : readNumber bytes = .ok (n, rest)) : bytes.length = rest.length + 4 := by
  simp only [readNumber] at h
  split at h
  · simp at h
  · rename_i hsplit
    obtain ⟨rfl, hlen⟩ := splitExact?_eq_some hsplit
    simp only [Except.ok.injEq, Prod.mk.injEq] at h
    obtain ⟨-, rfl⟩ := h
    simp only [List.length_append]
    omega

/-- Reading a step uses up bytes. -/
theorem length_lt_of_read {bytes rest : List UInt8} {op : Op}
    (h : read bytes = .ok (op, rest)) : rest.length < bytes.length := by
  match bytes with
  | [] => simp [read] at h
  | code :: tail =>
    suffices rest.length ≤ tail.length by simp; omega
    simp only [read] at h
    split at h
    · simp only [readCopy] at h
      split at h
      · simp at h
      · rename_i h₁
        split at h
        · simp at h
        · rename_i h₂
          have := readNumber_length h₁
          have := readNumber_length h₂
          simp only [Except.ok.injEq, Prod.mk.injEq] at h
          obtain ⟨-, rfl⟩ := h
          omega
    · split at h
      · simp only [readInsert] at h
        split at h
        · simp at h
        · rename_i h₁
          split at h
          · simp at h
          · rename_i h₂
            have := readNumber_length h₁
            obtain ⟨rfl, -⟩ := splitExact?_eq_some h₂
            simp only [Except.ok.injEq, Prod.mk.injEq] at h
            obtain ⟨-, rfl⟩ := h
            simp at this
            omega
      · simp at h

/-- Reads steps up to the end of the bytes, or up to the first that cannot be read. -/
def readAll (bytes : List UInt8) : List Op × Option RecordError :=
  match bytes with
  | [] => ([], none)
  | code :: tail =>
    match _h : read (code :: tail) with
    | .error e => ([], some e)
    | .ok (op, rest) =>
      let (ops, stop) := readAll rest
      (op :: ops, stop)
  termination_by bytes.length
  decreasing_by exact length_lt_of_read _h

/-- Steps that are read one at a time, as they are asked for. -/
structure Reader where
  /-- The bytes that have not been read. -/
  rest : List UInt8
  deriving DecidableEq, Repr

/-- The next step, or why it cannot be read; none at the end of the bytes. Behind a step that
cannot be read there is nothing. -/
def Reader.next (r : Reader) : Option (Except RecordError Op) × Reader :=
  match r.rest with
  | [] => (none, r)
  | code :: tail =>
    match read (code :: tail) with
    | .error e => (some (.error e), ⟨[]⟩)
    | .ok (op, rest) => (some (.ok op), ⟨rest⟩)

end Op

end VersionChain
