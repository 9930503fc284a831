import VersionChain.Bytes

/-!
# Reconstruction steps

The body of a delta record is a list of steps that build the target from left to right:
copy a run of the base, or append bytes that the record itself carries. A step that
reaches outside the base is refused.
-/

namespace VersionChain

/-- What makes a stored record unusable. -/
inductive RecordError where
  /-- The record ends inside its header or inside a step. -/
  | truncated
  | badMagic (found : UInt8)
  | unknownOp (code : UInt8)
  | copyOutOfRange (offset length : UInt32) (baseLength : Nat)
  | lengthMismatch (expected : UInt32) (actual : Nat)
  | checksumMismatch
  deriving DecidableEq, Repr

/-- One reconstruction step. -/
inductive Op where
  /-- Append `length` bytes of the base from `offset` on. -/
  | copy (offset length : UInt32)
  /-- Append these bytes. -/
  | insert (bytes : Bytes)
  deriving DecidableEq, Repr

namespace Op

/-- Carries out a step: what it appends goes behind `out`. -/
def apply (base out : Bytes) : Op → Except RecordError Bytes
  | copy offset length =>
    if offset.toNat + length.toNat ≤ base.size then
      .ok (out ++ base.extract offset.toNat (offset.toNat + length.toNat))
    else .error (.copyOutOfRange offset length base.size)
  | insert bytes => .ok (out ++ bytes)

/-- Carries out steps from left to right. -/
def applyAll (base out : Bytes) : List Op → Except RecordError Bytes
  | [] => .ok out
  | op :: ops => do applyAll base (← op.apply base out) ops

end Op

end VersionChain
