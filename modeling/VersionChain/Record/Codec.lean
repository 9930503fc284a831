import VersionChain.Checksum
import VersionChain.Record.Wire

/-!
# Codecs

A codec turns a target and a base into a record, and a record and its base back into the
target. It may refuse to encode, and an encoder that breaks down is told apart from one
that refuses. Everything above this module works with any codec; the rebuilding of a
target from the layout of `Record.Wire` stands here too.
-/

namespace VersionChain

/-- What comes out of an attempt to encode. -/
inductive Encoded where
  | record (bytes : Bytes)
  /-- The codec does not encode this candidate. -/
  | refused
  /-- The codec broke down on this candidate. -/
  | crashed
  deriving DecidableEq, Repr, Inhabited

/-- The record, if there is one. -/
def Encoded.record? : Encoded → Option Bytes
  | record bytes => some bytes
  | _ => none

/-- A compressor of contents against earlier contents. -/
structure Codec where
  /-- A record of `target` against `base` under a tag. A keyframe disregards the base. -/
  encode : (tag : Tag) → (base target : Bytes) → (extraPass : Bool) → Encoded
  /-- The target rebuilt from a record and its base. -/
  decode : (base record : Bytes) → Except RecordError Bytes
  /-- The tag a record was written under. -/
  tagOf : (record : Bytes) → Except RecordError Tag

namespace Record

/-- The bytes of a record. -/
def write (header : Header) (ops : List Op) : Bytes :=
  (header.bytes ++ ops.flatMap Op.bytes).toArray

/-- The tag of a record. -/
def tagOf (record : Bytes) : Except RecordError Tag :=
  (Header.read record.toList).map fun (header, _) => header.tag

/-- Carries out the steps written in `bytes` one at a time behind `out`, as long as no more
than `expected` bytes have been built. -/
def rebuild (base : Bytes) (expected : UInt32) (out : Bytes) (bytes : List UInt8) :
    Except RecordError Bytes :=
  match bytes with
  | [] => .ok out
  | code :: tail =>
    match _h : Op.read (code :: tail) with
    | .error e => .error e
    | .ok (op, rest) =>
      match op.apply base out with
      | .error e => .error e
      | .ok out =>
        if expected.toNat < out.size then .error (.lengthMismatch expected out.size)
        else rebuild base expected out rest
  termination_by bytes.length
  decreasing_by exact Op.length_lt_of_read _h

/-- Rebuilds the target of a record. The header is looked at first, then each step in turn,
then the length of the whole and last its checksum. -/
def decode (base record : Bytes) : Except RecordError Bytes :=
  match Header.read record.toList with
  | .error e => .error e
  | .ok (header, steps) =>
    let base := if header.tag.isKeyframe then #[] else base
    match rebuild base header.targetLength #[] steps with
    | .error e => .error e
    | .ok out =>
      if out.size ≠ header.targetLength.toNat then
        .error (.lengthMismatch header.targetLength out.size)
      else if checksum out ≠ header.crc then .error .checksumMismatch
      else .ok out

end Record

end VersionChain
