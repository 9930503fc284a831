import VersionChain.Fingerprint

/-!
# Group keys

A group key is a value of one of a few column types. Two keys name the same group when
their canonical bytes agree; how a value was stored (in the row, compressed, or out of
line) does not matter. Values stored indirectly are resolved first, and that is the only
step that can fail.
-/

namespace VersionChain

/-- A value of variable length as the row storage hands it over. -/
inductive Stored where
  /-- The bytes themselves. -/
  | inRow (bytes : Bytes)
  /-- The bytes in a compressed form that the row storage understands. -/
  | compressed (payload : Bytes)
  /-- A reference to a value kept elsewhere, with its recorded length. -/
  | outOfLine (valueId : Nat) (length : UInt32)
  deriving DecidableEq, Repr

/-- A value of a group column. Floats are given by their bits. -/
inductive Key where
  | null
  | bool (value : Bool)
  | int16 (value : Int16)
  | int32 (value : Int32)
  | int64 (value : Int64)
  | float64 (bits : UInt64)
  | uuid (digits : Vector UInt8 16)
  | text (value : String)
  | bytes (value : Bytes)
  | varying (value : Stored)
  deriving DecidableEq

/-- What went wrong while a key was being resolved. -/
inductive KeyError where
  /-- The row storage could not resolve the value, for the given reason. -/
  | unresolved (reason : String)
  /-- The resolved value is not as long as recorded. -/
  | lengthMismatch (expected : UInt32) (actual : Nat)
  deriving DecidableEq, Repr

namespace KeyError

/-- Wording of a key error. -/
def message : KeyError → String
  | unresolved reason => s!"failed to resolve group key: {reason}"
  | lengthMismatch expected actual =>
    s!"out-of-line group key length mismatch: expected {expected}, got {actual}"

/-- The wording with the cause it quotes repeated behind it, as for an error shown with all
that led to it. -/
def chain : KeyError → String
  | unresolved reason => s!"{message (unresolved reason)}: {reason}"
  | e => e.message

end KeyError

/-- How the row storage resolves values that are not in the row; a failure is a reason. -/
structure Unpacker where
  decompress : Bytes → Except String Bytes
  fetch : (valueId : Nat) → (length : UInt32) → Except String Bytes

/-- For storage whose keys are always in the row. -/
def Unpacker.inRowOnly : Unpacker where
  decompress _ := .error "compressed group keys are not supported"
  fetch _ _ := .error "out-of-line group keys are not supported"

/-- The bits of a float with both zeros taken to the positive one and every NaN to the
quiet one. -/
def canonicalFloat (bits : UInt64) : UInt64 :=
  if bits &&& 0x7FFFFFFFFFFFFFFF > 0x7FF0000000000000 then 0x7FF8000000000000
  else if bits &&& 0x7FFFFFFFFFFFFFFF = 0 then 0
  else bits

/-- The bytes of a stored value, resolved if need be. -/
def Stored.resolve (u : Unpacker) : Stored → Except KeyError Bytes
  | inRow bytes => .ok bytes
  | compressed payload => (u.decompress payload).mapError .unresolved
  | outOfLine valueId length => do
    let bytes ← (u.fetch valueId length).mapError .unresolved
    if bytes.size = length.toNat then .ok bytes else .error (.lengthMismatch length bytes.size)

namespace Key

/-- The canonical bytes of a key; `none` for the null key, which has none. -/
def canonical (u : Unpacker) : Key → Except KeyError (Option Bytes)
  | null => .ok none
  | bool value => .ok (some #[if value then 1 else 0])
  | int16 value => .ok (some (littleEndian 2 value.toUInt16.toNat).toArray)
  | int32 value => .ok (some (littleEndian 4 value.toUInt32.toNat).toArray)
  | int64 value => .ok (some (littleEndian 8 value.toUInt64.toNat).toArray)
  | float64 bits => .ok (some (littleEndian 8 (canonicalFloat bits).toNat).toArray)
  | uuid digits => .ok (some digits.toArray)
  | text value => .ok (some (utf8 value))
  | bytes value => .ok (some value)
  | varying value => (value.resolve u).map some

/-- The fingerprint of the group that a key names. -/
def fingerprint (u : Unpacker) (key : Key) : Except KeyError Fingerprint :=
  (key.canonical u).map fun
    | none => .zero
    | some content => .ofBytes content

end Key

end VersionChain
