import VersionChain.Digest.Wide
import VersionChain.Text.Hex

/-!
# Group fingerprints

Rows of a table fall into groups, and a group is known everywhere by a 128-bit
fingerprint of its key. The zero fingerprint belongs to the group without a key; a
digest that happens to be zero is moved aside, so no other group ever gets it.
-/

namespace VersionChain

/-- Number of a table. -/
abbrev TableId := UInt32

/-- 128-bit fingerprint of a group key, ordered by its high word first. -/
@[ext] structure Fingerprint where
  high : UInt64
  low : UInt64
  deriving DecidableEq, Hashable, Repr, Inhabited

namespace Fingerprint

/-- The fingerprint of the group without a key. -/
def zero : Fingerprint := ⟨0, 0⟩

/-- How many numbers a 64-bit word can hold. -/
def wordRange : Nat := 0x10000000000000000

/-- The fingerprint whose value as a 128-bit number is `n`. -/
def ofNat (n : Nat) : Fingerprint := ⟨UInt64.ofNat (n / wordRange), UInt64.ofNat n⟩

/-- The value as a 128-bit number. -/
def toNat (f : Fingerprint) : Nat := f.high.toNat * wordRange + f.low.toNat

/-- Whether this is the fingerprint of the group without a key. -/
def isZero (f : Fingerprint) : Bool := f.high = 0 ∧ f.low = 0

/-- The fingerprint of a group whose key has these canonical bytes. -/
def ofBytes (bytes : Bytes) : Fingerprint :=
  let digest := Digest.wide bytes
  if digest.high = 0 ∧ digest.low = 0 then ⟨0, 1⟩ else ⟨digest.high, digest.low⟩

/-- The 32 hexadecimal digits of a fingerprint. -/
def display (f : Fingerprint) : String :=
  Hex.padded 16 f.high.toNat ++ Hex.padded 16 f.low.toNat

/-- The digits with the name of the type around them. -/
def describe (f : Fingerprint) : String := "GroupHash(" ++ f.display ++ ")"

/-- Order by high word, then by low word. -/
def compare (a b : Fingerprint) : Ordering :=
  (Ord.compare a.high b.high).then (Ord.compare a.low b.low)

end Fingerprint

/-- Name of the advisory lock that the writers of one group of a table share. -/
def lockId (table : TableId) (group : Fingerprint) : UInt64 :=
  group.high ^^^ group.low ^^^ table.toUInt64

end VersionChain
