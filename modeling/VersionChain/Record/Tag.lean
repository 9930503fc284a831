import VersionChain.Fingerprint

/-!
# Tags

Every delta record says against which version it was written: against none (a keyframe),
or against the version a number of steps back. Tags are ordered with keyframes first and
then by distance, so that among records of one size the one with the shorter way back
comes first.

* `baseSeq_lt` — a base is always an earlier version, and never version 0.
-/

namespace VersionChain

/-- What a delta record was written against. -/
inductive Tag where
  /-- Nothing: the record holds the whole content. -/
  | keyframe
  /-- The version `distance` steps back. -/
  | back (distance : UInt16)
  deriving DecidableEq, Repr, Inhabited, Hashable

namespace Tag

/-- A tag for a distance, which has to be positive. -/
def ofDistance? (distance : UInt16) : Option Tag :=
  if distance = 0 then none else some (back distance)

/-- The tag written as a 16-bit number. -/
def ofWire (n : UInt16) : Tag := if n = 0 then keyframe else back n

/-- The 16-bit number by which a tag is written. -/
def toWire : Tag → UInt16
  | keyframe => 0
  | back n => n

/-- Whether a record under this tag stands on its own. -/
def isKeyframe (tag : Tag) : Bool := tag.toWire = 0

/-- Number of the version that the record of version `seq` was written against. There is
none for a keyframe, nor when the distance reaches below version 1. -/
def baseSeq (tag : Tag) (seq : Nat) : Option Nat :=
  let distance := tag.toWire.toNat
  if distance = 0 ∨ seq ≤ distance then none else some (seq - distance)

theorem baseSeq_lt {tag : Tag} {seq base : Nat} (h : tag.baseSeq seq = some base) :
    base < seq ∧ 1 ≤ base := by
  simp only [baseSeq] at h
  split at h
  · simp at h
  · simp only [Option.some.injEq] at h
    omega

theorem ofWire_toWire (tag : Tag) : (ofWire tag.toWire).toWire = tag.toWire := by
  cases tag with
  | keyframe => rfl
  | back n => by_cases h : n = 0 <;> simp [ofWire, toWire, h]

/-- Rank in the order of tags: keyframes, then distances from 0 on. -/
def rank : Tag → Nat
  | keyframe => 0
  | back n => n.toNat + 1

theorem rank_injective {a b : Tag} (h : a.rank = b.rank) : a = b := by
  cases a with
  | keyframe =>
    cases b with
    | keyframe => rfl
    | back n => nomatch h
  | back m =>
    cases b with
    | keyframe => nomatch h
    | back n => rw [UInt16.toNat_inj.mp (Nat.succ.inj h)]

/-- Order by rank. -/
def compare (a b : Tag) : Ordering := Ord.compare a.rank b.rank

/-- A tag as it is shown. -/
def display : Tag → String
  | keyframe => "KEYFRAME"
  | back n => s!"-{n}"

end Tag

end VersionChain
