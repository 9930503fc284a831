import Std.Data.HashMap
import VersionChain.Cache.Location
import VersionChain.Record.Tag

/-!
# Group statistics

Every insert adds to the statistics of its group. Statistics of several inserts can be
gathered first and then merged into the published ones; it makes no difference to the sums
in which portions they arrive.
-/

namespace VersionChain

/-- What an insert stored. -/
structure Outcome where
  group : Fingerprint
  seq : Nat
  location : Location
  /-- The tag of the record in each column. -/
  tags : List Tag
  /-- Bytes in all columns. -/
  rawBytes : Nat
  /-- Bytes in all records. -/
  storedBytes : Nat
  deriving DecidableEq, Repr, Inhabited

/-- How many columns were stored as keyframes. -/
def Outcome.keyframes (o : Outcome) : Nat := o.tags.countP Tag.isKeyframe

/-- Running totals of a group. -/
structure GroupStats where
  rows : Nat := 0
  keyframes : Nat := 0
  rawBytes : Nat := 0
  storedBytes : Nat := 0
  maxSeq : Nat := 0
  deriving DecidableEq, Repr, Inhabited

namespace GroupStats

/-- Counts one more insert. -/
def add (totals : GroupStats) (o : Outcome) : GroupStats where
  rows := totals.rows + 1
  keyframes := totals.keyframes + o.keyframes
  rawBytes := totals.rawBytes + o.rawBytes
  storedBytes := totals.storedBytes + o.storedBytes
  maxSeq := max totals.maxSeq o.seq

/-- The totals of two portions together. -/
def merge (a b : GroupStats) : GroupStats :=
  ⟨a.rows + b.rows, a.keyframes + b.keyframes, a.rawBytes + b.rawBytes,
    a.storedBytes + b.storedBytes, max a.maxSeq b.maxSeq⟩

/-- The totals of one insert. -/
def ofOutcome (o : Outcome) : GroupStats := ⟨1, o.keyframes, o.rawBytes, o.storedBytes, o.seq⟩

/-- Counting an insert is taking its totals together with the others. -/
theorem add_eq_merge (totals : GroupStats) (o : Outcome) :
    totals.add o = totals.merge (.ofOutcome o) := rfl

theorem merge_comm (a b : GroupStats) : a.merge b = b.merge a := by
  simp only [merge, GroupStats.mk.injEq]
  omega

theorem merge_assoc (a b c : GroupStats) : (a.merge b).merge c = a.merge (b.merge c) := by
  simp only [merge, GroupStats.mk.injEq]
  omega

@[simp] theorem empty_merge (a : GroupStats) : merge {} a = a := by simp [merge]

/-- Stored bytes in relation to raw bytes; one for a group without raw bytes. -/
def ratio (s : GroupStats) : Float :=
  if s.rawBytes = 0 then 1 else s.storedBytes.toFloat / s.rawBytes.toFloat

end GroupStats

/-- Statistics by group. -/
structure Statistics where
  groups : Std.HashMap GroupId GroupStats := ∅

namespace Statistics

instance : Inhabited Statistics := ⟨{}⟩

/-- The statistics of a group that has any. -/
def get? (s : Statistics) (g : GroupId) : Option GroupStats := s.groups[g]?

/-- Number of groups with statistics. -/
def size (s : Statistics) : Nat := s.groups.size

/-- Takes totals together with those of a group. -/
def add (s : Statistics) (g : GroupId) (totals : GroupStats) : Statistics :=
  ⟨s.groups.insert g ((s.groups.getD g {}).merge totals)⟩

/-- Counts an insert into a table. -/
def record (s : Statistics) (table : TableId) (o : Outcome) : Statistics :=
  let g : GroupId := ⟨table, o.group⟩
  ⟨s.groups.insert g ((s.groups.getD g {}).add o)⟩

theorem record_eq_add (s : Statistics) (table : TableId) (o : Outcome) :
    s.record table o = s.add ⟨table, o.group⟩ (.ofOutcome o) := rfl

/-- Adds the totals of every group of `portion`. -/
def flush (s portion : Statistics) : Statistics :=
  portion.groups.toList.foldl (fun s (g, totals) => s.add g totals) s

/-- Forgets the groups of a table. -/
def forgetTable (s : Statistics) (table : TableId) : Statistics :=
  ⟨s.groups.filter fun g _ => g.table ≠ table⟩

end Statistics

end VersionChain
