import VersionChain.Bytes

/-!
# Staging rings

A ring keeps the raw contents of the latest versions of one group. Values are pushed into
the row at the cursor, and a commit seals that row and moves the cursor on, so that the
oldest row is the next to be written over. A row that was begun and never sealed is
dropped as soon as another version is pushed.
-/

namespace VersionChain

/-- One position of a ring. -/
structure RingRow where
  /-- Number of the version that is staged here. -/
  seq : Nat
  committed : Bool
  /-- The content of each column that has been pushed. -/
  cells : Array (Option Bytes)
  deriving DecidableEq, Repr, Inhabited

/-- A position without content, for `columns` columns. -/
def RingRow.vacant (columns seq : Nat) : RingRow := ⟨seq, false, .replicate columns none⟩

/-- The rows of a ring. -/
structure Region where
  columns : Nat
  rows : Array RingRow
  deriving DecidableEq, Repr, Inhabited

namespace Region

/-- A region of `depth` vacant rows. -/
def new (depth columns : Nat) : Region :=
  ⟨columns, .replicate depth (.vacant columns 0)⟩

/-- How many rows there are. -/
def depth (r : Region) : Nat := r.rows.size

/-- Whether the row at position `pos` is one for version `seq` and still open. -/
def isOpen (r : Region) (pos seq : Nat) : Bool :=
  r.rows[pos]?.any fun row => row.seq = seq ∧ !row.committed

/-- Whether the row at position `pos` is sealed. -/
def isSealed (r : Region) (pos : Nat) : Bool := r.rows[pos]?.any (·.committed)

/-- Makes the row at position `pos` an open one for version `seq`, unless it is that already.
What was there is dropped. -/
def begin (r : Region) (pos seq : Nat) : Region :=
  if r.isOpen pos seq then r
  else { r with rows := r.rows.setIfInBounds pos (.vacant r.columns seq) }

/-- Puts the content of a column into the row for version `seq` at position `pos`. -/
def push (r : Region) (pos seq column : Nat) (content : Bytes) : Region :=
  let r := r.begin pos seq
  { r with rows := r.rows.modify pos fun row =>
      { row with cells := row.cells.setIfInBounds column (some content) } }

/-- Seals the row for version `seq` at position `pos`. -/
def commit (r : Region) (pos seq : Nat) : Region :=
  let r := r.begin pos seq
  { r with rows := r.rows.modify pos fun row => { row with committed := true } }

end Region

/-- A version that a new one can be written against, with its distance and its content. -/
structure RecentBase where
  seq : Nat
  distance : Nat
  content : Bytes
  deriving DecidableEq, Repr, Inhabited

namespace RecentBase

/-- Nearest first; bases at the same distance keep their order. -/
def sortByDistance (bases : List RecentBase) : List RecentBase :=
  bases.mergeSort fun a b => a.distance ≤ b.distance

end RecentBase

/-- A region with the position that is written next and the number of sealed rows. -/
structure Ring where
  region : Region
  cursor : Nat
  valid : Nat
  deriving DecidableEq, Repr, Inhabited

namespace Ring

/-- The number of sealed rows other than the one at the cursor. -/
def validBehind (r : Ring) : Nat :=
  if r.region.isSealed r.cursor then r.valid - 1 else r.valid

/-- The position after the cursor. -/
def nextCursor (r : Ring) : Nat := (r.cursor + 1) % r.region.depth

/-- The number of sealed rows once the one at the cursor is sealed. -/
def validAfter (r : Ring) : Nat := min (r.validBehind + 1) r.region.depth

/-- Puts the content of a column into the row at the cursor. -/
def push (r : Ring) (seq column : Nat) (content : Bytes) : Ring :=
  ⟨r.region.push r.cursor seq column content, r.cursor, r.validBehind⟩

/-- Seals the row at the cursor as version `seq` and moves on. -/
def commit (r : Ring) (seq : Nat) : Ring :=
  ⟨r.region.commit r.cursor seq, r.nextCursor, r.validAfter⟩

/-- The position `back` steps behind the cursor. -/
def behind (r : Ring) (back : Nat) : Nat :=
  (r.cursor + r.region.depth - back) % r.region.depth

/-- The base for version `target` that a row offers in a column: its version is sealed, lies
between one and `depth` before the target, and has content there. -/
def baseOf (depth target column : Nat) (row : RingRow) : Option RecentBase :=
  if row.committed ∧ row.seq < target ∧ target - row.seq ≤ depth then
    (row.cells.getD column none).map fun content => ⟨row.seq, target - row.seq, content⟩
  else none

/-- The bases for version `target` in a column, nearest first, at most `limit` of them. -/
def bases (r : Ring) (target column limit : Nat) : List RecentBase :=
  let depth := r.region.depth
  let found := (List.range depth).filterMap fun back =>
    r.region.rows[r.behind (back + 1)]?.bind (baseOf depth target column)
  (RecentBase.sortByDistance found).take limit

end Ring

end VersionChain
