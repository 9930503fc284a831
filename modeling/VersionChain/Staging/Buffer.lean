import Std.Data.HashMap
import VersionChain.Cache.Sequence
import VersionChain.Staging.Arena

/-!
# The staging buffer

A fixed number of slots holds the rings of the groups that were written last. A group
claims a slot and gets a token for it. When all slots are claimed, the one that has been
idle for longest is taken from its group; every later call with the old token is then
without effect and only counted.
-/

namespace VersionChain

/-- Proof of a claim on a slot. -/
structure Token where
  slot : Nat
  owner : GroupId
  epoch : Nat
  deriving DecidableEq, Repr, Inhabited

/-- A slot and the ring in it. -/
structure StagingSlot where
  owner : Option GroupId := none
  /-- Number of the claim. -/
  epoch : Nat := 0
  depth : Nat := 0
  columns : Nat := 0
  cursor : Nat := 0
  valid : Nat := 0
  /-- When the slot was last claimed or committed to. -/
  lastActive : Nat := 0
  region : Option (Handle Nat) := none
  deriving DecidableEq, Repr, Inhabited

/-- A version to be staged, with the contents of its columns. -/
structure StagedRow where
  seq : Nat
  columns : List (Option Bytes)
  deriving DecidableEq, Repr, Inhabited

/-- The counters of the staging buffer. -/
structure StagingStats where
  slots : Nat
  claimed : Nat
  regions : Nat
  evictedWhileOwned : Nat
  mismatches : Nat
  deriving DecidableEq, Repr, Inhabited

/-- Slots with their rings. -/
structure StagingBuffer where
  slots : Array StagingSlot
  /-- The slot of each group that has one. -/
  owners : Std.HashMap GroupId Nat
  /-- Its cells are numbered without end. It never has more of them than there are slots, so that
  numbers of 32 bits are the same numbers as long as there are at most as many slots as those. -/
  arena : Arena Nat
  /-- Counts the claims and commits. -/
  tick : Nat
  nextEpoch : Nat
  /-- How often a slot was taken from its group. -/
  evictedWhileOwned : Nat
  /-- How often a call came with a token that is out of date. -/
  mismatches : Nat

namespace StagingBuffer

/-- Largest depth and largest number of columns of a ring. -/
def maxShape : Nat := 65535

/-- A buffer of unclaimed slots, at least one. -/
def new (slots : Nat) : StagingBuffer :=
  { slots := .replicate (max slots 1) {}, owners := ∅, arena := {}
    tick := 0, nextEpoch := 1, evictedWhileOwned := 0, mismatches := 0 }

instance : Inhabited StagingBuffer := ⟨new 0⟩

/-- Makes a slot unclaimed. Its ring is given back. -/
def freeSlot (b : StagingBuffer) (i : Nat) : StagingBuffer :=
  match b.slots[i]? with
  | none => b
  | some slot =>
    { b with
      owners := match slot.owner with
        | some owner => b.owners.erase owner
        | none => b.owners
      arena := match slot.region with
        | some handle => b.arena.release handle
        | none => b.arena
      slots := b.slots.setIfInBounds i { epoch := slot.epoch, lastActive := slot.lastActive } }

/-- Whether a token is that of the present claim on its slot. -/
def isCurrent (b : StagingBuffer) (t : Token) : Bool :=
  b.slots[t.slot]?.any fun slot => slot.owner = some t.owner ∧ slot.epoch = t.epoch

/-- The first of the slots that has been idle for longest, from slot `i` on; `best` is the
choice among the slots before. -/
def idlest (best : Nat × Nat) : (i : Nat) → List StagingSlot → Nat
  | _, [] => best.1
  | i, slot :: rest =>
    idlest (if slot.lastActive < best.2 then (i, slot.lastActive) else best) (i + 1) rest

/-- The slot to claim: the first unclaimed one, or else the one that has been idle for
longest. -/
def victim (b : StagingBuffer) : Nat :=
  match b.slots.findIdx? (·.owner.isNone) with
  | some i => i
  | none => idlest (0, (b.slots.getD 0 {}).lastActive) 0 b.slots.toList

/-- Claims slot `i`, which has been freed, for a group. -/
def claim (b : StagingBuffer) (i : Nat) (owner : GroupId) (depth columns : Nat) :
    Token × StagingBuffer :=
  let (handle, arena) := b.arena.allocate (.new depth columns)
  let epoch := b.nextEpoch
  (⟨i, owner, epoch⟩,
    { b with
      arena
      nextEpoch := epoch + 1
      owners := b.owners.insert owner i
      slots := b.slots.setIfInBounds i
        { owner := some owner, epoch, depth, columns, lastActive := b.tick
          region := some handle } })

/-- Claims a slot for a group that holds none of the shape. -/
def claimNew (b : StagingBuffer) (owner : GroupId) (depth columns : Nat) :
    Token × StagingBuffer :=
  let i := b.victim
  let owned := (b.slots.getD i {}).owner.isSome
  let b := if owned then { b with evictedWhileOwned := b.evictedWhileOwned + 1 } else b
  (b.freeSlot i).claim i owner depth columns

/-- Claims a slot for a group. A group that holds a slot of the same shape keeps it; the
second component tells whether the claim is new. -/
def acquire (b : StagingBuffer) (owner : GroupId) (depth columns : Nat) :
    Token × Bool × StagingBuffer :=
  let depth := min (max depth 1) maxShape
  let columns := min columns maxShape
  let b := { b with tick := b.tick + 1 }
  match b.owners[owner]? with
  | some i =>
    let slot := b.slots.getD i {}
    if slot.depth = depth ∧ slot.columns = columns then
      (⟨i, owner, slot.epoch⟩, false,
        { b with slots := b.slots.modify i ({ · with lastActive := b.tick }) })
    else
      let (token, b) := (b.freeSlot i).claimNew owner depth columns
      (token, true, b)
  | none =>
    let (token, b) := b.claimNew owner depth columns
    (token, true, b)

/-- The ring of a slot. -/
def ringOf (b : StagingBuffer) (slot : StagingSlot) : Option Ring :=
  (slot.region.bind b.arena.get?).map fun region => ⟨region, slot.cursor, slot.valid⟩

/-- The ring that a current token leads to. -/
def ring? (b : StagingBuffer) (t : Token) : Option Ring :=
  if b.isCurrent t then b.slots[t.slot]?.bind b.ringOf else none

/-- Counts a call whose token is out of date. -/
def countMismatch (b : StagingBuffer) (t : Token) : StagingBuffer :=
  if b.isCurrent t then b else { b with mismatches := b.mismatches + 1 }

/-- Changes the region of slot `i`, with the cursor and the number of sealed rows that go
with it. -/
def modifyRing (b : StagingBuffer) (i : Nat) (f : Region → Region) (cursor valid : Nat) :
    StagingBuffer :=
  match b.slots[i]?.bind (·.region) with
  | some handle =>
    { b with
      arena := b.arena.modify handle f
      slots := b.slots.modify i ({ · with cursor, valid }) }
  | none => b

/-- Stages the content of a column of the version being written. Fails if the token is out
of date or there is no such column. -/
def push (b : StagingBuffer) (t : Token) (seq column : Nat) (content : Bytes) :
    Bool × StagingBuffer :=
  let b := b.countMismatch t
  match b.ring? t with
  | some ring =>
    if column < ring.region.columns then
      (true, b.modifyRing t.slot (·.push ring.cursor seq column content) ring.cursor
        ring.validBehind)
    else (false, b)
  | none => (false, b)

/-- Seals the version being written. Fails if the token is out of date. -/
def commit (b : StagingBuffer) (t : Token) (seq : Nat) : Bool × StagingBuffer :=
  let b := b.countMismatch t
  match b.ring? t with
  | some ring =>
    let b := b.modifyRing t.slot (·.commit ring.cursor seq) ring.nextCursor ring.validAfter
    let b := { b with tick := b.tick + 1 }
    (true, { b with slots := b.slots.modify t.slot ({ · with lastActive := b.tick }) })
  | none => (false, b)

/-- The staged bases for version `target` in a column, nearest first, at most `limit`. There
are none if the token is out of date. -/
def recentBases (b : StagingBuffer) (t : Token) (target column limit : Nat) :
    List RecentBase × StagingBuffer :=
  let b := b.countMismatch t
  match b.ring? t with
  | some ring =>
    (if column < ring.region.columns then ring.bases target column limit else [], b)
  | none => ([], b)

/-- Stages the columns of a row from `column` on. Fails once the token is out of date. -/
def pushColumns (b : StagingBuffer) (t : Token) (seq column : Nat) :
    List (Option Bytes) → Bool × StagingBuffer
  | [] => (true, b)
  | none :: rest => pushColumns b t seq (column + 1) rest
  | some content :: rest =>
    let (pushed, b) := b.push t seq column content
    if pushed ∨ b.isCurrent t then pushColumns b t seq (column + 1) rest else (false, b)

/-- Stages and seals rows one after the other. -/
def stageRows (b : StagingBuffer) (t : Token) : List StagedRow → Bool × StagingBuffer
  | [] => (true, b)
  | row :: rest =>
    match b.pushColumns t row.seq 0 row.columns with
    | (false, b) => (false, b)
    | (true, b) =>
      match b.commit t row.seq with
      | (false, b) => (false, b)
      | (true, b) => b.stageRows t rest

/-- Fills a slot with versions that are stored already, the earliest first. -/
def populate (b : StagingBuffer) (t : Token) (rows : List StagedRow) : Bool × StagingBuffer :=
  b.stageRows t (rows.mergeSort fun x y => x.seq ≤ y.seq)

/-- Frees slots one after the other. -/
def freeSlots (b : StagingBuffer) : List Nat → StagingBuffer
  | [] => b
  | i :: rest => (b.freeSlot i).freeSlots rest

/-- The slots claimed by groups of a table. -/
def slotsOf (b : StagingBuffer) (table : TableId) : List Nat :=
  (List.range b.slots.size).filter fun i =>
    (b.slots[i]?.bind (·.owner)).any (·.table = table)

/-- Frees every slot of a table. Gives their number. -/
def invalidate (b : StagingBuffer) (table : TableId) : Nat × StagingBuffer :=
  let owned := b.slotsOf table
  (owned.length, b.freeSlots owned)

/-- The counters. -/
def stats (b : StagingBuffer) : StagingStats :=
  ⟨b.slots.size, b.owners.size, b.arena.live, b.evictedWhileOwned, b.mismatches⟩

end StagingBuffer

end VersionChain
