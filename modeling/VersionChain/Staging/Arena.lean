import VersionChain.Staging.Ring

/-!
# The region arena

Regions are handed out by handle. A handle names a cell and the generation it was issued
in; releasing a region begins a new generation of its cell, so that an old handle never
leads to a region that was handed out later.

Cells are known by numbers. Numbers of 32 bits run out in the end, and an arena with more
cells than there are numbers gives two cells the same one.
-/

namespace VersionChain

/-- How the cells of an arena are numbered. -/
class CellNumber (ι : Type) where
  /-- The number of the cell at a position. -/
  ofPosition : Nat → ι
  /-- The position that a number leads to. -/
  position : ι → Nat
  ofPosition_position : ∀ i, ofPosition (position i) = i

/-- Numbers of 32 bits. The last of them is followed by the first. -/
instance : CellNumber UInt32 where
  ofPosition := UInt32.ofNat
  position := UInt32.toNat
  ofPosition_position _ := UInt32.ofNat_toNat

/-- Numbers that do not run out. -/
instance : CellNumber Nat where
  ofPosition i := i
  position i := i
  ofPosition_position _ := rfl

/-- A reference to a region, by the number of its cell. -/
structure Handle (ι : Type) where
  index : ι
  generation : UInt32
  deriving DecidableEq, Repr, Inhabited

/-- A place for a region. -/
structure ArenaCell where
  generation : UInt32
  region : Option Region
  deriving DecidableEq, Repr, Inhabited

/-- Cells that hold regions, and the numbers of the vacant ones among them, the latest
first. -/
structure Arena (ι : Type) where
  cells : Array ArenaCell := #[]
  free : List ι := []
  deriving Repr, Inhabited

variable {ι : Type} [CellNumber ι]

/-- The position of the cell that a handle names. -/
def Handle.position (h : Handle ι) : Nat := CellNumber.position h.index

namespace Arena

/-- Hands out a new region. -/
def allocate (a : Arena ι) (region : Region) : Handle ι × Arena ι :=
  match a.free with
  | index :: free =>
    let position := CellNumber.position index
    (⟨index, (a.cells.getD position default).generation⟩,
      { cells := a.cells.modify position ({ · with region := some region }), free })
  | [] =>
    (⟨CellNumber.ofPosition a.cells.size, 0⟩,
      { a with cells := a.cells.push ⟨0, some region⟩ })

/-- The cell of a handle that is not out of date. -/
def cell? (a : Arena ι) (h : Handle ι) : Option ArenaCell :=
  a.cells[h.position]?.filter (·.generation = h.generation)

/-- The region of a handle. -/
def get? (a : Arena ι) (h : Handle ι) : Option Region := (a.cell? h).bind (·.region)

/-- Changes the region of a handle that is not out of date. -/
def modify (a : Arena ι) (h : Handle ι) (f : Region → Region) : Arena ι :=
  { a with cells := a.cells.modify h.position fun c =>
      if c.generation = h.generation then { c with region := c.region.map f } else c }

/-- Takes a region back. A handle that is out of date changes nothing. -/
def release (a : Arena ι) (h : Handle ι) : Arena ι :=
  if (a.get? h).isSome then
    { cells := a.cells.modify h.position fun c => ⟨c.generation + 1, none⟩
      free := h.index :: a.free }
  else a

/-- How many regions are handed out. -/
def live (a : Arena ι) : Nat := a.cells.size - a.free.length

end Arena

end VersionChain
