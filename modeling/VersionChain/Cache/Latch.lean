/-!
# One-shot latches

A latch fires for the first that asks and for nobody after.
-/

namespace VersionChain

/-- A latch that fires once. -/
structure Latch where
  fired : Bool := false
  deriving DecidableEq, Repr, Inhabited

/-- Whether this is the first time the latch is asked. -/
def Latch.first (latch : Latch) : Bool × Latch := (!latch.fired, ⟨true⟩)

end VersionChain
