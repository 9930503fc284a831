import VersionChain.Cache.Bounded.Basic

/-!
# Bounded caches: the order of use

Live slots are linked from the least to the most recently used. A slot is taken out of the
order by joining its neighbours, and put back behind the last.
-/

namespace VersionChain.BoundedCache

variable {κ ν : Type}

/-- Sets what follows `i` in the order; without `i`, what comes first. -/
def linkNext (c : BoundedCache κ ν) (i next : Option Nat) : BoundedCache κ ν :=
  match i with
  | some i => c.modifyEntry i ({ · with next })
  | none => { c with head := next }

/-- Sets what precedes `i` in the order; without `i`, what comes last. -/
def linkPrev (c : BoundedCache κ ν) (i prev : Option Nat) : BoundedCache κ ν :=
  match i with
  | some i => c.modifyEntry i ({ · with prev })
  | none => { c with tail := prev }

/-- Takes slot `i` out of the order. -/
def unlink (c : BoundedCache κ ν) (i : Nat) : BoundedCache κ ν :=
  match c.entry? i with
  | some entry =>
    ((c.modifyEntry i ({ · with prev := none, next := none })).linkNext entry.prev entry.next).linkPrev
      entry.next entry.prev
  | none => c

/-- Puts slot `i` behind the last. -/
def pushBack (c : BoundedCache κ ν) (i : Nat) : BoundedCache κ ν :=
  let last := c.tail
  { (c.modifyEntry i ({ · with prev := last, next := none })).linkNext last (some i) with
    tail := some i }

/-- Makes slot `i` the most recently used. -/
def moveToBack (c : BoundedCache κ ν) (i : Nat) : BoundedCache κ ν :=
  if c.tail = some i then c else (c.unlink i).pushBack i

end VersionChain.BoundedCache
