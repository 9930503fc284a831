import VersionChain.Store.Row

/-!
# Row stores that fail on request

A row store can be wrapped so that the next calls of an operation fail before they reach
it. What works above a row store is tried out this way against failing storage.
-/

namespace VersionChain

/-- A row store whose operations can be made to fail. -/
structure FaultyRows (ρ : Type) where
  inner : ρ
  /-- How many of the next calls of each operation fail. -/
  failing : RowOperation → Nat := fun _ => 0

namespace FaultyRows

variable {ρ : Type}

instance [Inhabited ρ] : Inhabited (FaultyRows ρ) := ⟨{ inner := default }⟩

/-- Makes the next `count` calls of an operation fail, and no more after them. -/
def failNext (operation : RowOperation) (count : Nat) (r : FaultyRows ρ) : FaultyRows ρ :=
  { r with failing := fun other => if other = operation then count else r.failing other }

/-- An operation of the wrapped store, unless it has to fail. -/
def guarded (operation : RowOperation) (action : RowM ρ α) : RowM (FaultyRows ρ) α := fun r =>
  let left := r.failing operation
  if 0 < left then (.error (.injected operation), r.failNext operation (left - 1))
  else
    let (result, inner) := action r.inner
    (result, { r with inner })

/-- An operation of the wrapped store that never fails on request. -/
def pass (action : RowM ρ α) : RowM (FaultyRows ρ) α := fun r =>
  let (result, inner) := action r.inner
  (result, { r with inner })

instance [RowStore ρ] : RowStore (FaultyRows ρ) where
  append table row := pass (RowStore.append table row)
  fetch p := guarded .fetch (RowStore.fetch p)
  find v := guarded .find (RowStore.find v)
  scan g := guarded .scan (RowStore.scan g)
  maxSeq g := guarded .maxSeq (RowStore.maxSeq g)
  truncate table := guarded .truncate (RowStore.truncate table)
  drop table := guarded .drop (RowStore.drop table)

end FaultyRows

end VersionChain
