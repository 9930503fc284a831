import VersionChain.Store.Insert

/-!
# Transactions

A transaction gathers the statistics of its inserts and publishes them together when it is
committed. Its rows are stored at once. A transaction that is not committed publishes
nothing.
-/

namespace VersionChain

/-- The statistics gathered by a transaction. -/
structure Transaction where
  pending : Statistics := {}
  deriving Inhabited

namespace Transaction

variable {ρ : Type}

/-- Inserts a version and gathers its statistics. -/
def insert [RowStore ρ] (t : Transaction) (table : TableId) (key : Key) (values : List Bytes) :
    StoreM ρ (Outcome × Transaction) := do
  let outcome ← StoreM.insertRow table key values
  return (outcome, ⟨t.pending.record table outcome⟩)

/-- Publishes the gathered statistics. Gives the number of groups. -/
def commit (t : Transaction) (s : Store ρ) : Nat × Store ρ :=
  (t.pending.size, { s with statistics := s.statistics.flush t.pending })

end Transaction

end VersionChain
