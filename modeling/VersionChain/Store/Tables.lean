import VersionChain.Store.Basic

/-!
# Creating and emptying tables

A table is created with its settings and the number of its columns. Truncating it removes
its rows, dropping it removes it altogether; in both cases, and when a table is created,
everything that was cached for it goes as well.
-/

namespace VersionChain.StoreM

variable {ρ : Type}

/-- Forgets a table in every part of the service. -/
def invalidate (table : TableId) : StoreM ρ Invalidated :=
  modifyGet fun s =>
    let (dropped, service) := s.service.invalidate table
    (dropped, { s with service })

/-- Creates a table. -/
def createTable (table : TableId) (columns : Nat) (settings : TableSettings) :
    StoreM ρ Unit := do
  match settings.validate with
  | .error cause => throw (.tableSettings table cause)
  | .ok () =>
    if maxColumns < columns then throw (.tooManyColumns table)
    else if (← get).tables.contains table then throw (.tableExists table)
    else
      let _ ← invalidate table
      modify fun s => { s with tables := s.tables.insert table ⟨settings, columns⟩ }

/-- Forgets the statistics of a table and all that is cached for it. -/
def forgetTable (table : TableId) : StoreM ρ Invalidated := do
  modify fun s => { s with statistics := s.statistics.forgetTable table }
  invalidate table

variable [RowStore ρ]

/-- Removes every row of a table. -/
def truncate (table : TableId) : StoreM ρ Invalidated := do
  let _ ← tableState table
  onRows (.truncating table) (RowStore.truncate table)
  forgetTable table

/-- Removes a table with its rows. -/
def dropTable (table : TableId) : StoreM ρ Invalidated := do
  let _ ← tableState table
  onRows (.dropping table) (RowStore.drop table)
  modify fun s => { s with tables := s.tables.erase table }
  forgetTable table

end VersionChain.StoreM
