import VersionChain.Shell.Files
import VersionChain.Shell.Row
import VersionChain.Store.Transaction

/-!
# Loading rows

The rows of a file are inserted in one transaction, so their statistics are published
together. The first row that fails ends the load: the rows before it stay stored and
nothing is published.
-/

namespace VersionChain.Shell

/-- The table that every command works on. -/
def shellTable : TableId := 1

/-- Why a file was not loaded. -/
inductive LoadError where
  | file (path : String) (cause : FileError)
  /-- The row in a line could not be inserted. -/
  | line (path : String) (number : Nat) (cause : StoreError)
  deriving DecidableEq, Repr

/-- Wording of a load error with all that led to it. -/
def LoadError.message : LoadError → String
  | file path cause => s!"reading {path}: {cause.message}"
  | line path number cause => s!"{path}:{number}: {cause.message}"

/-- How many rows were loaded, and into how many groups. -/
structure Loaded where
  rows : Nat
  groups : Nat
  deriving DecidableEq, Repr

/-- Computations on a store that may fail to load. -/
abbrev LoadM (ρ : Type) := ExceptT LoadError (StateM (Store ρ))

variable {ρ : Type} [RowStore ρ]

/-- Inserts rows, given with the numbers of their lines, in a transaction. -/
def insertRows (path : String) (t : Transaction) : List (Nat × Row) → LoadM ρ Transaction
  | [] => return t
  | (number, row) :: rest => do
    let (_, t) ← ExceptT.adapt (.line path number) (t.insert shellTable row.key row.content)
    insertRows path t rest

/-- Inserts the rows of a file in one transaction. -/
def load (files : Files) (path : String) : LoadM ρ Loaded := do
  match files.text path with
  | .error cause => throw (.file path cause)
  | .ok text =>
    let rows := Row.ofText text
    let t ← insertRows path {} rows
    let groups ← modifyGet t.commit
    return ⟨rows.length, groups⟩

end VersionChain.Shell
