import VersionChain.Store.Basic

/-!
# Sites

Several stores can share services and row stores. A site holds all of them; to work with
one of its stores, the service and the rows that the store is attached to are lent to it
and taken back afterwards.
-/

namespace VersionChain

/-- A store of a site, with the numbers of its service and its rows. -/
structure Attachment where
  service : Nat
  rows : Nat
  codec : Codec
  unpacker : Unpacker
  tables : Std.HashMap TableId TableState
  statistics : Statistics

/-- Services, row stores, and the stores attached to them. -/
structure Site (ρ : Type) where
  services : Array Service := #[]
  rowStores : Array ρ := #[]
  stores : Array Attachment := #[]

namespace Site

variable {ρ : Type} [Inhabited ρ]

/-- Attaches a store without tables. Gives its number. -/
def attach (s : Site ρ) (service rows : Nat) (codec : Codec) (unpacker : Unpacker) :
    Nat × Site ρ :=
  (s.stores.size, { s with
    stores := s.stores.push ⟨service, rows, codec, unpacker, ∅, {}⟩ })

/-- Adds a service. Gives its number. -/
def addService (s : Site ρ) (service : Service) : Nat × Site ρ :=
  (s.services.size, { s with services := s.services.push service })

/-- Adds a row store. Gives its number. -/
def addRows (s : Site ρ) (rows : ρ) : Nat × Site ρ :=
  (s.rowStores.size, { s with rowStores := s.rowStores.push rows })

/-- Replaces the element at `i` by the default and gives it. -/
def takeOut {α : Type} [Inhabited α] (xs : Array α) (i : Nat) : α × Array α :=
  if h : i < xs.size then (xs[i], xs.set i default) else (default, xs)

/-- Carries out a computation on store `i`; `none` if there is no such store. -/
def run? (s : Site ρ) (i : Nat) (action : StoreM ρ α) : Option (Except StoreError α) × Site ρ :=
  match s.stores[i]? with
  | none => (none, s)
  | some a =>
    let (service, services) := takeOut s.services a.service
    let (rows, rowStores) := takeOut s.rowStores a.rows
    let (result, store) := action
      { service, rows, codec := a.codec, unpacker := a.unpacker, tables := a.tables
        statistics := a.statistics }
    (some result,
      { services := services.setIfInBounds a.service store.service
        rowStores := rowStores.setIfInBounds a.rows store.rows
        stores := s.stores.setIfInBounds i
          { a with tables := store.tables, statistics := store.statistics } })

end Site

end VersionChain
