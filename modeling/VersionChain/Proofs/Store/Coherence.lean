import VersionChain.Proofs.Cache.Allocator
import VersionChain.Proofs.Cache.Purges
import VersionChain.Proofs.Staging.Releases
import VersionChain.Proofs.Store.Isolation

/-!
# A service stays in order

Whoever shares a service may call its parts at any time and in any way. All stores over it do
nothing else: whatever they are asked, and whether they fail or not, the caches and the staging
buffer stay well-formed and their counters true.

* `ServiceCall`, `Service.call` — calls of the parts;
* `Service.Coherent` — all parts of a service are in order;
* `Coherent.call` — one call;
* `callStable_ordered`, `keeps_insertRow_ordered`, … — what stores do to their service;
* `Run.ordered_step`, `Run.ordered_happen` — whatever a store is asked, and its guests;
* `Usage`, `Run.used`, `Run.ordered_used` — stores, guests and calls, one after the other.
-/

namespace VersionChain

open BoundedCache StoreM

/-- Calls of an allocator leave its cache well-formed. -/
theorem SequenceAllocator.wellFormed_perform {a : SequenceAllocator} (h : WellFormed a.map)
    (g : GroupId) (call : AllocatorCall) : WellFormed (a.perform g call).map := by
  have hupdate : ∀ f : Nat → Nat, WellFormed (a.map.update g f).2 :=
    fun f => (h.update g f).wellFormed
  cases call with
  | get => exact hupdate id
  | set seq => exact (h.insert g seq).wellFormed
  | raise seq =>
    show WellFormed (a.raise g seq).map
    rw [raise_eq]
    split
    · exact hupdate _
    · exact ((hupdate _).insert g _).wellFormed
  | allocateAfter stored =>
    show WellFormed (a.allocateAfter g stored).2.map
    rw [allocateAfter_eq]
    split
    · exact hupdate _
    · exact ((hupdate _).insert g _).wellFormed
  | next =>
    show WellFormed (a.next g).2.map
    rw [next_eq]
    exact hupdate _
  | rollback expected =>
    show WellFormed (a.rollback g expected).2.map
    rw [rollback_eq]
    exact hupdate _

/-! ## Calls of the parts -/

/-- One call of a part of a service. -/
inductive ServiceCall where
  | allocator (g : GroupId) (call : AllocatorCall)
  | record (location : Location) (v : VersionId)
  | seqAt (p : PlaceId)
  | locationOf (v : VersionId)
  | forgetReverse (v : VersionId)
  | forgetForward (p : PlaceId)
  | getContent (key : ContentKey)
  | putContent (key : ContentKey) (value : Bytes)
  | staging (command : StagingCommand)
  | execute (codec : Codec) (target : Bytes) (candidates : List Candidate)
      (fallback : TaggedRecord) (extraPass : Bool)

namespace Service

variable {x : Service}

/-- Carries out a call. -/
def call (x : Service) : ServiceCall → Service
  | .allocator g call => { x with sequences := x.sequences.perform g call }
  | .record location v => { x with locations := x.locations.record location v }
  | .seqAt p => { x with locations := (x.locations.seqAt p).2 }
  | .locationOf v => { x with locations := (x.locations.locationOf v).2 }
  | .forgetReverse v => { x with locations := x.locations.forgetReverse v }
  | .forgetForward p => { x with locations := x.locations.forgetForward p }
  | .getContent key => { x with content := (x.content.get key).2 }
  | .putContent key value => { x with content := (x.content.put key value).2 }
  | .staging command => { x with staging := x.staging.perform command }
  | .execute codec target candidates fallback extraPass =>
    { x with scheduler := (x.scheduler.execute codec target candidates fallback extraPass).2 }

/-- The caches and the staging buffer are well-formed, and their counters are true. -/
structure Coherent (x : Service) : Prop where
  sequences : WellFormed x.sequences.map
  locations : x.locations.Sound
  content : x.content.Weighed
  staging : x.staging.Booked

theorem coherent_ofSettings (settings : ServiceSettings) : Coherent (.ofSettings settings) where
  sequences := wellFormed_new _ _
  locations := LocationIndex.sound_ofBudget _
  content := ContentCache.weighed_ofBudget _ _
  staging := StagingBuffer.booked_new _

namespace Coherent

theorem call (h : x.Coherent) (c : ServiceCall) : (x.call c).Coherent := by
  cases c with
  | allocator g call =>
    exact { h with sequences := SequenceAllocator.wellFormed_perform h.sequences g call }
  | record location v => exact { h with locations := h.locations.record location v }
  | seqAt p => exact { h with locations := h.locations.seqAt p }
  | locationOf v => exact { h with locations := h.locations.locationOf v }
  | forgetReverse v => exact { h with locations := h.locations.forgetReverse v }
  | forgetForward p => exact { h with locations := h.locations.forgetForward p }
  | getContent key => exact { h with content := h.content.get key }
  | putContent key value => exact { h with content := h.content.put key value }
  | staging command => exact { h with staging := h.staging.perform command }
  | execute codec target candidates fallback extraPass => exact { h with }

theorem invalidate (h : x.Coherent) (table : TableId) : (x.invalidate table).2.Coherent where
  sequences := (h.sequences.purged GroupId.table table).wellFormed
  locations := h.locations.invalidate table
  content := (h.content.invalidate table).1
  staging := (h.staging.invalidate table).1

end Coherent

end Service

/-! ## What stores do to their service -/

namespace StoreM

/-- The service of a store is in order. -/
def Ordered (s : Store MemoryRows) : Prop := s.service.Coherent

/-- Reading, rebuilding, staging and caching are calls of the parts. -/
theorem callStable_ordered : CallStable (fun _ => True) Ordered where
  with_locations _ _ hf hs := { hs with locations := hf _ hs.locations }
  with_rows _ _ _ hs := hs
  with_lookup _ key _ hs := Service.Coherent.call hs (.getContent key)
  with_put _ key value _ hs := Service.Coherent.call hs (.putContent key value)
  with_call _ command _ _ _ hs := Service.Coherent.call hs (.staging command)
  with_scheduler _ _ hs := { hs with }

theorem keeps_allocator {α : Type} {f : SequenceAllocator → α × SequenceAllocator} {g : GroupId}
    (call : AllocatorCall) (hf : ∀ a, (f a).2 = a.perform g call) :
    Keeps (sequences f) Ordered := by
  intro s hs
  have hcalled : Ordered { s with service := s.service.call (.allocator g call) } :=
    Service.Coherent.call hs (.allocator g call)
  rw [sequences_eq, hf]
  exact hcalled

/-- The rows are not part of the service. -/
theorem keeps_onRows_ordered {α : Type} (activity : RowActivity) (action : RowM MemoryRows α) :
    Keeps (onRows activity action) Ordered := fun _ hs => hs

theorem keeps_storeVersion_ordered (v : VersionId) (settings : TableSettings)
    (values : List Bytes) : Keeps (storeVersion v settings values) Ordered := by
  have hstable := callStable_ordered
  refine .bind (fun s hs => (hstable.ends_claimSlot (v := v) trivial _ _ hs).1) fun token => ?_
  refine .bind (hstable.keeps_encodeColumns trivial trivial _ _ _ _) fun records => ?_
  refine .bind (keeps_onRows_ordered _ _) fun location => .of_runs fun s hs => ?_
  exact ⟨_, hstable.runs_publish hs trivial trivial location values _⟩

theorem keeps_insertRow_ordered (table : TableId) (key : Key) (values : List Bytes) :
    Keeps (insertRow table key values) Ordered := by
  refine .bind (keeps_fingerprint key) fun group => .bind (keeps_tableState table) fun state => ?_
  split
  · exact .throw _
  · have hallocate : Keeps (allocateSeq ⟨table, group⟩) Ordered := by
      refine .bind (keeps_allocator .next fun _ => rfl) fun seq => ?_
      split
      · exact .pure seq
      · refine .bind (keeps_onRows_ordered _ _) fun stored => ?_
        exact keeps_allocator (.allocateAfter stored) fun _ => rfl
    refine .bind hallocate fun seq s hs => ?_
    show Ends _ s fun _ => Ordered
    refine Ends.caught ((keeps_storeVersion_ordered _ _ _).ends hs) (fun _ _ hs' => hs')
      fun e s' hs' => ?_
    have hrollback : Keeps (sequences (·.rollback ⟨table, group⟩ seq)) Ordered :=
      keeps_allocator (.rollback seq) fun _ => rfl
    exact (hrollback.bind fun _ => .throw e).ends hs'

theorem keeps_latestSeq_ordered (table : TableId) (key : Key) :
    Keeps (latestSeq table key) Ordered := by
  refine .bind (keeps_tableState table) fun _ => .bind (keeps_fingerprint key) fun group => ?_
  refine .bind (keeps_allocator .get fun _ => rfl) fun cached => ?_
  cases cached with
  | some seq => exact .pure _
  | none =>
    refine .bind (keeps_onRows_ordered _ _) fun stored => ?_
    split
    · exact .pure _
    · exact .bind (keeps_allocator (.raise stored) fun _ => rfl) fun _ => .pure _

theorem keeps_invalidatePart_ordered (part : ServicePart) (table : TableId) :
    Keeps (invalidatePart part table) Ordered := by
  intro s hs
  have hall := Service.Coherent.invalidate hs table
  cases part with
  | sequences => exact { hs with sequences := hall.sequences }
  | locations => exact { hs with locations := hall.locations }
  | content => exact { hs with content := hall.content }
  | staging => exact { hs with staging := hall.staging }

theorem keeps_createTable_ordered (table : TableId) (columns : Nat) (settings : TableSettings) :
    Keeps (createTable table columns settings : StoreM MemoryRows Unit) Ordered := by
  intro s hs
  by_cases hcond : settings.validate = .ok () ∧ columns ≤ maxColumns ∧ s.tables[table]? = none
  · obtain ⟨hvalid, hnarrow, hnew⟩ := hcond
    rw [createTable_eq hvalid hnarrow hnew]
    exact Service.Coherent.invalidate hs table
  · obtain ⟨cause, heq⟩ := createTable_eq_error hcond
    rw [heq]
    exact hs

theorem keeps_truncate_ordered (table : TableId) :
    Keeps (truncate table : StoreM MemoryRows Invalidated) Ordered := by
  intro s hs
  cases htable : s.tables[table]? with
  | none =>
    rw [truncate_eq_error htable]
    exact hs
  | some state =>
    rw [truncate_eq htable]
    exact Service.Coherent.invalidate hs table

theorem keeps_dropTable_ordered (table : TableId) :
    Keeps (dropTable table : StoreM MemoryRows Invalidated) Ordered := by
  intro s hs
  cases htable : s.tables[table]? with
  | none =>
    rw [dropTable_eq_error htable]
    exact hs
  | some state =>
    rw [dropTable_eq htable]
    exact Service.Coherent.invalidate hs table

theorem ordered_createTables (settings : TableId → TableSettings) {s : Store MemoryRows}
    (h : Ordered s) (entries : List (TableId × TableState)) :
    Ordered (createTables settings s entries) := by
  induction entries generalizing s with
  | nil => exact h
  | cons entry rest ih => exact ih (keeps_createTable_ordered entry.1 entry.2.columns _ s h)

end StoreM

namespace Run

variable {r : Run}

theorem ordered_remove {α : Type} {action : StoreM MemoryRows α} (haction : Keeps action Ordered)
    (h : Ordered r.store) (table : TableId) : Ordered (r.remove table action).store := by
  have hafter := haction r.store h
  unfold remove
  split
  all_goals
    rename_i heq
    rw [heq] at hafter
    exact hafter

/-- Whatever a store is asked, its service stays in order. -/
theorem ordered_step (services : Nat → ServiceSettings) (h : Ordered r.store)
    (command : Command) : Ordered (r.step services command).store := by
  have hstable := callStable_ordered
  cases command with
  | createTable table columns settings => exact keeps_createTable_ordered table columns settings _ h
  | insert transaction table key values =>
    exact (insert_spec ((keeps_insertRow_ordered table key values).ends h) (fun _ _ _ hs => hs)
      transaction).1
  | commit id => exact h
  | abort id => exact h
  | getVersion table key seq =>
    exact ends_getVersion h fun state _ _ _ => hstable.keeps_readColumns trivial 0 #[] _ _ h
  | getColumn table key seq column =>
    exact ends_getColumn h fun _ _ _ _ _ => hstable.keeps_resolve trivial column _ h
  | latestSeq table key => exact keeps_latestSeq_ordered table key _ h
  | history table key => exact hstable.keeps_history table key _ h
  | seqAt table location => exact hstable.keeps_seqAt table location _ h
  | groupStats table key => exact keeps_groupStats table key _ h
  | truncate table => exact ordered_remove (keeps_truncate_ordered table) h table
  | dropTable table => exact ordered_remove (keeps_dropTable_ordered table) h table
  | relocate place => exact h
  | rejectAppends count => exact h
  | invalidate table => exact Service.Coherent.invalidate h table
  | invalidatePart part table => exact keeps_invalidatePart_ordered part table _ h
  | detach => exact { h with }
  | restart coder unpacker settings =>
    exact ordered_createTables _ (s := .new _ _ _ _) (Service.coherent_ofSettings _) _

/-- And so it does when other stores use it, and when rows are changed. -/
theorem ordered_happen (services : Nat → ServiceSettings) (h : Ordered r.store)
    (happening : Happening) : Ordered (r.happen services happening).store := by
  cases happening with
  | command command => exact ordered_step services h command
  | visit guest command => exact ordered_step (r := guest.taking r) services h command
  | remove place => exact h
  | overwrite place column record => exact h

/-! ## All uses -/

/-- What can happen to a store and to the parts of its service. -/
inductive Usage where
  | happening (happening : Happening)
  | call (call : ServiceCall)

/-- One use. -/
def use (services : Nat → ServiceSettings) (r : Run) : Usage → Run
  | .happening happening => r.happen services happening
  | .call call => { r with store.service := r.store.service.call call }

/-- A new service under a store without tables, over any rows, and all uses of it. -/
def used (services : Nat → ServiceSettings) (rows : MemoryRows) (codec : Codec)
    (unpacker : Unpacker) (usages : List Usage) : Run :=
  usages.foldl (use services) { store := .new (.ofSettings (services 0)) rows codec unpacker }

theorem ordered_use (services : Nat → ServiceSettings) (h : Ordered r.store) (usage : Usage) :
    Ordered (r.use services usage).store := by
  cases usage with
  | happening happening => exact ordered_happen services h happening
  | call call => exact Service.Coherent.call h call

theorem ordered_used (services : Nat → ServiceSettings) (rows : MemoryRows) (codec : Codec)
    (unpacker : Unpacker) (usages : List Usage) :
    Ordered (used services rows codec unpacker usages).store := by
  unfold used
  have hstart : Ordered (.new (.ofSettings (services 0)) rows codec unpacker) :=
    Service.coherent_ofSettings _
  induction usages using List.reverseRecOn with
  | nil => exact hstart
  | append_singleton earlier usage ih =>
    rw [List.foldl_append]
    exact ordered_use services ih usage

end Run

end VersionChain
