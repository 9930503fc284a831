import VersionChain.Proofs.Store.Group
import VersionChain.Proofs.Store.Removals

/-!
# What happens to other groups

Inserting into other groups, reading from them, and removing and overwriting their rows leaves
alone what a store holds for a group. What is cached and staged for the group may be given up, and
nothing wrong takes its place. This does not depend on the codec or on the tables of the store: other
stores over the same service and rows leave the group alone as well.

* `SetupStable` — what does not depend on the service and the rows;
* `Sheltered` — what a store holds for a group, and that its table does not get shorter;
* `Sheltered.ends_insertRow`, `Sheltered.ends_getVersion` — inserting into another group, and
  reading from it;
* `Sheltered.relocate`, `Sheltered.remove`, `Sheltered.overwrite` — changing its rows;
* `Sheltered.invalidate`, `Sheltered.ends_truncate` — forgetting a table, and emptying another one.
-/

namespace VersionChain

open StoreM MemoryRows StagingBuffer

namespace StoreM

variable {G G' : GroupId → Prop} {P Q : Store MemoryRows → Prop}

/-! ## Putting properties together -/

theorem CallStable.and (h : CallStable G P) (h' : CallStable G Q) :
    CallStable G fun s => P s ∧ Q s where
  with_locations s f hf hs := ⟨h.with_locations s f hf hs.1, h'.with_locations s f hf hs.2⟩
  with_rows s rows hrows hs := ⟨h.with_rows s rows hrows hs.1, h'.with_rows s rows hrows hs.2⟩
  with_lookup s key hkey hs := ⟨h.with_lookup s key hkey hs.1, h'.with_lookup s key hkey hs.2⟩
  with_put s key value hkey hs :=
    ⟨h.with_put s key value hkey hs.1, h'.with_put s key value hkey hs.2⟩
  with_call s command g hg hG hs :=
    ⟨h.with_call s command g hg hG hs.1, h'.with_call s command g hg hG hs.2⟩
  with_scheduler s x hs := ⟨h.with_scheduler s x hs.1, h'.with_scheduler s x hs.2⟩

theorem CallStable.mono (h : CallStable G P) (hG : ∀ g, G' g → G g) : CallStable G' P where
  with_locations := h.with_locations
  with_rows := h.with_rows
  with_lookup s key hkey := h.with_lookup s key (hG _ hkey)
  with_put s key value hkey := h.with_put s key value (hG _ hkey)
  with_call s command g hg hG' := h.with_call s command g hg (hG g hG')
  with_scheduler := h.with_scheduler

theorem CallStable.exists {ι : Type} {p : ι → Prop} {P : ι → Store MemoryRows → Prop}
    (h : ∀ i, CallStable G (P i)) : CallStable G fun s => ∃ i, p i ∧ P i s where
  with_locations := fun s f hf ⟨i, hi, hs⟩ => ⟨i, hi, (h i).with_locations s f hf hs⟩
  with_rows := fun s rows hrows ⟨i, hi, hs⟩ => ⟨i, hi, (h i).with_rows s rows hrows hs⟩
  with_lookup := fun s key hkey ⟨i, hi, hs⟩ => ⟨i, hi, (h i).with_lookup s key hkey hs⟩
  with_put := fun s key value hkey ⟨i, hi, hs⟩ => ⟨i, hi, (h i).with_put s key value hkey hs⟩
  with_call := fun s command g hg hG ⟨i, hi, hs⟩ => ⟨i, hi, (h i).with_call s command g hg hG hs⟩
  with_scheduler := fun s x ⟨i, hi, hs⟩ => ⟨i, hi, (h i).with_scheduler s x hs⟩

theorem Keeps.exists {α ι : Type} {p : ι → Prop} {P : ι → Store MemoryRows → Prop}
    {action : StoreM MemoryRows α} (h : ∀ i, Keeps action (P i)) :
    Keeps action fun s => ∃ i, p i ∧ P i s :=
  fun s ⟨i, hi, hs⟩ => ⟨i, hi, h i s hs⟩

/-! ## What does not depend on the service and the rows -/

/-- A property of stores that stays whatever becomes of the service and the rows. -/
def SetupStable (P : Store MemoryRows → Prop) : Prop :=
  ∀ (s : Store MemoryRows) (service : Service) (rows : MemoryRows), P s → P { s with service, rows }

namespace SetupStable

variable (h : SetupStable P)

include h

theorem cacheStable : CacheStable P where
  with_locations s _ _ hs := h s _ s.rows hs
  with_rows s rows _ hs := h s s.service rows hs
  with_content s _ hs := h s _ s.rows hs
  with_staging s _ hs := h s _ s.rows hs
  with_scheduler s _ hs := h s _ s.rows hs

theorem numberStable : NumberStable P where
  with_sequences s _ hs := h s _ s.rows hs
  with_rows s rows _ hs := h s s.service rows hs

theorem keeps_onRows {α : Type} (activity : RowActivity) (action : RowM MemoryRows α) :
    Keeps (onRows activity action) P := fun s hs => h s s.service _ hs

theorem keeps_storeVersion (v : VersionId) (settings : TableSettings) (values : List Bytes) :
    Keeps (storeVersion v settings values) P := by
  refine .bind (h.cacheStable.keeps_claimSlot _ _ _) fun token => ?_
  refine .bind (h.cacheStable.keeps_encodeColumns _ _ _ _ _ _) fun records => ?_
  refine .bind (h.keeps_onRows _ _) fun location => .of_runs fun s hs => ?_
  exact ⟨_, h.cacheStable.runs_publish hs token v location values _⟩

theorem keeps_insertRow (table : TableId) (key : Key) (values : List Bytes) :
    Keeps (insertRow table key values) P := by
  refine .bind (keeps_fingerprint key) fun group => .bind (keeps_tableState table) fun state => ?_
  split
  · exact .throw _
  · refine .bind (h.numberStable.keeps_allocateSeq _) fun seq s hs => ?_
    show Ends _ s fun _ => P
    refine Ends.caught ((h.keeps_storeVersion _ _ _).ends hs) (fun _ _ hs' => hs') fun e s' hs' => ?_
    exact ((h.numberStable.keeps_sequences _).bind fun _ => .throw e).ends hs'

end SetupStable

end StoreM

/-! ## What a store holds for a group -/

variable {g : GroupId} {history : List (List Bytes)} {room : Nat} {s : Store MemoryRows}
  {table : TableId} {key : Key} {issued : GroupId → Nat} {v : VersionId}

/-- The rows, the contents and the ring of a group are those of its history, and its table has at
least as many places. -/
def Beside (g : GroupId) (history : List (List Bytes)) (room : Nat) (s : Store MemoryRows) : Prop :=
  Backs g history s ∧ room ≤ (s.rows.places g.table).size

/-- And so are its numbers. -/
def Sheltered (g : GroupId) (history : List (List Bytes)) (room : Nat) (s : Store MemoryRows) :
    Prop :=
  ∃ issued : GroupId → Nat, issued g = history.length ∧ Numbered issued s ∧ Beside g history room s

theorem Sheltered.upholds (h : Sheltered g history room s) : Upholds g history s := by
  obtain ⟨issued, hissued, hnumbered, hbeside⟩ := h
  exact ⟨hbeside.1, issued, hissued, hnumbered⟩

theorem Sheltered.room_le (h : Sheltered g history room s) :
    room ≤ (s.rows.places g.table).size := by
  obtain ⟨-, -, -, hbeside⟩ := h
  exact hbeside.2

theorem Upholds.sheltered (h : Upholds g history s) (hroom : room ≤ (s.rows.places g.table).size) :
    Sheltered g history room s := by
  obtain ⟨issued, hissued, hnumbered⟩ := h.numbered
  exact ⟨issued, hissued, hnumbered, h.backs, hroom⟩

/-- Where nothing differs but the places that are cached and what else is cached of the group. -/
theorem Sheltered.quiet (h : Sheltered g history room s) {s' : Store MemoryRows}
    (hs' : Quiet (SaysOf g history) s s') : Sheltered g history room s' := by
  refine (h.upholds.quiet hs').sheltered ?_
  rw [hs'.rows.places]
  exact h.room_le

theorem callStable_beside (g : GroupId) (history : List (List Bytes)) (room : Nat) :
    CallStable (· ≠ g) (Beside g history room) where
  with_locations _ _ _ hs := ⟨⟨hs.1.filed, hs.1.serves, hs.1.staged, hs.1.ring⟩, hs.2⟩
  with_rows _ _ hrows hs :=
    ⟨hs.1.with_rows fun seq => hrows.stored ⟨g, seq⟩, (hrows.places g.table).symm ▸ hs.2⟩
  with_lookup _ key _ hs :=
    ⟨⟨hs.1.filed, (hs.1.serves.get key).2, hs.1.staged, hs.1.ring⟩, hs.2⟩
  with_put _ _ _ hkey hs :=
    ⟨⟨hs.1.filed, hs.1.serves.put fun hself => absurd hself hkey, hs.1.staged, hs.1.ring⟩, hs.2⟩
  with_call s command owner howner hother hs := by
    obtain ⟨hvalid, hrings⟩ := hs.1.staged.perform command
    refine ⟨⟨hs.1.filed, hs.1.serves, hvalid, fun ring hring => ?_⟩, hs.2⟩
    have hnot : ¬ command.IsFor g := fun hself => hother (command.isFor_unique howner hself)
    rcases hrings g hnot with hgone | hsame
    · cases hgone.symm.trans hring
    · exact hs.1.ring ring (hsame.symm.trans hring)
  with_scheduler _ _ hs := ⟨⟨hs.1.filed, hs.1.serves, hs.1.staged, hs.1.ring⟩, hs.2⟩

theorem numberStable_beside (g : GroupId) (history : List (List Bytes)) (room : Nat) :
    NumberStable (Beside g history room) where
  with_sequences _ _ hs := ⟨⟨hs.1.filed, hs.1.serves, hs.1.staged, hs.1.ring⟩, hs.2⟩
  with_rows := (callStable_beside g history room).with_rows

theorem callStable_numbered_beside (issued : GroupId → Nat) (g : GroupId)
    (history : List (List Bytes)) (room : Nat) :
    CallStable (· ≠ g) fun s => Numbered issued s ∧ Beside g history room s :=
  ((cacheStable_numbered issued).callStable.mono fun _ _ => trivial).and
    (callStable_beside g history room)

theorem callStable_sheltered (g : GroupId) (history : List (List Bytes)) (room : Nat) :
    CallStable (· ≠ g) (Sheltered g history room) :=
  .exists fun issued => callStable_numbered_beside issued g history room

theorem keeps_latestSeq_sheltered (g : GroupId) (history : List (List Bytes)) (room : Nat)
    (table : TableId) (key : Key) : Keeps (latestSeq table key) (Sheltered g history room) :=
  .exists fun _ => Numbered.keeps_latestSeq (numberStable_beside g history room) table key

/-! ## Inserting into another group -/

/-- The version of another group was stored, or its number is still to be given back. -/
def StoredBeside (issued : GroupId → Nat) (g : GroupId) (history : List (List Bytes)) (room : Nat)
    (v : VersionId) : Except StoreError Outcome → Store MemoryRows → Prop
  | .ok _, s => Sheltered g history room s
  | .error _, s => Granted issued v.toGroupId v.seq s ∧ Beside g history room s

/-- The rows of a table get one more, which is of another group. -/
theorem Beside.push (h : Beside g history room s) (hv : v.toGroupId ≠ g)
    (hgranted : Granted issued v.toGroupId v.seq s) (hissued : issued g = history.length)
    {rows : MemoryRows} {columns : Array Bytes}
    (hrows : Replaced s.rows rows v.table ((s.rows.rowsOf v.table).push ⟨v.group, v.seq, columns⟩)) :
    ∃ issued', issued' g = history.length ∧ Numbered issued' { s with rows } ∧
      Beside g history room { s with rows } := by
  obtain ⟨hvalid, hstored⟩ := stored_push hrows hgranted.valid hgranted.stored_eq_none
  refine ⟨issuedWith issued v, (issuedWith_of_ne hv.symm).trans hissued,
    hgranted.push_issuedWith hvalid hstored, ?_, ?_⟩
  · refine h.1.with_rows fun seq => (hstored ⟨g, seq⟩).trans (if_neg ?_)
    exact fun heq => hv (congrArg VersionId.toGroupId heq).symm
  · refine h.2.trans (hrows.size_le ?_ g.table)
    unfold TableRows.push
    rw [Array.size_push]
    exact Nat.le_succ _

theorem Beside.ends_storeVersion (h : Beside g history room s) (hv : v.toGroupId ≠ g)
    (hgranted : Granted issued v.toGroupId v.seq s) (hissued : issued g = history.length)
    (settings : TableSettings) (values : List Bytes) :
    Ends (storeVersion v settings values) s (StoredBeside issued g history room v) := by
  have hstable : CallStable (· ≠ g) fun s =>
      Granted issued v.toGroupId v.seq s ∧ Beside g history room s :=
    ((cacheStable_granted issued v.toGroupId v.seq).callStable.mono fun _ _ => trivial).and
      (callStable_beside g history room)
  refine Ends.bind (hstable.ends_claimSlot hv settings.depth values.length ⟨hgranted, h⟩)
    (fun token s₁ hs₁ => ?_) fun _ _ hs₁ => hs₁.1
  have htoken : token.owner ≠ g := by
    rw [hs₁.2 token rfl]
    exact hv
  refine Ends.bind ((hstable.keeps_encodeColumns hv htoken _ _ _ _).ends hs₁.1)
    (fun records s₂ hs₂ => ?_) fun _ _ hs₂ => hs₂
  obtain ⟨hgranted₂, h₂⟩ := hs₂
  rcases append_cases s₂.rows v.table ⟨v.group, v.seq, records.map (·.bytes)⟩ with
    ⟨cause, rows, happend, hrows⟩ | ⟨location, rows, happend, hrows⟩
  · -- the row is not taken
    have hstored := stored_congr hrows
    refine (Runs.bind_error (runs_onRows_error happend ?_)).ends fun _ hs => hs
    refine ⟨hgranted₂.with_rows (hgranted₂.valid.congr hrows) fun w _ hrow =>
      (hstored w).symm.trans hrow, h₂.1.with_rows fun seq => hstored ⟨g, seq⟩, ?_⟩
    have hplaces : rows.places g.table = s₂.rows.places g.table :=
      congrArg TableRows.rows (hrows g.table)
    exact hplaces.symm ▸ h₂.2
  · obtain ⟨issued', hissued', hpushed⟩ := h₂.push hv hgranted₂ hissued hrows
    refine Ends.bind_of_eq (onRows_eq happend) ?_
    refine ((callStable_numbered_beside issued' g history room).runs_publish hpushed htoken hv
      location values _).ends fun s' hs' => ?_
    exact ⟨issued', hissued', hs'⟩

/-- An insert into another group leaves the group alone, whether it succeeds or not. -/
theorem Sheltered.ends_insertRow (h : Sheltered g history room s)
    (hother : key.fingerprint s.unpacker = .ok g.group → table ≠ g.table) (values : List Bytes) :
    Ends (insertRow table key values) s fun _ => Sheltered g history room := by
  cases hkey : key.fingerprint s.unpacker with
  | error cause => exact (Runs.bind_error (runs_fingerprint_error hkey h)).ends fun _ hs => hs
  | ok group =>
    refine Ends.bind_of_eq (fingerprint_eq hkey) ?_
    cases htable : s.tables[table]? with
    | none => exact (Runs.bind_error (runs_tableState_error htable h)).ends fun _ hs => hs
    | some state =>
      refine Ends.bind_of_eq (tableState_eq htable) ?_
      split
      · exact h
      · have hne : (⟨table, group⟩ : GroupId) ≠ g := by
          rintro rfl
          exact hother hkey rfl
        obtain ⟨issued, hissued, hnumbered, hbeside⟩ := h
        obtain ⟨seq, s₁, hseq, hgranted, h₁⟩ :=
          hnumbered.runs_allocateSeq (numberStable_beside g history room) hbeside ⟨table, group⟩
        refine Ends.bind_of_eq hseq ?_
        refine (h₁.ends_storeVersion (v := ⟨⟨table, group⟩, seq⟩) hne hgranted hissued _ _).caught
          (fun _ s₂ hs₂ => hs₂) fun e s₂ hs₂ => ?_
        -- the number goes back
        refine Ends.bind_of_eq (sequences_eq _ s₂) ⟨issued, hissued, ?_, ?_⟩
        · exact hs₂.1.rollback
        · exact (numberStable_beside g history room).with_sequences s₂ _ hs₂.2

/-! ## Reading another group -/

theorem Sheltered.ends_getVersion (h : Sheltered g history room s)
    (hother : key.fingerprint s.unpacker = .ok g.group → table ≠ g.table) (seq : Nat) :
    Ends (getVersion table key seq) s fun _ => Sheltered g history room := by
  refine StoreM.ends_getVersion h fun state group _ hkey => ?_
  refine (callStable_sheltered g history room).keeps_readColumns ?_ 0 #[] state.columns s h
  rintro rfl
  exact hother hkey rfl

theorem Sheltered.ends_getColumn (h : Sheltered g history room s)
    (hother : key.fingerprint s.unpacker = .ok g.group → table ≠ g.table) (seq column : Nat) :
    Ends (getColumn table key seq column) s fun _ => Sheltered g history room := by
  refine StoreM.ends_getColumn h fun state group _ _ hkey => ?_
  refine (callStable_sheltered g history room).keeps_resolve ?_ column s h
  rintro rfl
  exact hother hkey rfl

/-! ## Rows of other groups -/

/-- Other versions may be stored differently, or no longer. -/
theorem Sheltered.with_rows (h : Sheltered g history room s) {rows : MemoryRows}
    (hvalid : rows.Valid)
    (hversions : ∀ v row, rows.stored v = some row → ∃ row', s.rows.stored v = some row')
    (hstored : ∀ seq, rows.stored ⟨g, seq⟩ = s.rows.stored ⟨g, seq⟩)
    (hroom : (s.rows.places g.table).size ≤ (rows.places g.table).size) :
    Sheltered g history room { s with rows } := by
  obtain ⟨issued, hissued, hnumbered, hbacks, hle⟩ := h
  exact ⟨issued, hissued, hnumbered.with_versions hvalid hversions, hbacks.with_rows hstored,
    hle.trans hroom⟩

/-- Any row may be moved. -/
theorem Sheltered.relocate (h : Sheltered g history room s) (p : PlaceId) :
    Sheltered g history room { s with rows := (s.rows.relocate p).2 } := by
  rcases replaced_relocate (m := s.rows) p with ⟨slot, row, -, hrow, -, hmoved⟩ | ⟨-, hsame⟩
  · obtain ⟨hvalid, hstored⟩ := stored_move hrow hmoved h.upholds.valid
    refine h.with_rows hvalid (fun v row hfound => ⟨row, (hstored v).symm.trans hfound⟩)
      (fun seq => hstored ⟨g, seq⟩) (hmoved.size_le ?_ g.table)
    rw [TableRows.size_push, TableRows.size_vacate]
    exact Nat.le_succ _
  · rw [hsame]
    exact h

theorem Sheltered.remove (h : Sheltered g history room s) {p : PlaceId}
    (hmisses : s.rows.Misses p g) :
    Sheltered g history room { s with rows := (s.rows.remove p).2 } := by
  have hvalid := h.upholds.valid
  obtain ⟨hvalid', hversions⟩ := stored_remove hvalid p
  refine h.with_rows hvalid' (fun v row hrow => ⟨row, hversions v row hrow⟩)
    (stored_remove_other hvalid hmisses) ?_
  rcases replaced_remove (m := s.rows) p with ⟨slot, row, -, -, -, hremoved⟩ | hsame
  · exact hremoved.size_le (TableRows.size_delete _ _ _).ge g.table
  · rw [hsame]

theorem Sheltered.overwrite (h : Sheltered g history room s) {p : PlaceId}
    (hmisses : s.rows.Misses p g) (column : Nat) (record : Bytes) :
    Sheltered g history room { s with rows := (s.rows.overwrite p column record).2 } := by
  have hvalid := h.upholds.valid
  obtain ⟨hvalid', hversions⟩ := stored_overwrite hvalid p column record
  refine h.with_rows hvalid' (fun v row hrow => (hversions v).mp ⟨row, hrow⟩)
    (stored_overwrite_other hvalid hmisses column record) ?_
  rcases replaced_overwrite (m := s.rows) p column record with
    ⟨slot, row, row', -, -, -, -, hchanged⟩ | hsame
  · exact hchanged.size_le (TableRows.size_replace _ _ _).ge g.table
  · rw [hsame]

/-- The store may reject any appends. -/
theorem Sheltered.with_rejecting (h : Sheltered g history room s) (count : Nat) :
    Sheltered g history room { s with rows := { s.rows with rejecting := count } } := by
  have hrows : ∀ table, rowsOf { s.rows with rejecting := count } table = s.rows.rowsOf table :=
    fun _ => rfl
  have hstored := stored_congr hrows
  exact h.with_rows (h.upholds.valid.congr hrows) (fun v row hrow => ⟨row, (hstored v).symm.trans hrow⟩)
    (fun seq => hstored ⟨g, seq⟩) (Nat.le_refl _)

/-! ## Tables -/

theorem keeps_invalidatePart_sheltered (g : GroupId) (history : List (List Bytes)) (room : Nat)
    (part : ServicePart) (table : TableId) :
    Keeps (invalidatePart part table) (Sheltered g history room) := by
  rintro s ⟨issued, hissued, hnumbered, hbacks, hroom⟩
  cases part with
  | sequences =>
    exact ⟨issued, hissued, hnumbered.invalidate_sequences table,
      ⟨hbacks.filed, hbacks.serves, hbacks.staged, hbacks.ring⟩, hroom⟩
  | locations =>
    exact ⟨issued, hissued, hnumbered.congr rfl rfl,
      ⟨hbacks.filed, hbacks.serves, hbacks.staged, hbacks.ring⟩, hroom⟩
  | content =>
    exact ⟨issued, hissued, hnumbered.congr rfl rfl,
      ⟨hbacks.filed, hbacks.serves.invalidate table fun _ _ _ hvalue => hvalue, hbacks.staged,
        hbacks.ring⟩, hroom⟩
  | staging =>
    obtain ⟨hvalid, hrings⟩ := hbacks.staged.invalidate table
    refine ⟨issued, hissued, hnumbered.congr rfl rfl,
      ⟨hbacks.filed, hbacks.serves, hvalid, fun ring hring => ?_⟩, hroom⟩
    -- a ring that is left is as it was
    have hleft := (hrings g).symm.trans hring
    split at hleft
    · cases hleft
    · exact hbacks.ring ring hleft

/-- A table is forgotten in one part after the other. -/
theorem Sheltered.invalidate (h : Sheltered g history room s) (table : TableId) :
    Sheltered g history room { s with service := (s.service.invalidate table).2 } := by
  have hkeeps := keeps_invalidatePart_sheltered g history room
  exact hkeeps .staging table _ (hkeeps .content table _ (hkeeps .locations table _
    (hkeeps .sequences table _ h)))

/-- What is sheltered lies in the service and in the rows. -/
theorem Sheltered.congr (h : Sheltered g history room s) {s' : Store MemoryRows}
    (hservice : s'.service = s.service) (hrows : s'.rows = s.rows) :
    Sheltered g history room s' := by
  obtain ⟨issued, hissued, hnumbered, hbacks, hroom⟩ := h
  refine ⟨issued, hissued, hnumbered.congr ?_ ?_, ⟨?_, ?_, ?_, ?_⟩, ?_⟩
  · rw [hservice]
  · rw [hrows]
    rfl
  · rw [hrows]
    exact hbacks.filed
  · rw [hservice]
    exact hbacks.serves
  · rw [hservice]
    exact hbacks.staged
  · rw [hservice]
    exact hbacks.ring
  · rw [hrows]
    exact hroom

theorem Sheltered.clear (h : Sheltered g history room s) (htable : table ≠ g.table)
    {rows : MemoryRows} (hrows : Replaced s.rows rows table {}) :
    Sheltered g history room { s with service := (s.service.invalidate table).2, rows } := by
  obtain ⟨hvalid, hstored⟩ := stored_clear hrows h.upholds.valid
  have hcleared : Sheltered g history room { s with rows } := by
    refine h.with_rows hvalid (fun v row hrow => ?_)
      (fun seq => (hstored ⟨g, seq⟩).trans (if_neg htable.symm)) (Nat.le_of_eq ?_)
    · rw [hstored] at hrow
      split at hrow
      · cases hrow
      · exact ⟨row, hrow⟩
    · unfold MemoryRows.places
      rw [hrows.rowsOf, if_neg htable.symm]
  exact hcleared.invalidate table

theorem keeps_createTable_sheltered (g : GroupId) (history : List (List Bytes)) (room : Nat)
    (table : TableId) (columns : Nat) (settings : TableSettings) :
    Keeps (createTable table columns settings) (Sheltered g history room) := by
  intro s hs
  by_cases hcond : settings.validate = .ok () ∧ columns ≤ maxColumns ∧ s.tables[table]? = none
  · rw [createTable_eq hcond.1 hcond.2.1 hcond.2.2]
    exact (hs.invalidate table).congr rfl rfl
  · obtain ⟨cause, heq⟩ := createTable_eq_error hcond
    rw [heq]
    exact hs

theorem Sheltered.ends_truncate (h : Sheltered g history room s) (hother : table ≠ g.table) :
    Ends (StoreM.truncate table) s fun _ => Sheltered g history room := by
  cases htable : s.tables[table]? with
  | none => exact (Runs.bind_error (runs_tableState_error htable h)).ends fun _ hs => hs
  | some state =>
    refine Ends.bind_of_eq (tableState_eq htable) (Ends.bind_of_eq (onRows_eq rfl) ?_)
    exact (h.clear hother (replaced_truncate table)).congr rfl rfl

theorem Sheltered.ends_dropTable (h : Sheltered g history room s) (hother : table ≠ g.table) :
    Ends (dropTable table) s fun _ => Sheltered g history room := by
  cases htable : s.tables[table]? with
  | none => exact (Runs.bind_error (runs_tableState_error htable h)).ends fun _ hs => hs
  | some state =>
    refine Ends.bind_of_eq (tableState_eq htable) (Ends.bind_of_eq (onRows_eq rfl) ?_)
    exact (h.clear hother (replaced_drop table)).congr rfl rfl

end VersionChain
