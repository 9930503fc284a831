import VersionChain.Proofs.Store.GroupSteps

/-!
# Groups do not influence each other

All groups of a service compete for its caches, its staging slots and its numbers, and in the rows
they lie side by side. Whatever is done to other groups, by this store or by another one over the
same service and rows, what is replied on a group is the same as if none of it had happened.

* `Happening` — what can happen to a store that shares its service and its rows;
* `Run.Spares` — the rows of the group are inserted and moved only;
* `Run.kept?`, `Run.redo` — what is left of a happening without other groups, and doing that alone;
* `Twins` — two runs that stand for the same account of the group;
* `Run.replies_eq_redone` — the replies on the group are the same in both runs.
-/

namespace VersionChain

open StoreM MemoryRows

/-- The place of a version of a group, among the rows of the group. -/
def MemoryRows.placeOf? (m : MemoryRows) (v : VersionId) : Option PlaceId :=
  ((m.ofGroup v.toGroupId).find? fun p => p.2.seq = v.seq).map fun p => ⟨v.table, p.1⟩

/-- What can happen to a store that shares its service and its rows. -/
inductive Happening where
  | command (command : Command)
  /-- Another store over the same service and rows carries out a command. -/
  | visit (guest : Run) (command : Command)
  | remove (place : PlaceId)
  | overwrite (place : PlaceId) (column : Nat) (record : Bytes)

/-- What is left of a happening without other groups. -/
inductive Kept where
  /-- A command, and why the row store would have refused a row of the group. -/
  | command (refusal : Option RowError) (command : Command)
  /-- The row of a version of the group is moved. -/
  | move (seq : Nat)

/-- The error with the cause that the row store had given. -/
def StoreError.refusedBy (cause : RowError) : StoreError → StoreError
  | .rows (.appending seq table) _ => .rows (.appending seq table) cause
  | error => error

/-- The reply with the cause that the row store had given, if it had refused the row. -/
def GroupReply.refusedBy : (refusal : Option RowError) → GroupReply → GroupReply
  | some cause, .inserted result => .inserted (result.mapError (·.refusedBy cause))
  | _, reply => reply

namespace Run

/-! ## All that happens -/

/-- A guest that takes over the service and the rows. -/
def taking (guest r : Run) : Run :=
  { guest with store := { guest.store with service := r.store.service, rows := r.store.rows } }

/-- The run with the service and the rows that a guest has left. -/
def leftBy (r guest : Run) : Run :=
  { r with store := { r.store with service := guest.store.service, rows := guest.store.rows } }

def happen (services : Nat → ServiceSettings) (r : Run) : Happening → Run
  | .command command => r.step services command
  | .visit guest command => r.leftBy ((guest.taking r).step services command)
  | .remove place => { r with store.rows := (r.store.rows.remove place).2 }
  | .overwrite place column record =>
    { r with store.rows := (r.store.rows.overwrite place column record).2 }

/-- The rows of the group are inserted and moved only, and by this store. -/
def Spares (g : GroupId) (r : Run) : Happening → Prop
  | .command command => command.Spares g
  | .visit guest command => command.Spares g ∧ command.on? guest.store.unpacker g = none
  | .remove place => r.store.rows.Misses place g
  | .overwrite place _ _ => r.store.rows.Misses place g

/-- All through the run, the rows of the group are inserted and moved only. -/
def SparesAll (services : Nat → ServiceSettings) (g : GroupId) : Run → List Happening → Prop
  | _, [] => True
  | r, first :: later => r.Spares g first ∧ SparesAll services g (r.happen services first) later

/-- What the store replies on the group. -/
def replyTo (g : GroupId) (r : Run) : Happening → Option GroupReply
  | .command command => r.replyOn g command
  | _ => none

/-- All replies on the group, in the order in which they are given. -/
def replies (services : Nat → ServiceSettings) (g : GroupId) :
    Run → List Happening → List GroupReply
  | _, [] => []
  | r, first :: later =>
    (r.replyTo g first).toList ++ replies services g (r.happen services first) later

/-! ## The group alone -/

/-- What is left of a happening without other groups and other tables. Commands that are about
numeric locations are left out, and so are guests; of a row of the group that is moved, it is noted
which one it is. -/
def kept? (g : GroupId) (r : Run) : Happening → Option Kept
  | .command (.relocate place) =>
    (r.store.rows.row? place).bind fun row =>
      if (⟨place.table, row.group⟩ : GroupId) = g then some (.move row.seq) else none
  | .command command =>
    if command.isElsewhere r.store.unpacker g then none
    else some (.command (r.store.rows.refusal g.table) command)
  | _ => none

/-- All that is left. -/
def kept (services : Nat → ServiceSettings) (g : GroupId) : Run → List Happening → List Kept
  | _, [] => []
  | r, first :: later => (r.kept? g first).toList ++ kept services g (r.happen services first) later

/-- The row store refuses the next row if it had refused it, and takes it otherwise. -/
def refusing (r : Run) (refusal : Option RowError) : Run :=
  { r with store.rows.rejecting := if refusal.isSome then 1 else 0 }

def redo (services : Nat → ServiceSettings) (g : GroupId) (r : Run) : Kept → Run
  | .command refusal command => (r.refusing refusal).step services command
  | .move seq =>
    match r.store.rows.placeOf? ⟨g, seq⟩ with
    | some place => r.step services (.relocate place)
    | none => r

/-- What the store replies on the group. -/
def replyToKept (g : GroupId) (r : Run) : Kept → Option GroupReply
  | .command refusal command =>
    ((r.refusing refusal).replyOn g command).map (GroupReply.refusedBy refusal)
  | .move _ => none

/-- All replies on the group, in the order in which they are given. -/
def redone (services : Nat → ServiceSettings) (g : GroupId) : Run → List Kept → List GroupReply
  | _, [] => []
  | r, first :: later =>
    (r.replyToKept g first).toList ++ redone services g (r.redo services g first) later

end Run

variable {g : GroupId} {a : Account} {room : Nat} {r r' : Run} {command : Command}
  {refusal : Option RowError}

/-! ## Refused rows -/

/-- A row that had been refused is refused, and any other is taken if there is room. -/
theorem Run.refusal_refusing {table : TableId}
    (hroom : refusal = none → (r.store.rows.places table).size < slotLimit) :
    (r.refusing refusal).store.rows.refusal table = refusal.map fun _ => .rejected table := by
  cases refusal with
  | some cause => exact if_pos Nat.one_pos
  | none => exact (if_neg (Nat.lt_irrefl 0)).trans (if_neg (Nat.not_le.mpr (hroom rfl)))

theorem MemoryRows.size_lt_of_refusal {m : MemoryRows} {table : TableId}
    (h : m.refusal table = none) : (m.places table).size < slotLimit := by
  unfold MemoryRows.refusal at h
  split at h
  · cases h
  · split at h
    · cases h
    · rename_i hroom
      exact Nat.not_le.mp hroom

namespace Account

/-- What an insert gives does not depend on why its row is refused, but for the cause. -/
theorem insert_refused (a : Account) (g : GroupId) (values : List Bytes) (cause other : RowError) :
    (a.insert g (some other) values).mapError (·.refusedBy cause) =
      a.insert g (some cause) values := by
  unfold Account.insert inserting
  cases a.table with
  | none => rfl
  | some state =>
    simp only
    split
    · rfl
    · unfold storing
      simp only
      split <;> rfl

theorem reply_refused (a : Account) (g : GroupId) (asked : GroupCommand) :
    (a.reply g (refusal.map fun _ => .rejected g.table) asked).refusedBy refusal =
      a.reply g refusal asked := by
  cases refusal with
  | none => rfl
  | some cause =>
    cases asked with
    | insert transaction values =>
      exact congrArg GroupReply.inserted (a.insert_refused g values cause _)
    | _ => rfl

/-- The same inserts succeed. -/
theorem after_refused (a : Account) (g : GroupId) (refusal : Option RowError) (command : Command)
    (other : RowError) :
    a.after g (refusal.map fun _ => other) command = a.after g refusal command ∧
    a.takes g (refusal.map fun _ => other) command = a.takes g refusal command := by
  cases refusal with
  | none => exact ⟨rfl, rfl⟩
  | some cause =>
    cases command with
    | insert transaction table key values =>
      have hfailed : ∀ cause, ∃ error, a.insert g (some cause) values = .error error := by
        intro cause
        cases hresult : a.insert g (some cause) values with
        | error error => exact ⟨error, rfl⟩
        | ok written => cases (insert_eq_ok hresult).2.1
      obtain ⟨error, herror⟩ := hfailed cause
      obtain ⟨error', herror'⟩ := hfailed other
      unfold Account.after Account.takes
      simp only [Option.map_some, herror, herror']
      exact ⟨rfl, rfl⟩
    | _ => exact ⟨rfl, rfl⟩

end Account

/-! ## What makes no difference to the group -/

namespace Isolated

variable (h : Isolated g a room r)

include h

theorem mono {room' : Nat} (hle : room' ≤ room) : Isolated g a room' r :=
  ⟨h.sound, h.describes, h.sheltered.upholds.sheltered (hle.trans h.sheltered.room_le)⟩

theorem with_store {service : Service} {rows : MemoryRows} {room' : Nat}
    (hsheltered : Sheltered g a.history room' { r.store with service, rows }) :
    Isolated g a room' { r with store := { r.store with service, rows } } :=
  ⟨h.sound, h.describes.of_setup (setupStable_sameSetup r.store r.store service rows (.refl _)),
    hsheltered⟩

theorem refusing (refusal : Option RowError) : Isolated g a room (r.refusing refusal) :=
  h.with_store (h.sheltered.with_rejecting _)

/-- Another store does something that is not for the group. -/
theorem visit (services : Nat → ServiceSettings) {guest : Run} (hspares : command.Spares g)
    (hother : command.on? guest.store.unpacker g = none) :
    Isolated g a room (r.happen services (.visit guest command)) := by
  have htaken : Sheltered g a.history room (guest.taking r).store := h.sheltered.congr rfl rfl
  exact h.with_store ((htaken.step services hspares hother).congr rfl rfl)

/-- A row is moved. -/
theorem relocate (services : Nat → ServiceSettings) (place : PlaceId) {room' : Nat}
    (hroom : room' ≤ ((r.store.rows.relocate place).2.places g.table).size) :
    Isolated g a room' (r.step services (.relocate place)) :=
  h.with_store ((h.sheltered.relocate place).upholds.sheltered hroom)

end Isolated

/-! ## Moving a row -/

theorem MemoryRows.size_relocate_le (m : MemoryRows) (place : PlaceId) (table : TableId) :
    ((m.relocate place).2.places table).size ≤ (m.places table).size + 1 := by
  rcases replaced_relocate (m := m) place with ⟨slot, row, -, -, -, hmoved⟩ | ⟨-, hsame⟩
  · unfold places
    rw [hmoved.rowsOf]
    split
    · rename_i htable
      rw [htable, TableRows.size_push, TableRows.size_vacate]
    · exact Nat.le_succ _
  · rw [hsame]
    exact Nat.le_succ _

theorem MemoryRows.size_relocate {m : MemoryRows} {place : PlaceId} {row : StoredRow}
    (hrow : m.row? place = some row) :
    ((m.relocate place).2.places place.table).size = (m.places place.table).size + 1 := by
  rcases replaced_relocate (m := m) place with ⟨slot, other, -, -, -, hmoved⟩ | ⟨hnone, -⟩
  · unfold places
    rw [hmoved.rowsOf, if_pos rfl, TableRows.size_push, TableRows.size_vacate]
  · cases hnone.symm.trans hrow

/-! ## Two runs -/

/-- Both runs stand for the same account of the group. In the first one, the table of the group has
at least as many places as in the second one. -/
def Twins (g : GroupId) (r r' : Run) : Prop :=
  ∃ a room, Isolated g a room r ∧ Isolated g a 0 r' ∧
    (r'.store.rows.places g.table).size ≤ room

namespace Twins

variable (h : Twins g r r') (services : Nat → ServiceSettings)

include h

/-- A command for other groups makes no difference. -/
theorem elsewhere (hspares : command.Spares g)
    (helsewhere : command.isElsewhere r.store.unpacker g = true) :
    r.replyOn g command = none ∧ Twins g (r.step services command) r' := by
  obtain ⟨a, room, hr, hr', hsize⟩ := h
  rw [hr.describes.unpacker] at helsewhere
  refine ⟨?_, a, room, ?_, hr', hsize⟩
  · rw [hr.replyOn, Command.on?_of_isElsewhere helsewhere]
    rfl
  · obtain ⟨hafter, htakes⟩ :=
      Account.after_of_isElsewhere (r.store.rows.refusal g.table) helsewhere
    have hstep := hr.step services hspares
    rw [hafter, htakes] at hstep
    exact hstep

/-- A command that is not for other groups does the same in both runs, if the same row is
refused. -/
theorem here (hspares : command.Spares g)
    (hhere : command.isElsewhere r.store.unpacker g = false) :
    let kept : Kept := .command (r.store.rows.refusal g.table) command
    r.replyOn g command = r'.replyToKept g kept ∧
      Twins g (r.step services command) (r'.redo services g kept) := by
  obtain ⟨a, room, hr, hr', hsize⟩ := h
  intro kept
  rw [hr.describes.unpacker] at hhere
  have hredo := hr'.refusing (r.store.rows.refusal g.table)
  -- the second run has room for the row if the first one has
  have hrefusal : (r'.refusing (r.store.rows.refusal g.table)).store.rows.refusal g.table =
      (r.store.rows.refusal g.table).map fun _ => .rejected g.table :=
    Run.refusal_refusing fun hnone =>
      (hsize.trans hr.sheltered.room_le).trans_lt (size_lt_of_refusal hnone)
  obtain ⟨hafter, htakes⟩ :=
    a.after_refused g (r.store.rows.refusal g.table) command (.rejected g.table)
  have hstep := hredo.step services hspares
  have hgrown := hredo.size_step services hspares hhere
  rw [hrefusal, htakes] at hgrown
  rw [hrefusal, hafter] at hstep
  refine ⟨?_, _, _, hr.step services hspares, hstep.mono (Nat.zero_le _), ?_⟩
  · show _ = ((r'.refusing _).replyOn g command).map _
    rw [hr.replyOn, hredo.replyOn, hrefusal, Option.map_map]
    exact congrArg (Option.map · _) (funext fun asked => (a.reply_refused g asked).symm)
  · refine Nat.le_trans (Nat.le_of_eq hgrown) (Nat.add_le_add_right ?_ _)
    exact hsize

/-- The row of a version is moved in both runs. -/
theorem move {place : PlaceId} {row : StoredRow} (hrow : r.store.rows.row? place = some row)
    (htable : place.table = g.table) (seq : Nat) :
    Twins g (r.step services (.relocate place)) (r'.redo services g (.move seq)) := by
  obtain ⟨a, room, hr, hr', hsize⟩ := h
  have hgrown := size_relocate hrow
  rw [htable] at hgrown
  have hroom := hr.sheltered.room_le
  refine ⟨a, room + 1, hr.relocate services place (by omega), ?_⟩
  unfold Run.redo
  simp only
  split
  · rename_i other _
    have hother := r'.store.rows.size_relocate_le other g.table
    refine ⟨hr'.relocate services other (Nat.zero_le _), hother.trans ?_⟩
    exact Nat.succ_le_succ hsize
  · exact ⟨hr', Nat.le_succ_of_le hsize⟩

omit h in
theorem kept?_command (hnot : ∀ place, command ≠ .relocate place) :
    r.kept? g (.command command) =
      if command.isElsewhere r.store.unpacker g then none
      else some (.command (r.store.rows.refusal g.table) command) := by
  cases command with
  | relocate place => exact absurd rfl (hnot place)
  | _ => rfl

/-- A happening of which nothing is left makes no difference; of any other, what is left does the
same, and gets the same reply. -/
theorem happen {happening : Happening} (hspares : r.Spares g happening) :
    (r.kept? g happening = none ∧ r.replyTo g happening = none ∧
      Twins g (r.happen services happening) r') ∨
    ∃ kept, r.kept? g happening = some kept ∧ r.replyTo g happening = r'.replyToKept g kept ∧
      Twins g (r.happen services happening) (r'.redo services g kept) := by
  cases happening with
  | command command =>
    by_cases hmove : ∃ place, command = .relocate place
    · obtain ⟨place, rfl⟩ := hmove
      have hmoved : Command.Spares g (.relocate place) := trivial
      obtain ⟨hreply, htwins⟩ := h.elsewhere services hmoved rfl
      cases hkept : r.kept? g (.command (.relocate place)) with
      | none => exact .inl ⟨rfl, hreply, htwins⟩
      | some kept =>
        -- the row is one of the group
        obtain ⟨row, hrow, hself⟩ := Option.bind_eq_some_iff.mp hkept
        obtain ⟨hgroup, ⟨⟩⟩ := Option.ite_none_right_eq_some.mp hself
        exact .inr ⟨_, rfl, hreply, h.move services hrow (congrArg GroupId.table hgroup) row.seq⟩
    · rw [kept?_command fun place heq => hmove ⟨place, heq⟩]
      cases hcase : command.isElsewhere r.store.unpacker g with
      | true => exact .inl ⟨rfl, h.elsewhere services hspares hcase⟩
      | false => exact .inr ⟨_, rfl, h.here services hspares hcase⟩
  | visit guest command =>
    obtain ⟨a, room, hr, hr', hsize⟩ := h
    exact .inl ⟨rfl, rfl, a, room, hr.visit services hspares.1 hspares.2, hr', hsize⟩
  | remove place =>
    obtain ⟨a, room, hr, hr', hsize⟩ := h
    exact .inl ⟨rfl, rfl, a, room, hr.with_store (hr.sheltered.remove hspares), hr', hsize⟩
  | overwrite place column record =>
    obtain ⟨a, room, hr, hr', hsize⟩ := h
    exact .inl ⟨rfl, rfl, a, room, hr.with_store (hr.sheltered.overwrite hspares column record),
      hr', hsize⟩

theorem replies_eq {happenings : List Happening} (hspares : r.SparesAll services g happenings) :
    r.replies services g happenings = r'.redone services g (r.kept services g happenings) := by
  induction happenings generalizing r r' with
  | nil => rfl
  | cons first later ih =>
    obtain ⟨hfirst, hlater⟩ := hspares
    show (r.replyTo g first).toList ++ _ = r'.redone services g ((r.kept? g first).toList ++ _)
    rcases h.happen services hfirst with ⟨hleft, hreply, htwins⟩ | ⟨kept, hkept, hreply, htwins⟩
    · rw [hleft, hreply]
      exact ih htwins hlater
    · rw [hkept, hreply]
      exact congrArg ((r'.replyToKept g kept).toList ++ ·) (ih htwins hlater)

end Twins

/-! ## Whole runs -/

/-- At the start, no group has any rows. -/
theorem isolated_start (services : Nat → ServiceSettings) (indexed : Bool) (coder : DiffCoder)
    (unpacker : Unpacker) (g : GroupId) :
    Isolated g { coder, unpacker } 0 (.start services indexed coder unpacker) := by
  have hblank := blank_ofSettings (services 0)
  have hrings := hblank.rings (fun _ => contentAt []) fun _ => 0
  refine ⟨⟨nofun, fun _ => rfl⟩, ⟨rfl, rfl, Std.HashMap.getElem?_empty, Statistics.get?_empty g,
    fun _ => Statistics.get?_empty g⟩, fun _ => 0, rfl, hblank.numbered indexed coder.codec unpacker,
    ⟨?_, hblank.content _, hrings.valid, fun ring hring => ?_⟩, Nat.zero_le _⟩
  · exact filed_nil fun seq => stored_empty indexed ⟨g, seq⟩
  · exact hrings.records g ring hring

namespace Run

/-- Whatever is done to other groups, to other tables and by other stores over the same service and
rows, what is replied on a group is the same as if all of that is left out. -/
theorem replies_eq_redone (services : Nat → ServiceSettings) (indexed : Bool) (coder : DiffCoder)
    (unpacker : Unpacker) (g : GroupId) (happenings : List Happening)
    (hspares : (start services indexed coder unpacker).SparesAll services g happenings) :
    let r := start services indexed coder unpacker
    r.replies services g happenings = r.redone services g (r.kept services g happenings) := by
  intro r
  have hstart : Isolated g { coder, unpacker } 0 r :=
    isolated_start services indexed coder unpacker g
  have htwins : Twins g r r := by
    refine ⟨_, 0, hstart, hstart, Nat.le_of_eq ?_⟩
    show (rowsOf { indexed } g.table).rows.size = 0
    rw [rowsOf_empty]
    rfl
  exact htwins.replies_eq services hspares

/-- Another group in the same table, another table, a guest, and a row that is removed. -/
theorem replies_eq_redone_other_groups :
    let services : Nat → ServiceSettings := fun _ => { stagingSlots := 1, sequenceMb := 0 }
    let g : GroupId := ⟨1, .zero⟩
    let r := start services true {} .inRowOnly
    let happenings : List Happening :=
      [.command (.createTable 1 1 {}), .command (.createTable 2 1 {}),
        .command (.insert none 1 .null [#[1, 2, 3]]), .command (.rejectAppends 1),
        .command (.insert none 1 (.bool true) [#[4]]), .command (.insert none 2 .null [#[5]]),
        .command (.insert none 1 .null [#[1, 2, 4]]), .visit r (.createTable 3 1 {}),
        .remove ⟨2, locationOf 2 0⟩, .command (.relocate ⟨1, locationOf 1 0⟩),
        .command (.truncate 2), .command (.getVersion 1 .null 2)]
    r.SparesAll services g happenings ∧
      r.replies services g happenings = r.redone services g (r.kept services g happenings) := by
  intro services g r happenings
  have hspares : r.SparesAll services g happenings := by
    refine ⟨trivial, trivial, trivial, trivial, trivial, trivial, trivial, ⟨trivial, rfl⟩, ?_,
      trivial, ?_, trivial, trivial⟩
    · -- the place is in another table
      have hne : (2 : TableId) ≠ 1 := by decide
      exact fun row _ hself => hne (congrArg GroupId.table hself)
    · exact show (2 : TableId) ≠ 1 by decide
  exact ⟨hspares, replies_eq_redone services true {} .inRowOnly g happenings hspares⟩

end Run

end VersionChain
