import VersionChain.Proofs.Shell.Lines
import VersionChain.Proofs.Store.Changes
import VersionChain.Proofs.Store.Numbering
import VersionChain.Proofs.Store.Reads
import VersionChain.Shell.Session

/-!
# Notes of a session

Whoever talks to a session may take notes: one list of rows, to which a line that inserts adds its
row, and which is begun anew when the table is emptied. The notes are taken from the lines alone.
Below they are shown to be kept by the session: its store agrees with a ledger whose only table has
the noted rows.

* `enter`, `enterAll` — noting a row that can be stored, or all rows up to one that cannot;
* `notesAfter`, `notesOf` — notes after a line, and after a script;
* `notesAfter_eq` — the notes go by the command that is found in a line;
* `Kept`, `Session.Keeps` — a ledger, and a session, with the noted rows;
* `Session.Keeps.execute`, `Session.Keeps.follow` — what is kept after a command, and a script.
-/

namespace VersionChain.Shell

open StoreM MemoryRows

/-! ## Taking notes -/

/-- Whether a row can be stored behind those that are noted: the value is not too long, and the
table is not full. -/
def Fits (notes : List Row) (row : Row) : Prop :=
  (utf8 row.value).size < Diff.lengthLimit ∧ notes.length < slotLimit

instance (notes : List Row) (row : Row) : Decidable (Fits notes row) :=
  inferInstanceAs (Decidable (_ ∧ _))

/-- Notes a row if it can be stored. -/
def enter (notes : List Row) (row : Row) : List Row :=
  if Fits notes row then notes ++ [row] else notes

/-- Notes rows up to the first one that cannot be stored. -/
def enterAll (notes : List Row) : List Row → List Row
  | [] => notes
  | row :: rest => if Fits notes row then enterAll (notes ++ [row]) rest else notes

/-- The rows of a file; none if it cannot be read. -/
def rowsAt (files : Files) (path : String) : List Row :=
  match files.text path with
  | .ok text => (Row.ofText text).map (·.2)
  | .error _ => []

/-- What follows the second word of a line. -/
def afterGroup (line : List Char) : List Char := Command.afterWord (Command.afterWord line)

/-- The notes after a line. -/
def notesAfter (files : Files) (notes : List Row) (line : List Char) : List Row :=
  match Text.words line with
  | [] => notes
  | word :: arguments =>
    if commandOf word = "TRUNCATE" then []
    else match arguments with
      | [] => notes
      | group :: _ =>
        if commandOf word = "INSERT" then
          enter notes ⟨.ofList group, .ofList (Text.trim (afterGroup line))⟩
        else if commandOf word = "LOAD" then enterAll notes (rowsAt files (.ofList group))
        else notes

/-- The notes after lines, each with the files at hand when it is typed. -/
def notesOf (script : List (Files × List Char)) : List Row :=
  script.foldl (fun notes (files, line) => notesAfter files notes line) []

/-- The values noted for a group, the first one first. -/
def valuesOf (notes : List Row) (group : String) : List String :=
  (notes.filter (·.group = group)).map (·.value)

/-! ## What the notes have to do with a ledger -/

/-- The fingerprint of the group with a name. -/
def groupOf (name : String) : Fingerprint := .ofBytes (utf8 name)

/-- The noted contents for a fingerprint. -/
def contentsOf (notes : List Row) (group : Fingerprint) : List (List Bytes) :=
  (notes.filter (groupOf ·.group = group)).map Row.content

/-- No group with another name has the same fingerprint. -/
def Distinct (notes : List Row) (group : String) : Prop :=
  ∀ row ∈ notes, groupOf row.group = groupOf group → row.group = group

theorem contentsOf_append (notes : List Row) (row : Row) (group : Fingerprint) :
    contentsOf (notes ++ [row]) group =
      if groupOf row.group = group then contentsOf notes group ++ [row.content]
      else contentsOf notes group := by
  unfold contentsOf
  by_cases hgroup : groupOf row.group = group
  · simp [hgroup]
  · simp [hgroup]

/-- Where names have different fingerprints, the contents for a fingerprint are the values for a
name. -/
theorem Distinct.contents_eq {notes : List Row} {group : String} (h : Distinct notes group) :
    contentsOf notes (groupOf group) = (valuesOf notes group).map fun value => [utf8 value] := by
  have hsame : notes.filter (groupOf ·.group = groupOf group) = notes.filter (·.group = group) := by
    refine List.filter_congr fun row hrow => decide_eq_decide.mpr ⟨h row hrow, ?_⟩
    rintro rfl
    rfl
  unfold contentsOf valuesOf
  rw [hsame, List.map_map]
  rfl

/-- A ledger whose table has the noted rows. -/
structure Kept (l : Ledger) (notes : List Row) : Prop where
  table : ∃ settings, l.tables shellTable = some ⟨settings, 1⟩
  histories : ∀ group, l.histories ⟨shellTable, group⟩ = contentsOf notes group
  size : (l.places shellTable).size = notes.length
  rejecting : l.rejecting = 0

variable {l : Ledger} {notes : List Row}

theorem fingerprint_key (unpacker : Unpacker) (row : Row) :
    row.key.fingerprint unpacker = .ok (groupOf row.group) := rfl

theorem Kept.append (h : Kept l notes) (settings : TableSettings) (row : Row) :
    Kept (l.append ⟨shellTable, groupOf row.group⟩ settings row.content) (notes ++ [row]) where
  table := h.table
  histories group := by
    rw [contentsOf_append, ← h.histories, histories_append]
    by_cases hgroup : groupOf row.group = group
    · subst hgroup
      rw [if_pos rfl, if_pos rfl]
    · rw [if_neg hgroup, if_neg fun heq => hgroup (congrArg GroupId.group heq).symm]
  size := by
    unfold Ledger.append
    simp only [Function.update_self]
    rw [Array.size_push, h.size, List.length_append, List.length_singleton]
  rejecting := h.rejecting

/-- What an insert does, as far as the notes tell. -/
theorem Kept.insert_cases (h : Kept l notes) (row : Row) :
    (Fits notes row ∧ ∃ outcome settings, l.insert shellTable row.key row.content =
      (.ok outcome, l.append ⟨shellTable, groupOf row.group⟩ settings row.content)) ∨
    ¬ Fits notes row ∧ ∃ cause, l.insert shellTable row.key row.content = (.error cause, l) := by
  obtain ⟨settings, htable⟩ := h.table
  have hshort : (∀ value ∈ row.content, value.size < Diff.lengthLimit) ↔
      (utf8 row.value).size < Diff.lengthLimit := by simp [Row.content]
  unfold Ledger.insert
  simp only [fingerprint_key, htable]
  rw [if_neg (by simp [Row.content])]
  unfold Ledger.store
  simp only [hshort, h.rejecting, h.size, Nat.lt_irrefl, if_false]
  by_cases hvalue : (utf8 row.value).size < Diff.lengthLimit
  · rw [if_pos hvalue]
    by_cases hroom : notes.length < slotLimit
    · rw [if_neg (Nat.not_le.mpr hroom)]
      exact .inl ⟨⟨hvalue, hroom⟩, _, _, rfl⟩
    · rw [if_pos (Nat.not_lt.mp hroom)]
      exact .inr ⟨fun hfits => hroom hfits.2, _, rfl⟩
  · rw [if_neg hvalue]
    exact .inr ⟨fun hfits => hvalue hfits.1, _, rfl⟩

/-- An insert succeeds exactly if the row fits, and the row is noted then. -/
theorem Kept.insert (h : Kept l notes) (row : Row) :
    Kept (l.insert shellTable row.key row.content).2 (enter notes row) ∧
      ((l.insert shellTable row.key row.content).1.toBool = true ↔ Fits notes row) := by
  unfold enter
  rcases h.insert_cases row with ⟨hfits, outcome, settings, heq⟩ | ⟨hfits, cause, heq⟩
  · rw [heq, if_pos hfits]
    exact ⟨h.append settings row, iff_of_true rfl hfits⟩
  · rw [heq, if_neg hfits]
    exact ⟨h, iff_of_false Bool.false_ne_true hfits⟩

/-- Emptying the table begins the notes anew. -/
theorem Kept.truncate (h : Kept l notes) : Kept (l.truncate shellTable) [] := by
  obtain ⟨settings, htable⟩ := h.table
  unfold Ledger.truncate
  rw [if_pos (by rw [htable]; rfl)]
  unfold Ledger.clear
  refine ⟨⟨settings, htable⟩, fun group => ?_, ?_, h.rejecting⟩
  · simp only [if_true]
    rfl
  · simp only [Function.update_self]
    rfl

/-! ## The notes and the command in a line -/

theorem Typed.afterGroup {line word group rest : List Char} (h : Typed line word group rest) :
    Shell.afterGroup line = rest := by
  obtain ⟨margin, gap, hmargin, hword, hgap, hne, hgroup, hrest, rfl⟩ := h
  unfold Shell.afterGroup
  rw [afterWord_append hmargin hword (hgap.apart.append hne _), afterWord_append hgap hgroup hrest]

/-- The notes after a command. -/
def notesBy (files : Files) (notes : List Row) : Command → List Row
  | .insert row => enter notes row
  | .load path => enterAll notes (rowsAt files path)
  | .truncate => []
  | _ => notes

/-- Other commands than `INSERT`, `LOAD` and `TRUNCATE` leave the notes alone. -/
theorem notesBy_parse_other (files : Files) (notes : List Row) {line word : List Char}
    {arguments : List (List Char)} (hwords : Text.words line = word :: arguments)
    (hinsert : commandOf word ≠ "INSERT") (hload : commandOf word ≠ "LOAD")
    (htruncate : commandOf word ≠ "TRUNCATE") :
    notesBy files notes (Command.parse line) = notes := by
  unfold Command.parse
  simp only [hwords]
  split
  · exact absurd ‹_› hinsert
  · unfold Command.ofVersion
    split
    · split <;> rfl
    · rfl
  · cases arguments <;> rfl
  · cases arguments <;> rfl
  · exact absurd ‹_› htruncate
  · exact absurd ‹_› hload
  all_goals rfl

/-- What a line does to the notes is what its command does to them. -/
theorem notesAfter_eq (files : Files) (notes : List Row) (line : List Char) :
    notesAfter files notes line = notesBy files notes (Command.parse line) := by
  unfold notesAfter
  cases hwords : Text.words line with
  | nil =>
    unfold Command.parse
    rw [hwords]
    rfl
  | cons word arguments =>
    simp only
    by_cases htruncate : commandOf word = "TRUNCATE"
    · rw [if_pos htruncate, parse_truncate hwords htruncate]
      rfl
    rw [if_neg htruncate]
    cases arguments with
    | nil =>
      by_cases hform : ∃ form : Form, commandOf word = form.name
      · obtain ⟨form, hform⟩ := hform
        rw [(hwords ▸ Malformed.bare form hform : Malformed (Text.words line) _).parse]
        rfl
      · rw [notesBy_parse_other files notes hwords (fun h => hform ⟨.insert, h⟩)
          (fun h => hform ⟨.load, h⟩) htruncate]
    | cons group others =>
      obtain ⟨rest, htyped, -⟩ := exists_typed hwords
      simp only [htyped.afterGroup]
      by_cases hinsert : commandOf word = "INSERT"
      · rw [if_pos hinsert, htyped.parse .insert hinsert]
        rfl
      rw [if_neg hinsert]
      by_cases hload : commandOf word = "LOAD"
      · rw [if_pos hload, htyped.parse .load hload]
        rfl
      · rw [if_neg hload, notesBy_parse_other files notes hwords hinsert hload htruncate]

theorem Typed.notesAfter_insert {line word group rest : List Char}
    (h : Typed line word group rest) (hword : commandOf word = "INSERT") (files : Files)
    (notes : List Row) : notesAfter files notes line = enter notes (typedRow group rest) := by
  rw [notesAfter_eq, h.parse .insert hword]
  rfl

/-! ## Sessions -/

/-- A session keeps notes: its store agrees with a ledger that has the noted rows. -/
def Session.Keeps (session : Session) (notes : List Row) : Prop :=
  ∃ l, Agreeing l session.store ∧ Kept l notes

/-- A new session has nothing to note. -/
theorem exists_new {settings : SessionSettings} (htable : settings.table.validate = .ok ())
    (hservice : settings.service.validate = .ok ()) :
    ∃ session, Session.new settings = .ok session ∧ session.Keeps [] := by
  obtain ⟨r, s, hrun, hs⟩ := (agrees_empty settings.service true {} .inRowOnly).runs_createTable
    shellTable 1 settings.table
  refine ⟨⟨s⟩, ?_, _, hs, ?_⟩
  · unfold Session.new Service.new
    rw [htable, hservice]
    show Except.ok (Session.mk (createTable shellTable 1 settings.table _).2) = Except.ok _
    rw [hrun]
  · unfold Ledger.createTable
    rw [if_pos ⟨htable, by decide, rfl⟩]
    refine ⟨⟨settings.table, ?_⟩, fun _ => rfl, rfl, rfl⟩
    simp only [Function.update_self]

variable {session : Session}

theorem operate_ok {α : Type} {action : StoreM MemoryRows α} (reply : α → Reply)
    (failure : StoreError → Failure) {a : α} {P : Store MemoryRows → Prop}
    (h : Runs action session.store (.ok a) P) :
    (session.operate action reply failure).1 = reply a ∧
      P (session.operate action reply failure).2.store := by
  obtain ⟨s, hrun, hs⟩ := h
  unfold Session.operate
  rw [hrun]
  exact ⟨rfl, hs⟩

theorem operate_error {α : Type} {action : StoreM MemoryRows α} (reply : α → Reply)
    (failure : StoreError → Failure) {e : StoreError} {P : Store MemoryRows → Prop}
    (h : Runs action session.store (.error e) P) :
    (session.operate action reply failure).1 = .failed (failure e) ∧
      P (session.operate action reply failure).2.store := by
  obtain ⟨s, hrun, hs⟩ := h
  unfold Session.operate
  rw [hrun]
  exact ⟨rfl, hs⟩

namespace Session.Keeps

variable (h : session.Keeps notes)
include h

/-- A read whose result is known from the ledger, which it does not change. -/
theorem read {α : Type} {action : StoreM MemoryRows α} {a : α} (reply : α → Reply)
    (hruns : ∀ l state, Agreeing l session.store → Kept l notes →
      session.store.tables[shellTable]? = some state → 0 < state.columns →
      Runs action session.store (.ok a) (Agreeing l)) :
    (session.operate action reply .read).1 = reply a ∧
      (session.operate action reply .read).2.Keeps notes := by
  obtain ⟨l, hl, hkept⟩ := h
  obtain ⟨settings, htable⟩ := hkept.table
  have hstate := (hl.mirrors.tables shellTable).trans htable
  obtain ⟨hreply, hs⟩ := operate_ok reply .read (hruns l _ hl hkept hstate Nat.one_pos)
  exact ⟨hreply, l, hs, hkept⟩

/-- A version is read as it is noted. -/
theorem get (files : Files) (group : String) (seq : Nat) :
    (session.execute files (.get group seq)).1 =
        .value (contentAt (contentsOf notes (groupOf group)) seq 0) ∧
      (session.execute files (.get group seq)).2.Keeps notes := by
  refine h.read .value fun l state hl hkept htable hcolumn => ?_
  rw [← hkept.histories]
  exact (hl.runs_getColumn htable rfl seq hcolumn).imp fun s hs => hl.calm hs

/-- The latest number is the number of the noted contents. -/
theorem latest (files : Files) (group : String) :
    (session.execute files (.latest group)).1 =
        .latest (if (contentsOf notes (groupOf group)).length = 0 then none
          else some (contentsOf notes (groupOf group)).length) ∧
      (session.execute files (.latest group)).2.Keeps notes := by
  refine h.read .latest fun l state hl hkept htable _ => ?_
  rw [← hkept.histories]
  exact hl.runs_latestSeq htable rfl

/-- The versions of a group are counted as they are noted. -/
theorem history (files : Files) (group : String) :
    (session.execute files (.history group)).1 =
        .history (List.range' 1 (contentsOf notes (groupOf group)).length) ∧
      (session.execute files (.history group)).2.Keeps notes := by
  refine h.read .history fun l state hl hkept htable _ => ?_
  rw [← hkept.histories]
  exact hl.runs_history htable rfl

/-- A row is inserted exactly if it fits. -/
theorem insert (files : Files) (row : Row) :
    ((∃ outcome, (session.execute files (.insert row)).1 = .inserted outcome) ↔ Fits notes row) ∧
      (session.execute files (.insert row)).2.Keeps (enter notes row) := by
  obtain ⟨l, hl, hkept⟩ := h
  obtain ⟨hnext, hfits⟩ := hkept.insert row
  have hruns : Runs (StoreM.insert shellTable row.key row.content) session.store _ _ :=
    hl.runs_insert shellTable row.key row.content
  cases hresult : (l.insert shellTable row.key row.content).1 with
  | ok outcome =>
    rw [hresult] at hruns hfits
    obtain ⟨hreply, hs⟩ := operate_ok .inserted .insert hruns
    exact ⟨iff_of_true ⟨outcome, hreply⟩ (hfits.mp rfl), _, hs, hnext⟩
  | error cause =>
    rw [hresult] at hruns hfits
    obtain ⟨hreply, hs⟩ := operate_error .inserted .insert hruns
    refine ⟨iff_of_false ?_ fun hrow => Bool.false_ne_true (hfits.mpr hrow), _, hs, hnext⟩
    rintro ⟨outcome, houtcome⟩
    cases hreply.symm.trans houtcome

/-- An emptied table has nothing to note. -/
theorem truncate (files : Files) : (session.execute files .truncate).2.Keeps [] := by
  obtain ⟨l, hl, hkept⟩ := h
  obtain ⟨settings, htable⟩ := hkept.table
  obtain ⟨r, hruns, hr⟩ := hl.runs_truncate shellTable
  cases r with
  | error cause =>
    rw [htable] at hr
    exact absurd (hr.mpr rfl) Bool.false_ne_true
  | ok dropped =>
    exact ⟨_, (operate_ok .truncated .truncate hruns).2, hkept.truncate⟩

end Session.Keeps

/-! ## Loading -/

section Load

variable {α β : Type} {s s' : Store MemoryRows} {x : LoadM MemoryRows α}
  {f : α → LoadM MemoryRows β}

theorem load_bind_eq {a : α} (hx : x s = (.ok a, s')) : (x >>= f) s = f a s' := by
  show (ExceptT.bindCont f) (x s).1 (x s).2 = _
  rw [hx]
  rfl

theorem load_bind_eq_error {e : LoadError} (hx : x s = (.error e, s')) :
    (x >>= f) s = (.error e, s') := by
  show (ExceptT.bindCont f) (x s).1 (x s).2 = _
  rw [hx]
  rfl

variable (path : String) (t : Transaction) (number : Nat) (row : Row) (rest : List (Nat × Row))

/-- A failure of the store is reported with the line. -/
theorem adapt_insert_eq : (ExceptT.adapt (.line path number)
      (t.insert shellTable row.key row.content) : LoadM MemoryRows (Outcome × Transaction)) s =
    ((t.insert shellTable row.key row.content s).1.mapError (.line path number),
      (t.insert shellTable row.key row.content s).2) := rfl

theorem insertRows_cons_ok {outcome : Outcome}
    (h : insertRow shellTable row.key row.content s = (.ok outcome, s')) :
    insertRows path t ((number, row) :: rest) s =
      insertRows path ⟨t.pending.record shellTable outcome⟩ rest s' := by
  have hinsert : t.insert shellTable row.key row.content s =
      (.ok (outcome, ⟨t.pending.record shellTable outcome⟩), s') := bind_eq h
  have hfirst : (ExceptT.adapt (.line path number)
        (t.insert shellTable row.key row.content) : LoadM MemoryRows (Outcome × Transaction)) s =
      (.ok (outcome, ⟨t.pending.record shellTable outcome⟩), s') := by
    rw [adapt_insert_eq, hinsert]
    rfl
  exact load_bind_eq hfirst

theorem insertRows_cons_error {cause : StoreError}
    (h : insertRow shellTable row.key row.content s = (.error cause, s')) :
    insertRows path t ((number, row) :: rest) s = (.error (.line path number cause), s') := by
  have hinsert : t.insert shellTable row.key row.content s = (.error cause, s') := bind_eq_error h
  refine load_bind_eq_error ?_
  rw [adapt_insert_eq, hinsert]
  rfl

end Load

/-- The rows of a file are noted up to the first one that does not fit. -/
theorem insertRows_keeps {s : Store MemoryRows} (hs : Agreeing l s) (hkept : Kept l notes)
    (path : String) (t : Transaction) (rows : List (Nat × Row)) :
    ∃ l', Agreeing l' (insertRows path t rows s).2 ∧
      Kept l' (enterAll notes (rows.map (·.2))) := by
  induction rows generalizing s l notes t with
  | nil => exact ⟨l, hs, hkept⟩
  | cons first rest ih =>
    obtain ⟨number, row⟩ := first
    obtain ⟨s', hrun, hs'⟩ := hs.runs_insertRow shellTable row.key row.content
    unfold enterAll
    rcases hkept.insert_cases row with ⟨hfits, outcome, settings, heq⟩ | ⟨hfits, cause, heq⟩
    · rw [heq] at hrun hs'
      simp only [List.map_cons, if_pos hfits]
      rw [insertRows_cons_ok path t number row rest hrun]
      exact ih hs' (hkept.append settings row) _
    · rw [heq] at hrun hs'
      simp only [List.map_cons, if_neg hfits]
      rw [insertRows_cons_error path t number row rest hrun]
      exact ⟨l, hs', hkept⟩

theorem Session.Keeps.load (h : session.Keeps notes) (files : Files) (path : String) :
    (session.execute files (.load path)).2.Keeps (enterAll notes (rowsAt files path)) := by
  obtain ⟨l, hl, hkept⟩ := h
  show ∃ l', Agreeing l' (Shell.load files path session.store).2 ∧ _
  unfold Shell.load rowsAt
  cases hfile : files.text path with
  | error cause => exact ⟨l, hl, hkept⟩
  | ok text =>
    obtain ⟨l', hl', hkept'⟩ := insertRows_keeps hl hkept path {} (Row.ofText text)
    refine ⟨l', ?_, hkept'⟩
    -- statistics are published after the last row
    cases hresult : insertRows path {} (Row.ofText text) session.store with
    | mk result s =>
      rw [hresult] at hl'
      cases result with
      | error cause => simpa only [load_bind_eq_error hresult] using hl'
      | ok t =>
        simp only [load_bind_eq hresult]
        exact hl'.with_statistics _

/-- What a session keeps after a command. -/
theorem Session.Keeps.execute (h : session.Keeps notes) (files : Files) (command : Command) :
    (session.execute files command).2.Keeps (notesBy files notes command) := by
  cases command with
  | insert row => exact (h.insert files row).2
  | get group seq => exact (h.get files group seq).2
  | latest group => exact (h.latest files group).2
  | history group => exact (h.history files group).2
  | truncate => exact h.truncate files
  | load path => exact h.load files path
  | blank => exact h
  | statistics => exact h
  | exit => exact h
  | misused form => exact h
  | unknown word => exact h

/-- The session after lines, each with the files at hand when it is typed. -/
def Session.follow (session : Session) (script : List (Files × List Char)) : Session :=
  script.foldl (fun session (files, line) => (session.execute files (Command.parse line)).2) session

/-- What a session keeps after lines, beginning with nothing to note. -/
theorem Session.Keeps.follow (h : session.Keeps []) (script : List (Files × List Char)) :
    (session.follow script).Keeps (notesOf script) := by
  unfold Session.follow notesOf
  generalize ([] : List Row) = notes at h ⊢
  induction script generalizing session notes with
  | nil => exact h
  | cons first rest ih =>
    obtain ⟨files, line⟩ := first
    rw [List.foldl_cons, List.foldl_cons]
    refine ih _ ?_
    simp only [notesAfter_eq]
    exact h.execute files (Command.parse line)

end VersionChain.Shell
