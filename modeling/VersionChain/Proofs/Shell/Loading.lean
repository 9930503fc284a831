import VersionChain.Proofs.Shell.Answers
import VersionChain.Proofs.Store.Account
import VersionChain.Proofs.Store.Bookkeeping

/-!
# Loading a file and inserting its lines

A file is loaded in one transaction, while `INSERT` publishes the statistics of each row at once.
If every row can be stored, nobody can tell afterwards which way it was done. If one cannot, the
load ends there and publishes nothing, where a user would go on with the next line.

* `HoldsRow`, `rowLines`, `lineRow` — the lines of a text that hold rows, by their words alone;
* `ofText_eq`, `parse_insertLine` — both ways find the same rows;
* `replies_eq` — sessions whose stores resemble each other answer alike, whatever is typed;
* `Batched` — a load and the inserts of the same rows, side by side;
* `load_eq_inserts` — a load, compared with the inserts of its lines.
-/

namespace VersionChain.Shell

open StoreM

/-! ## The rows of a text -/

/-- Whether a line holds a row: it has a first word, and that is no comment. -/
def HoldsRow (line : List Char) : Prop :=
  ∃ word ∈ (Text.words line).head?, word.head? ≠ some '#'

instance : DecidablePred HoldsRow := fun line =>
  decidable_of_iff ((Text.words line).head?.any (·.head? ≠ some '#') = true) (by
    simp [HoldsRow, Option.any_eq_true])

/-- The lines of a text that hold rows, with their numbers. -/
def rowLines (text : String) : List (List Char × Nat) :=
  ((Text.lines '\n' text.toList).zipIdx 1).filter (HoldsRow ·.1)

/-- The row in a line: the first word is its group, and what follows, trimmed, its value. -/
def lineRow (line : List Char) : Row :=
  ⟨.ofList ((Text.words line).headD []), .ofList (Text.trim (Command.afterWord line))⟩

/-- The line that inserts what is in a line. -/
def insertLine (line : List Char) : List Char := "INSERT ".toList ++ line

section Lines

variable {line : List Char}

theorem HoldsRow.exists_word (h : HoldsRow line) :
    ∃ margin word rest, line = margin ++ (word ++ rest) ∧ Text.AllBlank margin ∧ Text.Solid word ∧
      Text.Apart rest ∧ word.head? ≠ some '#' ∧ lineRow line = typedRow word rest := by
  obtain ⟨word, hword, hcomment⟩ := h
  obtain ⟨others, hwords⟩ := List.head?_eq_some_iff.mp hword
  obtain ⟨margin, rest, rfl, hmargin, hsolid, hrest, -⟩ := Text.exists_of_words_eq_cons hwords
  refine ⟨margin, word, rest, rfl, hmargin, hsolid, hrest, hcomment, ?_⟩
  unfold lineRow typedRow
  rw [hwords, afterWord_append hmargin hsolid hrest]
  rfl

/-- A line that holds a row is read as that row. -/
theorem HoldsRow.parse? (h : HoldsRow line) :
    (Row.parse? line).filter (!·.isComment) = some (lineRow line) := by
  obtain ⟨margin, word, rest, rfl, hmargin, hword, hrest, hcomment, hrow⟩ := h.exists_word
  rw [hrow, Row.parse?_append hmargin hword hrest]
  simp [Row.isComment, typedRow, hcomment]

/-- Other lines are read as none. -/
theorem parse?_eq_none (h : ¬ HoldsRow line) :
    (Row.parse? line).filter (!·.isComment) = none := by
  cases hwords : Text.words line with
  | nil =>
    have hblank : Text.AllBlank line := (Text.words_eq_nil_iff line).mp hwords
    unfold Row.parse?
    rw [Text.trim_of_blank hblank]
    rfl
  | cons word others =>
    obtain ⟨margin, rest, rfl, hmargin, hword, hrest, -⟩ := Text.exists_of_words_eq_cons hwords
    have hcomment : word.head? = some '#' := by
      by_contra hother
      exact h ⟨word, by rw [hwords]; rfl, hother⟩
    rw [Row.parse?_append hmargin hword hrest]
    simp [Row.isComment, typedRow, hcomment]

/-- The rows of a text are those of its lines that hold any. -/
theorem ofText_eq (text : String) :
    Row.ofText text = (rowLines text).map fun (line, number) => (number, lineRow line) := by
  unfold Row.ofText rowLines
  rw [← List.filterMap_eq_map, List.filterMap_filter]
  refine List.filterMap_congr fun entry _ => ?_
  by_cases h : HoldsRow entry.1
  · simp [h, h.parse?]
  · simp [h, parse?_eq_none h]

/-- Inserting a line that holds a row inserts that row. -/
theorem HoldsRow.parse_insertLine (h : HoldsRow line) :
    Command.parse (insertLine line) = .insert (lineRow line) := by
  obtain ⟨margin, word, rest, rfl, hmargin, hword, hrest, -, hrow⟩ := h.exists_word
  have hgap : Text.AllBlank (' ' :: margin) := by
    intro c hc
    rcases List.mem_cons.mp hc with rfl | hc
    · rfl
    · exact hmargin c hc
  have htyped : Typed (insertLine (margin ++ (word ++ rest))) "INSERT".toList word rest :=
    ⟨[], ' ' :: margin, Text.allBlank_nil, by decide, hgap, List.cons_ne_nil _ _, hword, hrest, rfl⟩
  rw [htyped.parse .insert (by decide), hrow]
  rfl

end Lines

/-! ## Sessions that answer alike -/

/-- What a session replies to lines, each with the files at hand when it is typed. -/
def Session.replies (session : Session) : List (Files × List Char) → List Reply
  | [] => []
  | (files, line) :: rest =>
    let (reply, next) := session.execute files (Command.parse line)
    reply :: next.replies rest

theorem respects_insertRows (path : String) (t : Transaction) (rows : List (Nat × Row)) :
    Respects (insertRows path t rows : LoadM MemoryRows Transaction) := by
  induction rows generalizing t with
  | nil => exact .pure t
  | cons first rest ih =>
    have hinsert : Respects (t.insert shellTable first.2.key first.2.content :
        StoreM MemoryRows (Outcome × Transaction)) :=
      .bind (ignores_insertRow _ _ _).respects fun _ => .pure _
    exact .bind (hinsert.adapt _) fun inserted => ih inserted.2

theorem respects_load (files : Files) (path : String) :
    Respects (load files path : LoadM MemoryRows Loaded) := by
  unfold load
  cases files.text path with
  | error cause => exact .throw _
  | ok text =>
    refine .bind (respects_insertRows path {} _) fun t => ?_
    refine .bind (.change (·.flush t.pending) (fun _ _ h g => ?_) t.pending.size) fun _ => .pure _
    rw [Statistics.get?_flush, Statistics.get?_flush, h]

variable {session session' : Session}

theorem operate_resembles {ε α : Type} {action : ExceptT ε (StateM (Store MemoryRows)) α}
    (haction : Respects action) (reply : α → Reply) (failure : ε → Failure)
    (h : Resembles session.store session'.store) :
    (session.operate action reply failure).1 = (session'.operate action reply failure).1 ∧
      Resembles (session.operate action reply failure).2.store
        (session'.operate action reply failure).2.store := by
  have hends := haction _ _ h
  unfold Session.operate
  cases hfirst : action session.store with
  | mk result store =>
    cases hsecond : action session'.store with
    | mk result' store' =>
      rw [hfirst, hsecond] at hends
      obtain ⟨rfl, hstores⟩ := hends
      exact ⟨rfl, hstores⟩

/-- A command is answered alike, and leaves such sessions again. -/
theorem execute_resembles (h : Resembles session.store session'.store) (files : Files)
    (command : Command) :
    (session.execute files command).1 = (session'.execute files command).1 ∧
      Resembles (session.execute files command).2.store
        (session'.execute files command).2.store := by
  cases command with
  | insert row => exact operate_resembles (respects_insert _ _ _) _ _ h
  | get group seq => exact operate_resembles (ignores_getColumn _ _ _ _).respects _ _ h
  | latest group => exact operate_resembles (ignores_latestSeq _ _).respects _ _ h
  | history group => exact operate_resembles (ignores_history _ _).respects _ _ h
  | truncate => exact operate_resembles (respects_truncate _) _ _ h
  | load path => exact operate_resembles (respects_load files path) _ _ h
  | statistics =>
    refine ⟨?_, h⟩
    unfold Session.execute Session.statistics
    rw [← h.rest]
  | blank => exact ⟨rfl, h⟩
  | exit => exact ⟨rfl, h⟩
  | misused form => exact ⟨rfl, h⟩
  | unknown word => exact ⟨rfl, h⟩

/-- Whatever is typed is answered alike. -/
theorem replies_eq (h : Resembles session.store session'.store)
    (script : List (Files × List Char)) : session.replies script = session'.replies script := by
  induction script generalizing session session' with
  | nil => rfl
  | cons first rest ih =>
    obtain ⟨hreply, hnext⟩ := execute_resembles h first.1 (Command.parse first.2)
    exact congrArg₂ List.cons hreply (ih hnext)

/-! ## A load beside the inserts of the same rows -/

/-- A load in the course of a transaction, beside a session that has inserted the same rows: rows
and caches are the same, and what is published there is published or gathered here. These are the
groups of the rows. -/
structure Batched (t : Transaction) (groups : List Fingerprint) (s s' : Store MemoryRows) :
    Prop where
  rest : { s with statistics := s'.statistics } = s'
  counted : ∀ g, GroupStats.join (s.statistics.get? g) (t.pending.get? g) = s'.statistics.get? g
  touched : ∀ g, (t.pending.get? g).isSome = true ↔ g.table = shellTable ∧ g.group ∈ groups

theorem batched_refl (s : Store MemoryRows) : Batched {} [] s s where
  rest := rfl
  counted g := congrArg (GroupStats.join _) (Statistics.get?_empty g)
  touched g := by simp [Statistics.get?_empty]

/-- An insert whose row is stored. -/
theorem execute_insert_ok {row : Row} {outcome : Outcome} {store : Store MemoryRows}
    (h : insertRow shellTable row.key row.content session.store = (.ok outcome, store))
    (files : Files) : session.execute files (.insert row) = (.inserted outcome,
      ⟨{ store with statistics := store.statistics.record shellTable outcome }⟩) := by
  have hinsert : StoreM.insert shellTable row.key row.content session.store = (.ok outcome,
      { store with statistics := store.statistics.record shellTable outcome }) := by
    unfold StoreM.insert
    rw [bind_eq h]
    rfl
  unfold Session.execute Session.operate
  simp only [hinsert]

theorem execute_insert_error {row : Row} {cause : StoreError} {store : Store MemoryRows}
    (h : insertRow shellTable row.key row.content session.store = (.error cause, store))
    (files : Files) :
    session.execute files (.insert row) = (.failed (.insert cause), ⟨store⟩) := by
  have hinsert : StoreM.insert shellTable row.key row.content session.store =
      (.error cause, store) := bind_eq_error h
  unfold Session.execute Session.operate
  simp only [hinsert]

namespace Batched

variable {t : Transaction} {groups : List Fingerprint} {s s₁ : Store MemoryRows} {row : Row}

/-- Storing a row comes to the same on both sides. -/
theorem insertRow_eq (h : Batched t groups s session.store) {result : Except StoreError Outcome}
    (hrow : insertRow shellTable row.key row.content s = (result, s₁)) :
    insertRow shellTable row.key row.content session.store =
      (result, { s₁ with statistics := session.store.statistics }) := by
  have hother := (ignores_insertRow shellTable row.key row.content).eq hrow session.store.statistics
  rwa [h.rest] at hother

/-- A row that the load stores is inserted. -/
theorem insert (h : Batched t groups s session.store) {outcome : Outcome}
    (hrow : insertRow shellTable row.key row.content s = (.ok outcome, s₁)) (files : Files) :
    (session.execute files (.insert row)).1 = .inserted outcome ∧
      Batched ⟨t.pending.record shellTable outcome⟩ (groups ++ [groupOf row.group]) s₁
        (session.execute files (.insert row)).2.store := by
  have hgroup : groupOf row.group = outcome.group := by
    have hends : Ends (insertRow shellTable row.key row.content) s _ :=
      ends_insertRow_group shellTable row.key row.content
    unfold Ends at hends
    rw [hrow] at hends
    exact Except.ok.inj (hends outcome rfl)
  have hkept : s₁.statistics = s.statistics := by
    have hstatistics := (ignores_insertRow shellTable row.key row.content).statistics_eq s
    rwa [hrow] at hstatistics
  rw [execute_insert_ok (h.insertRow_eq hrow) files]
  refine ⟨rfl, rfl, fun g => ?_, fun g => ?_⟩
  · show GroupStats.join (s₁.statistics.get? g) ((t.pending.record shellTable outcome).get? g) =
      (session.store.statistics.record shellTable outcome).get? g
    rw [hkept, Statistics.get?_record, Statistics.get?_record, ← h.counted]
    split
    · rw [GroupStats.join_assoc]
    · rfl
  · show ((t.pending.record shellTable outcome).get? g).isSome = true ↔ _
    rw [Statistics.get?_record, hgroup]
    by_cases hg : g = ⟨shellTable, outcome.group⟩
    · rw [if_pos hg]
      simp [hg, GroupStats.join]
    · rw [if_neg hg, h.touched]
      refine and_congr_right fun htable => ?_
      have hother : g.group ≠ outcome.group := fun heq => hg (by rw [← htable, ← heq])
      simp [hother]

/-- A row that the load cannot store cannot be inserted either. -/
theorem insert_error (h : Batched t groups s session.store) {cause : StoreError}
    (hrow : insertRow shellTable row.key row.content s = (.error cause, s₁)) (files : Files) :
    (session.execute files (.insert row)).1 = .failed (.insert cause) ∧
      s₁ = { (session.execute files (.insert row)).2.store with statistics := s.statistics } := by
  have hkept : s₁.statistics = s.statistics := by
    have hstatistics := (ignores_insertRow shellTable row.key row.content).statistics_eq s
    rwa [hrow] at hstatistics
  rw [execute_insert_error (h.insertRow_eq hrow) files]
  refine ⟨rfl, ?_⟩
  rw [← hkept]

/-- When the transaction is committed, all that was inserted is published. -/
theorem commit (h : Batched t groups s session.store) :
    Resembles (t.commit s).2 session.store ∧ (t.commit s).1 = groups.dedup.length := by
  refine ⟨⟨?_, fun g => ?_⟩, ?_⟩
  · exact h.rest
  · exact (Statistics.get?_flush _ _ g).trans (h.counted g)
  · have hinj : Function.Injective (GroupId.mk shellTable) := fun _ _ heq => (GroupId.mk.inj heq).2
    have hdistinct := (List.nodup_dedup groups).map hinj
    rw [← List.length_map (f := GroupId.mk shellTable)]
    refine Statistics.size_eq hdistinct fun g => (h.touched g).trans ?_
    simp only [List.mem_map, List.mem_dedup]
    constructor
    · rintro ⟨htable, hmem⟩
      exact ⟨g.group, hmem, by rw [← htable]⟩
    · rintro ⟨group, hmem, rfl⟩
      exact ⟨rfl, hmem⟩

end Batched

/-! ## Loads -/

/-- The script that inserts lines one after the other. -/
def inserts (files : Files) (lines : List (List Char × Nat)) : List (Files × List Char) :=
  lines.map fun (line, _) => (files, insertLine line)

/-- All replies are about inserts that succeeded. -/
def AllInserted (replies : List Reply) : Prop :=
  ∀ reply ∈ replies, ∃ outcome, reply = .inserted outcome

theorem allInserted_nil : AllInserted [] := fun _ hreply => (List.not_mem_nil hreply).elim

/-- The first of the lines whose insert fails, behind those before it, and why. -/
structure StopsAt (session : Session) (files : Files) (lines before : List (List Char × Nat))
    (line : List Char) (number : Nat) (cause : StoreError) : Prop where
  split : ∃ after, lines = before ++ (line, number) :: after
  inserted : AllInserted (session.replies (inserts files before))
  failed : ((session.follow (inserts files before)).execute files
    (Command.parse (insertLine line))).1 = .failed (.insert cause)

/-- The rows in lines, as a load is given them. -/
def rowsOf (lines : List (List Char × Nat)) : List (Nat × Row) :=
  lines.map fun (line, number) => (number, lineRow line)

/-- The fingerprints of the groups in lines. -/
def groupsOf (lines : List (List Char × Nat)) : List Fingerprint :=
  lines.map fun (line, _) => groupOf (lineRow line).group

section Loads

variable {files : Files} {path : String} {t : Transaction} {groups : List Fingerprint}
  {s : Store MemoryRows} {lines : List (List Char × Nat)}

theorem replies_inserts_cons {line : List Char} (hline : HoldsRow line) (number : Nat)
    (others : List (List Char × Nat)) :
    session.replies (inserts files ((line, number) :: others)) =
      (session.execute files (.insert (lineRow line))).1 ::
        (session.execute files (.insert (lineRow line))).2.replies (inserts files others) := by
  rw [← hline.parse_insertLine]
  rfl

theorem follow_inserts_cons {line : List Char} (hline : HoldsRow line) (number : Nat)
    (others : List (List Char × Nat)) :
    session.follow (inserts files ((line, number) :: others)) =
      (session.execute files (.insert (lineRow line))).2.follow (inserts files others) := by
  rw [← hline.parse_insertLine]
  rfl

/-- As long as the inserts of lines succeed, so does the load. -/
theorem Batched.insertRows (h : Batched t groups s session.store) (path : String)
    (hlines : ∀ entry ∈ lines, HoldsRow entry.1)
    (hinserted : AllInserted (session.replies (inserts files lines))) (rest : List (Nat × Row)) :
    ∃ t' s', Shell.insertRows path t (rowsOf lines ++ rest) s = Shell.insertRows path t' rest s' ∧
      Batched t' (groups ++ groupsOf lines) s' (session.follow (inserts files lines)).store ∧
      s'.statistics = s.statistics := by
  -- both sides take one line at a time, and are batched again after it
  induction lines generalizing session t groups s with
  | nil => exact ⟨t, s, rfl, (List.append_nil groups).symm ▸ h, rfl⟩
  | cons entry others ih =>
    obtain ⟨line, number⟩ := entry
    obtain ⟨hline, hothers⟩ := List.forall_mem_cons.mp hlines
    rw [replies_inserts_cons hline] at hinserted
    obtain ⟨⟨outcome, hreply⟩, hreplies⟩ := List.forall_mem_cons.mp hinserted
    rw [follow_inserts_cons hline]
    cases hrow : insertRow shellTable (lineRow line).key (lineRow line).content s with
    | mk result s₁ =>
      cases result with
      | error cause =>
        -- the session would have reported the failure
        cases hreply.symm.trans (h.insert_error hrow files).1
      | ok stored =>
        have hnext := (h.insert hrow files).2
        obtain ⟨t', s', hload, hbatched, hkept⟩ := ih hnext hothers hreplies
        refine ⟨t', s', ?_, ?_, ?_⟩
        · exact (insertRows_cons_ok path t number (lineRow line) _ hrow).trans hload
        · rwa [List.append_assoc] at hbatched
        · have hstatistics := (ignores_insertRow shellTable (lineRow line).key
            (lineRow line).content).statistics_eq s
          rw [hrow] at hstatistics
          exact hkept.trans hstatistics

/-- Where an insert fails, the load does. The rows before it stay, and nothing is published. -/
theorem Batched.insertRows_error (h : Batched t groups s session.store) (path : String)
    {before : List (List Char × Nat)} {line : List Char} {number : Nat} {cause : StoreError}
    (hlines : ∀ entry ∈ lines, HoldsRow entry.1)
    (hstops : StopsAt session files lines before line number cause) :
    Shell.insertRows path t (rowsOf lines) s = (.error (.line path number cause),
      { (session.follow (inserts files (before ++ [(line, number)]))).store with
        statistics := s.statistics }) := by
  obtain ⟨⟨after, rfl⟩, hinserted, hfailed⟩ := hstops
  obtain ⟨hbefore, hrest⟩ := List.forall_mem_append.mp hlines
  have hline : HoldsRow line := (List.forall_mem_cons.mp hrest).1
  obtain ⟨t', s', hload, hbatched, hkept⟩ :=
    h.insertRows path hbefore hinserted ((number, lineRow line) :: rowsOf after)
  have hrows : rowsOf (before ++ (line, number) :: after) =
      rowsOf before ++ ((number, lineRow line) :: rowsOf after) := List.map_append
  have hfollow : session.follow (inserts files (before ++ [(line, number)])) =
      ((session.follow (inserts files before)).execute files (.insert (lineRow line))).2 := by
    rw [← hline.parse_insertLine]
    unfold Session.follow inserts
    rw [List.map_append, List.foldl_append]
    rfl
  rw [hrows, hload, hfollow, ← hkept]
  rw [hline.parse_insertLine] at hfailed
  cases hrow : insertRow shellTable (lineRow line).key (lineRow line).content s' with
  | mk result s₁ =>
    cases result with
    | ok outcome => cases hfailed.symm.trans (hbatched.insert hrow files).1
    | error cause' =>
      obtain ⟨hreply, hstore⟩ := hbatched.insert_error hrow files
      cases hfailed.symm.trans hreply
      rw [← hstore]
      exact insertRows_cons_error path t' number (lineRow line) _ hrow

/-- A row is inserted, or it is said why not. -/
theorem execute_insert_cases (session : Session) (files : Files) (row : Row) :
    (∃ outcome, (session.execute files (.insert row)).1 = .inserted outcome) ∨
      ∃ cause, (session.execute files (.insert row)).1 = .failed (.insert cause) := by
  cases hrow : insertRow shellTable row.key row.content session.store with
  | mk result store =>
    cases result with
    | ok outcome => exact .inl ⟨outcome, congrArg Prod.fst (execute_insert_ok hrow files)⟩
    | error cause => exact .inr ⟨cause, congrArg Prod.fst (execute_insert_error hrow files)⟩

/-- Either all lines are inserted, or there is a first one that is not. -/
theorem allInserted_or_stopsAt (session : Session) (files : Files)
    (hlines : ∀ entry ∈ lines, HoldsRow entry.1) :
    AllInserted (session.replies (inserts files lines)) ∨
      ∃ before line number cause, StopsAt session files lines before line number cause := by
  induction lines generalizing session with
  | nil => exact .inl allInserted_nil
  | cons entry others ih =>
    obtain ⟨line, number⟩ := entry
    obtain ⟨hline, hothers⟩ := List.forall_mem_cons.mp hlines
    rcases execute_insert_cases session files (lineRow line) with hinserted | ⟨cause, hfailed⟩
    · rcases ih (session.execute files (.insert (lineRow line))).2 hothers with hall | hstops
      · left
        rw [replies_inserts_cons hline]
        exact List.forall_mem_cons.mpr ⟨hinserted, hall⟩
      · right
        obtain ⟨before, failing, n, cause, ⟨after, hsplit⟩, hbefore, hfailed⟩ := hstops
        refine ⟨(line, number) :: before, failing, n, cause, ⟨after, by rw [hsplit]; rfl⟩, ?_, ?_⟩
        · rw [replies_inserts_cons hline]
          exact List.forall_mem_cons.mpr ⟨hinserted, hbefore⟩
        · rwa [follow_inserts_cons hline]
    · right
      refine ⟨[], line, number, cause, ⟨others, rfl⟩, allInserted_nil, ?_⟩
      rw [hline.parse_insertLine]
      exact hfailed

/-- A load whose rows are all stored ends with a commit. -/
theorem execute_load_ok {text : String} (hfile : files.text path = .ok text)
    (hrows : Shell.insertRows path {} (Row.ofText text) session.store = (.ok t, s)) :
    session.execute files (.load path) =
      (.loaded ⟨(Row.ofText text).length, (t.commit s).1⟩, ⟨(t.commit s).2⟩) := by
  have hload : load files path session.store =
      (.ok ⟨(Row.ofText text).length, (t.commit s).1⟩, (t.commit s).2) := by
    unfold load
    simp only [hfile]
    rw [load_bind_eq hrows]
    rfl
  unfold Session.execute Session.operate
  simp only [hload]

theorem execute_load_error {text : String} {cause : LoadError}
    (hfile : files.text path = .ok text)
    (hrows : Shell.insertRows path {} (Row.ofText text) session.store = (.error cause, s)) :
    session.execute files (.load path) = (.failed (.load cause), ⟨s⟩) := by
  have hload : load files path session.store = (.error cause, s) := by
    unfold load
    simp only [hfile]
    rw [load_bind_eq_error hrows]
  unfold Session.execute Session.operate
  simp only [hload]

end Loads

/-- A file that spells a text is read as that text. -/
theorem text_of_utf8 {files : Files} {path text : String} (hpath : '\x00' ∉ path.toList)
    (hfile : files path = .ok (utf8 text)) : files.text path = .ok text := by
  unfold Files.text
  rw [if_neg (by simpa using hpath)]
  show (files path).bind _ = _
  rw [hfile]
  simp only [Except.bind, Text.decode?_utf8]
  rfl

/-- In a session that keeps notes, lines are inserted as long as no value is too long and the table
has room for all of them. -/
theorem Session.Keeps.allInserted {notes : List Row} {lines : List (List Char × Nat)}
    (h : session.Keeps notes) (files : Files) (hlines : ∀ entry ∈ lines, HoldsRow entry.1)
    (hshort : ∀ entry ∈ lines, (utf8 (lineRow entry.1).value).size < Diff.lengthLimit)
    (hroom : notes.length + lines.length ≤ MemoryRows.slotLimit) :
    AllInserted (session.replies (inserts files lines)) := by
  induction lines generalizing session notes with
  | nil => exact allInserted_nil
  | cons entry others ih =>
    obtain ⟨hline, hothers⟩ := List.forall_mem_cons.mp hlines
    obtain ⟨hvalue, hvalues⟩ := List.forall_mem_cons.mp hshort
    rw [List.length_cons] at hroom
    obtain ⟨hinserted, hnext⟩ := h.insert files (lineRow entry.1)
    have hfits : Fits notes (lineRow entry.1) := ⟨hvalue, by omega⟩
    unfold enter at hnext
    rw [if_pos hfits] at hnext
    rw [replies_inserts_cons hline]
    refine List.forall_mem_cons.mpr ⟨hinserted.mpr hfits, ih hnext hothers hvalues ?_⟩
    rw [List.length_append, List.length_singleton]
    omega

/-- In whatever state a session is, a load does what the inserts of its lines do, if all of these
succeed: it reports how many lines and groups there are, and leaves the same rows and caches and the
same statistics of every group, so that whatever is typed then is answered alike. If an insert
fails, the load does what is done up to that line, reports the failure with the number of the line,
and publishes nothing. -/
theorem load_eq_inserts (session : Session) (files : Files) {line word path rest : List Char}
    {text : String} (htyped : Typed line word path rest) (hword : commandOf word = "LOAD")
    (hfile : files.text (.ofList path) = .ok text) :
    let lines := rowLines text
    let replies := session.replies (inserts files lines)
    let inserting := session.follow (inserts files lines)
    let loading := session.execute files (Command.parse line)
    (AllInserted replies →
      loading.1 = .loaded ⟨lines.length, (groupsOf lines).dedup.length⟩ ∧
      Resembles loading.2.store inserting.store ∧
      ∀ script, loading.2.replies script = inserting.replies script) ∧
    (∀ before failing number cause, StopsAt session files lines before failing number cause →
      loading.1 = .failed (.load (.line (.ofList path) number cause)) ∧
      loading.2.store = { (session.follow (inserts files (before ++ [(failing, number)]))).store with
        statistics := session.store.statistics }) ∧
    (AllInserted replies ∨
      ∃ before failing number cause, StopsAt session files lines before failing number cause) := by
  intro lines replies inserting loading
  have hlines : ∀ entry ∈ lines, HoldsRow entry.1 := fun entry hentry =>
    of_decide_eq_true (List.mem_filter.mp hentry).2
  have hrows : Row.ofText text = rowsOf lines := ofText_eq text
  have hbegun : Batched {} [] session.store session.store := batched_refl session.store
  have hloading : loading = session.execute files (.load (.ofList path)) :=
    congrArg (session.execute files) (htyped.parse .load hword)
  rw [hloading]
  refine ⟨fun hinserted => ?_, fun before failing number cause hstops => ?_,
    allInserted_or_stopsAt session files hlines⟩
  · obtain ⟨t, s, hload, hbatched, -⟩ :=
      hbegun.insertRows (.ofList path) hlines hinserted []
    rw [List.append_nil, ← hrows] at hload
    obtain ⟨hstores, hgroups⟩ := hbatched.commit
    rw [execute_load_ok hfile hload, hgroups, hrows]
    refine ⟨?_, hstores, fun script => replies_eq hstores script⟩
    simp only [rowsOf, List.length_map, List.nil_append]
  · have hload := hbegun.insertRows_error (.ofList path) hlines hstops
    rw [← hrows] at hload
    rw [execute_load_error hfile hload]
    exact ⟨rfl, rfl⟩

/-- A file with a comment and a blank line is loaded into a new session. -/
theorem load_eq_inserts_seed :
    let text := "# seed\na first\r\n  b\tfirst  one\n\na"
    let files : Files := fun _ => .ok (utf8 text)
    ∃ session, Session.new {} = .ok session ∧
      Typed "load rows.txt".toList "load".toList "rows.txt".toList [] ∧
      commandOf "load".toList = "LOAD" ∧
      files.text (.ofList "rows.txt".toList) = .ok text ∧
      AllInserted (session.replies (inserts files (rowLines text))) ∧
      (session.execute files (Command.parse "load rows.txt".toList)).1 = .loaded ⟨3, 2⟩ := by
  intro text files
  obtain ⟨session, hnew, hkeeps⟩ : ∃ session, Session.new {} = .ok session ∧ session.Keeps [] :=
    exists_new (by decide) (by decide)
  have htyped : Typed "load rows.txt".toList "load".toList "rows.txt".toList [] :=
    ⟨[], " ".toList, by decide, by decide, by decide, by decide, by decide, by decide, rfl⟩
  have hfile : files.text (.ofList "rows.txt".toList) = .ok text :=
    text_of_utf8 (by decide) rfl
  have hlines : rowLines text =
      [("a first\r".toList, 2), ("  b\tfirst  one".toList, 3), ("a".toList, 5)] := by
    decide +kernel
  have hinserted : AllInserted (session.replies (inserts files (rowLines text))) := by
    refine hkeeps.allInserted files ?_ ?_ ?_
    · rw [hlines]
      decide +kernel
    · rw [hlines]
      decide +kernel
    · rw [hlines]
      decide
  have hgroups : (groupsOf (rowLines text)).dedup.length = 2 := by
    rw [hlines]
    decide +kernel
  refine ⟨session, hnew, htyped, by decide, hfile, hinserted, ?_⟩
  have hloaded := ((load_eq_inserts session files htyped (by decide) hfile).1 hinserted).1
  rwa [hgroups, hlines] at hloaded

/-! ## A load that ends early -/

theorem size_utf8_replicate (n : Nat) : (utf8 (.ofList (List.replicate n 'x'))).size = n := by
  have hbytes : (List.replicate n 'x').flatMap String.utf8EncodeChar = List.replicate n 120 := by
    induction n with
    | zero => rfl
    | succ n ih =>
      rw [List.replicate_succ, List.flatMap_cons, ih]
      rfl
  rw [← Array.length_toList, Text.toList_utf8, String.toList_ofList, hbytes, List.length_replicate]

section Overlong

variable {value : List Char} (hvalue : Text.Solid value)

/-- A row with a value, and behind it another row. -/
def overlong (value : List Char) : String :=
  .ofList ("a ".toList ++ value ++ '\n' :: "b y".toList)

theorem lineRow_last : HoldsRow "b y".toList ∧ lineRow "b y".toList = ⟨"b", "y"⟩ := by
  decide +kernel

/-- A row whose value is too long does not fit. -/
theorem misfit_overlong (hlong : Diff.lengthLimit ≤ (utf8 (.ofList value)).size)
    (notes : List Row) : ¬ Fits notes ⟨"a", .ofList value⟩ :=
  fun hfits => Nat.not_lt.mpr hlong hfits.1

include hvalue

theorem lineRow_overlong :
    HoldsRow ("a ".toList ++ value) ∧ lineRow ("a ".toList ++ value) = ⟨"a", .ofList value⟩ := by
  have hword : Text.Solid "a".toList := by decide
  have hrest : Text.Apart (' ' :: value) := fun c hc => by cases hc; rfl
  have hwords : Text.words ("a ".toList ++ value) = "a".toList :: Text.words (' ' :: value) :=
    Text.words_append Text.allBlank_nil hword hrest
  have hafter : Command.afterWord ("a ".toList ++ value) = ' ' :: value :=
    afterWord_append Text.allBlank_nil hword hrest
  have htrim : Text.trim (' ' :: value) = value := by
    have hmargin : Text.AllBlank [' '] := by decide
    have htrimmed := Text.trim_eq hmargin Text.allBlank_nil hvalue.trimmed
    rwa [List.append_nil] at htrimmed
  refine ⟨⟨"a".toList, by rw [hwords]; rfl, by decide⟩, ?_⟩
  unfold lineRow
  rw [hwords, hafter, htrim]
  rfl

theorem rowLines_overlong :
    rowLines (overlong value) = [("a ".toList ++ value, 1), ("b y".toList, 2)] := by
  have hseparator : '\n' ∉ "a ".toList ++ value := by
    intro hmem
    rcases List.mem_append.mp hmem with hmem | hmem
    · exact absurd hmem (by decide)
    · exact absurd (hvalue.2 _ hmem) (by decide)
  have hlast : Text.lines '\n' "b y".toList = ["b y".toList] := by decide +kernel
  unfold rowLines overlong
  rw [String.toList_ofList, Text.lines_append_separator '\n' _ _ hseparator, hlast,
    List.zipIdx_cons, List.zipIdx_cons, List.zipIdx_nil]
  refine List.filter_eq_self.mpr fun line hline => decide_eq_true ?_
  rcases List.mem_pair.mp hline with rfl | rfl
  · exact (lineRow_overlong hvalue).1
  · exact lineRow_last.1

theorem rowsAt_overlong {files : Files} {path : String} (hpath : '\x00' ∉ path.toList)
    (hfile : files path = .ok (utf8 (overlong value))) :
    rowsAt files path = [⟨"a", .ofList value⟩, ⟨"b", "y"⟩] := by
  unfold rowsAt
  rw [text_of_utf8 hpath hfile]
  simp only
  rw [ofText_eq, rowLines_overlong hvalue, ← (lineRow_overlong hvalue).2, ← lineRow_last.2]
  rfl

theorem notesOf_overlong (hlong : Diff.lengthLimit ≤ (utf8 (.ofList value)).size)
    (files : Files) : notesOf (inserts files (rowLines (overlong value))) = [⟨"b", "y"⟩] := by
  obtain ⟨hfirst, hfirstRow⟩ := lineRow_overlong hvalue
  obtain ⟨hlast, hlastRow⟩ := lineRow_last
  have hfits : Fits [] ⟨"b", "y"⟩ := by decide +kernel
  rw [rowLines_overlong hvalue]
  show notesAfter files (notesAfter files [] (insertLine ("a ".toList ++ value)))
    (insertLine "b y".toList) = _
  rw [notesAfter_eq, notesAfter_eq, hfirst.parse_insertLine, hlast.parse_insertLine,
    hfirstRow, hlastRow]
  show enter (enter [] ⟨"a", .ofList value⟩) ⟨"b", "y"⟩ = _
  rw [show enter [] ⟨"a", .ofList value⟩ = [] from if_neg (misfit_overlong hlong [])]
  exact if_pos hfits

/-- Behind a row whose value is too long, a load stores nothing, and inserts go on. -/
theorem loads_less (hlong : Diff.lengthLimit ≤ (utf8 (.ofList value)).size) :
    let files : Files := fun _ => .ok (utf8 (overlong value))
    ∃ session, Session.new {} = .ok session ∧
      let loading := (session.execute files (Command.parse "LOAD rows.txt".toList)).2
      let inserting := session.follow (inserts files (rowLines (overlong value)))
      loading.shown files "LATEST b".toList = "(nil)\n" ∧
        inserting.shown files "LATEST b".toList = "1\n" := by
  intro files
  obtain ⟨session, hnew, hkeeps⟩ : ∃ session, Session.new {} = .ok session ∧ session.Keeps [] :=
    exists_new (by decide) (by decide)
  have hload : Typed "LOAD rows.txt".toList "LOAD".toList "rows.txt".toList [] :=
    ⟨[], " ".toList, by decide, by decide, by decide, by decide, by decide, by decide, rfl⟩
  have hlatest : Typed "LATEST b".toList "LATEST".toList "b".toList [] :=
    ⟨[], " ".toList, by decide, by decide, by decide, by decide, by decide, by decide, rfl⟩
  have hcommand : Command.parse "LOAD rows.txt".toList = .load (.ofList "rows.txt".toList) :=
    hload.parse .load (by decide)
  have hloading : (session.execute files (Command.parse "LOAD rows.txt".toList)).2.Keeps [] := by
    have hkept := hkeeps.load files (.ofList "rows.txt".toList)
    rw [rowsAt_overlong hvalue (by decide) rfl, enterAll, if_neg (misfit_overlong hlong [])]
      at hkept
    rwa [hcommand]
  have hinserting : (session.follow (inserts files (rowLines (overlong value)))).Keeps
      [⟨"b", "y"⟩] := by
    have hkept := hkeeps.follow (inserts files (rowLines (overlong value)))
    rwa [notesOf_overlong hvalue hlong] at hkept
  have hnone : Distinct [] (.ofList "b".toList) := fun _ hrow => (List.not_mem_nil hrow).elim
  have hone : Distinct [⟨"b", "y"⟩] (.ofList "b".toList) := fun row hrow _ => by
    rw [List.mem_singleton.mp hrow]
    rfl
  refine ⟨session, hnew, ?_, ?_⟩
  · rw [hloading.faithful.latest files _ _ _ _ hlatest (by decide) hnone]
    rfl
  · rw [hinserting.faithful.latest files _ _ _ _ hlatest (by decide) hone]
    rfl

end Overlong

/-- A file with a value of 4 GiB and another row is loaded into a new session, and its lines are
inserted into one. -/
theorem load_ne_inserts :
    let text := overlong (List.replicate Diff.lengthLimit 'x')
    let files : Files := fun _ => .ok (utf8 text)
    ∃ session, Session.new {} = .ok session ∧
      let loading := (session.execute files (Command.parse "LOAD rows.txt".toList)).2
      let inserting := session.follow (inserts files (rowLines text))
      loading.shown files "LATEST b".toList = "(nil)\n" ∧
        inserting.shown files "LATEST b".toList = "1\n" := by
  have hsolid : ∀ n, 0 < n → Text.Solid (List.replicate n 'x') := by
    intro n hn
    refine ⟨?_, fun c hc => ?_⟩
    · simpa using Nat.pos_iff_ne_zero.mp hn
    · rw [List.eq_of_mem_replicate hc]
      decide
  exact loads_less (hsolid _ (by decide)) (Nat.le_of_eq (size_utf8_replicate _).symm)

end VersionChain.Shell
