import VersionChain.Proofs.Shell.Notes
import VersionChain.Proofs.Text.Decoding

/-!
# What a session answers

A session is a map from groups to lists of values: what it shows for a line is what the notes say,
which are taken from the lines alone. No setting of the caches or of the table makes a difference.

* `versionOf` — a noted version of a group;
* `Faithful` — a session that answers as the notes say;
* `Session.Keeps.faithful` — a session that keeps notes does;
* `faithful_follow` — and so does a new session, after whatever lines.
-/

namespace VersionChain.Shell

/-- A noted version of a group. Versions count from 1. -/
def versionOf (notes : List Row) (group : String) : (seq : Nat) → Option String
  | 0 => none
  | seq + 1 => (valuesOf notes group)[seq]?

/-- How many versions of a group are noted. -/
def versionCount (notes : List Row) (group : String) : Nat := (valuesOf notes group).length

/-- What a session shows for a line. -/
def Session.shown (session : Session) (files : Files) (line : List Char) : String :=
  (session.execute files (Command.parse line)).1.text

/-- A session answers as the notes say. Groups are told apart by their fingerprints, so a read is
only right if no other noted group has the fingerprint of the one that is asked for. -/
structure Faithful (session : Session) (notes : List Row) : Prop where
  /-- `GET` shows the version of the group that is the second word. -/
  get : ∀ (files : Files) (line word group rest number : List Char) (seq : Nat),
    Typed line word group rest → commandOf word = "GET" →
    (Text.words rest).head? = some number → Text.number? number = some seq →
    Distinct notes (.ofList group) →
    session.shown files line = (versionOf notes (.ofList group) seq).getD "(nil)" ++ "\n"
  /-- `LATEST` shows how many versions there are. -/
  latest : ∀ (files : Files) (line word group rest : List Char),
    Typed line word group rest → commandOf word = "LATEST" → Distinct notes (.ofList group) →
    session.shown files line =
      if versionCount notes (.ofList group) = 0 then "(nil)\n"
      else toString (versionCount notes (.ofList group)) ++ "\n"
  /-- `HISTORY` shows the numbers of all versions. -/
  history : ∀ (files : Files) (line word group rest : List Char),
    Typed line word group rest → commandOf word = "HISTORY" → Distinct notes (.ofList group) →
    session.shown files line =
      if versionCount notes (.ofList group) = 0 then "(empty)\n"
      else " ".intercalate ((List.range' 1 (versionCount notes (.ofList group))).map toString) ++
        s!" ({versionCount notes (.ofList group)} versions)" ++ "\n"
  /-- `INSERT` stores the rest of the line, trimmed, for the group that is the second word, unless
  there is no room for it. -/
  insert : ∀ (files : Files) (line word group rest : List Char),
    Typed line word group rest → commandOf word = "INSERT" →
    let row : Row := ⟨.ofList group, .ofList (Text.trim rest)⟩
    notesAfter files notes line = enter notes row ∧
      ((∃ outcome, (session.execute files (Command.parse line)).1 = .inserted outcome) ↔
        Fits notes row)
  /-- A command without what it needs is answered by its usage and does nothing. -/
  misused : ∀ (files : Files) (line : List Char) (form : Form),
    Malformed (Text.words line) (.misused form) →
    session.shown files line = s!"ERR usage: {form.text}\n" ∧
      (session.execute files (Command.parse line)).2 = session ∧
      notesAfter files notes line = notes
  /-- An unknown command is answered by its name and does nothing. -/
  unknown : ∀ (files : Files) (line : List Char) (name : String),
    Malformed (Text.words line) (.unknown name) →
    session.shown files line = s!"unknown command: {name}\n" ∧
      (session.execute files (Command.parse line)).2 = session ∧
      notesAfter files notes line = notes

/-! ## Replies as text -/

theorem text_of_lines {reply : Reply} {line : String} (h : reply.lines = [line]) :
    reply.text = line ++ "\n" := by
  unfold Reply.text
  rw [h]
  simp [String.join]

variable {session : Session} {notes : List Row} {group : String}

theorem Distinct.contentAt (h : Distinct notes group) (seq : Nat) :
    contentAt (contentsOf notes (groupOf group)) seq 0 = (versionOf notes group seq).map utf8 := by
  rw [h.contents_eq]
  cases seq with
  | zero => rfl
  | succ seq =>
    show _ = (valuesOf notes group)[seq]?.map utf8
    rw [contentAt_succ, List.getElem?_map]
    cases (valuesOf notes group)[seq]? <;> rfl

theorem Distinct.length_contentsOf (h : Distinct notes group) :
    (contentsOf notes (groupOf group)).length = versionCount notes group := by
  rw [h.contents_eq, List.length_map]
  rfl

theorem text_value (value : Option String) :
    (Reply.value (value.map utf8)).text = value.getD "(nil)" ++ "\n" := by
  refine text_of_lines ?_
  unfold Reply.lines Reply.orNil
  cases value with
  | none => rfl
  | some value => simp [Text.decodeLossy_utf8]

theorem text_latest (count : Nat) : (Reply.latest (if count = 0 then none else some count)).text =
    if count = 0 then "(nil)\n" else toString count ++ "\n" := by
  rw [text_of_lines rfl]
  by_cases hcount : count = 0
  · rw [if_pos hcount, if_pos hcount]
    rfl
  · rw [if_neg hcount, if_neg hcount]
    rfl

theorem text_history (count : Nat) : (Reply.history (List.range' 1 count)).text =
    if count = 0 then "(empty)\n"
    else " ".intercalate ((List.range' 1 count).map toString) ++ s!" ({count} versions)" ++ "\n" := by
  rw [text_of_lines rfl]
  cases count with
  | zero => rfl
  | succ count =>
    rw [if_neg (Nat.succ_ne_zero count)]
    unfold Reply.describeHistory
    rw [List.range'_succ]
    simp

/-! ## Faithful sessions -/

/-- A session that keeps notes answers as they say. -/
theorem Session.Keeps.faithful (h : session.Keeps notes) : Faithful session notes where
  get files line word group rest number seq htyped hword hrest hseq hdistinct := by
    unfold Session.shown
    rw [htyped.parse .get hword, typed_get hrest hseq, (h.get files _ seq).1, hdistinct.contentAt,
      text_value]
  latest files line word group rest htyped hword hdistinct := by
    unfold Session.shown
    rw [htyped.parse .latest hword]
    unfold Form.typed
    rw [(h.latest files _).1, hdistinct.length_contentsOf, text_latest]
  history files line word group rest htyped hword hdistinct := by
    unfold Session.shown
    rw [htyped.parse .history hword]
    unfold Form.typed
    rw [(h.history files _).1, hdistinct.length_contentsOf, text_history]
  insert files line word group rest htyped hword := by
    rw [htyped.notesAfter_insert hword, htyped.parse .insert hword]
    exact ⟨rfl, (h.insert files _).1⟩
  misused files line form hline := by
    unfold Session.shown
    rw [notesAfter_eq, hline.parse]
    exact ⟨text_of_lines rfl, rfl, rfl⟩
  unknown files line name hline := by
    unfold Session.shown
    rw [notesAfter_eq, hline.parse]
    exact ⟨text_of_lines rfl, rfl, rfl⟩

/-- Whatever the valid settings of the table and of the caches are, and whatever lines were typed, a
session answers as the notes of the lines say. -/
theorem faithful_follow {settings : SessionSettings} (htable : settings.table.validate = .ok ())
    (hservice : settings.service.validate = .ok ()) :
    ∃ session, Session.new settings = .ok session ∧
      ∀ script, Faithful (session.follow script) (notesOf script) := by
  obtain ⟨session, hnew, hkeeps⟩ := exists_new htable hservice
  exact ⟨session, hnew, fun script => (hkeeps.follow script).faithful⟩

/-- Two versions, typed with other blanks and in another case each time, and what is read back. -/
theorem faithful_follow_two_versions :
    let files : Files := fun _ => .error .missing
    let settings : SessionSettings := {}
    let script := [(files, "  insert doc  hello \t world ".toList), (files, "INSERT\tdoc a".toList)]
    settings.table.validate = .ok () ∧ settings.service.validate = .ok () ∧
    ∃ session, Session.new settings = .ok session ∧
      (session.follow script).shown files "get doc 1".toList = "hello \t world\n" ∧
      (session.follow script).shown files "LATEST\tdoc".toList = "2\n" ∧
      (session.follow script).shown files "History doc ".toList = "1 2 (2 versions)\n" ∧
      (session.follow script).shown files " HISTORY".toList = "ERR usage: HISTORY group\n" := by
  intro files settings script
  have htable : settings.table.validate = .ok () := by decide
  have hservice : settings.service.validate = .ok () := by decide
  obtain ⟨session, hnew, hfaithful⟩ := faithful_follow htable hservice
  have hanswers := hfaithful script
  -- the notes are those of the two inserts
  have hfirst : Typed "  insert doc  hello \t world ".toList "insert".toList "doc".toList
      "  hello \t world ".toList :=
    ⟨"  ".toList, " ".toList, by decide, by decide, by decide, by decide, by decide, by decide, rfl⟩
  have hsecond : Typed "INSERT\tdoc a".toList "INSERT".toList "doc".toList " a".toList :=
    ⟨[], "\t".toList, by decide, by decide, by decide, by decide, by decide, by decide, rfl⟩
  have hnotes : notesOf script = [⟨"doc", "hello \t world"⟩, ⟨"doc", "a"⟩] := by
    show notesAfter files (notesAfter files [] _) _ = _
    rw [hfirst.notesAfter_insert (by decide), hsecond.notesAfter_insert (by decide)]
    decide
  have hdistinct : Distinct (notesOf script) "doc" := by
    rw [hnotes]
    intro row hrow _
    simp only [List.mem_cons, List.not_mem_nil, or_false] at hrow
    rcases hrow with rfl | rfl <;> rfl
  have hget : Typed "get doc 1".toList "get".toList "doc".toList " 1".toList :=
    ⟨[], " ".toList, by decide, by decide, by decide, by decide, by decide, by decide, rfl⟩
  have hlatest : Typed "LATEST\tdoc".toList "LATEST".toList "doc".toList [] :=
    ⟨[], "\t".toList, by decide, by decide, by decide, by decide, by decide, by decide, rfl⟩
  have hhistory : Typed "History doc ".toList "History".toList "doc".toList " ".toList :=
    ⟨[], " ".toList, by decide, by decide, by decide, by decide, by decide, by decide, rfl⟩
  have hnumber : Text.words (" ".toList ++ ("1".toList ++ [])) = "1".toList :: Text.words [] :=
    Text.words_append (by decide) (by decide) (by decide)
  have hlone : Text.words (" ".toList ++ ("HISTORY".toList ++ [])) = ["HISTORY".toList] := by
    rw [Text.words_append (by decide) (by decide) (by decide),
      Text.words_of_blank Text.allBlank_nil]
  refine ⟨htable, hservice, session, hnew, ?_, ?_, ?_, ?_⟩
  · have hshown := hanswers.get files _ _ _ _ _ 1 hget (by decide)
      (congrArg List.head? hnumber) (by decide) hdistinct
    rw [hshown, hnotes]
    decide
  · have hshown := hanswers.latest files _ _ _ _ hlatest (by decide) hdistinct
    rw [hshown, hnotes]
    decide
  · have hshown := hanswers.history files _ _ _ _ hhistory (by decide) hdistinct
    rw [hshown, hnotes]
    decide
  · refine (hanswers.misused files _ .history ?_).1
    show Malformed (Text.words (" ".toList ++ ("HISTORY".toList ++ []))) _
    rw [hlone]
    exact .bare .history (by decide)

end VersionChain.Shell
