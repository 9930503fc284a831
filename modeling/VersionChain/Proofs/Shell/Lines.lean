import Mathlib.Data.List.Basic
import Mathlib.Data.List.TakeWhile
import VersionChain.Shell.Command

/-!
# What is read off a line

A line is read in two ways: the words of most commands are cut at blanks, while the arguments of
`INSERT` are a row, which is what follows the first word, trimmed and cut at its first blank. Both
find the same group. Lines are taken apart here as they are typed: blanks, a word, blanks, a second
word, and more.

* `words_append`, `exists_of_words_eq_cons` — the first word of a text and the others;
* `trim_eq`, `exists_eq_trim` — what trimming takes away, and what it leaves;
* `Typed` — a line with a second word; `Typed.words`, `Typed.parse?` — the words and the row of it;
* `Typed.parse`, `Malformed.parse` — the command in a line, or what is wrong with it.
-/

namespace VersionChain

namespace Text

variable {text word rest margin core tail : List Char}

/-! ## Parts of a line -/

/-- Blank throughout. -/
def AllBlank (text : List Char) : Prop := ∀ c ∈ text, isBlank c = true

/-- At least one character, and no blank. -/
def Solid (text : List Char) : Prop := text ≠ [] ∧ ∀ c ∈ text, isBlank c = false

/-- Nothing, or something that starts with a blank. -/
def Apart (text : List Char) : Prop := ∀ c ∈ text.head?, isBlank c = true

/-- Without a blank at either end. -/
def Trimmed (text : List Char) : Prop :=
  (∀ c ∈ text.head?, isBlank c = false) ∧ ∀ c ∈ text.getLast?, isBlank c = false

instance (text : List Char) : Decidable (AllBlank text) :=
  decidable_of_iff (text.all isBlank = true) List.all_eq_true

instance (text : List Char) : Decidable (Solid text) :=
  decidable_of_iff ((!text.isEmpty && text.all (!isBlank ·)) = true) (by simp [Solid])

instance (text : List Char) : Decidable (Apart text) :=
  decidable_of_iff (text.head?.all isBlank = true) (by cases text <;> simp [Apart])

theorem allBlank_nil : AllBlank [] := fun _ hc => (List.not_mem_nil hc).elim

theorem apart_nil : Apart [] := fun _ hc => nomatch hc

theorem AllBlank.apart (h : AllBlank text) : Apart text :=
  fun _ hc => h _ (List.mem_of_mem_head? hc)

theorem Apart.append (h : Apart text) (hne : text ≠ []) (rest : List Char) :
    Apart (text ++ rest) := by
  intro c hc
  rw [List.head?_append_of_ne_nil text hne] at hc
  exact h c hc

/-- What is apart and does not start with a blank is empty. -/
theorem Apart.eq_nil (h : Apart text) (hhead : ∀ c ∈ text.head?, isBlank c = false) :
    text = [] := by
  cases text with
  | nil => rfl
  | cons c rest => exact absurd ((h c rfl).symm.trans (hhead c rfl)) (by decide)

theorem Solid.head (h : Solid word) (rest : List Char) :
    ∀ c ∈ (word ++ rest).head?, isBlank c = false := by
  intro c hc
  rw [List.head?_append_of_ne_nil word h.1] at hc
  exact h.2 c (List.mem_of_mem_head? hc)

theorem Solid.trimmed (h : Solid word) : Trimmed word :=
  ⟨fun c hc => h.2 c (List.mem_of_mem_head? hc), fun c hc => h.2 c (List.mem_of_mem_getLast? hc)⟩

/-! ## Words -/

theorem trimStart_append (h : AllBlank margin) (rest : List Char) :
    trimStart (margin ++ rest) = trimStart rest := List.dropWhile_append_of_pos h

/-- What starts without a blank stays. -/
theorem trimStart_eq_self (h : ∀ c ∈ text.head?, isBlank c = false) : trimStart text = text := by
  cases text with
  | nil => rfl
  | cons c rest => exact List.dropWhile_cons_of_neg (by simp [h c rfl])

theorem takeWhile_solid (hword : Solid word) (hrest : Apart rest) :
    (word ++ rest).takeWhile (!isBlank ·) = word := by
  rw [List.takeWhile_append_of_pos fun c hc => by simp [hword.2 c hc]]
  cases rest with
  | nil => simp
  | cons c rest => rw [List.takeWhile_cons_of_neg (by simp [hrest c rfl]), List.append_nil]

theorem dropWhile_solid (hword : Solid word) (hrest : Apart rest) :
    (word ++ rest).dropWhile (!isBlank ·) = rest := by
  rw [List.dropWhile_append_of_pos fun c hc => by simp [hword.2 c hc]]
  cases rest with
  | nil => rfl
  | cons c rest => exact List.dropWhile_cons_of_neg (by simp [hrest c rfl])

/-- The first word ends where a blank follows, and the others come from behind it. -/
theorem words_append (hmargin : AllBlank margin) (hword : Solid word) (hrest : Apart rest) :
    words (margin ++ (word ++ rest)) = word :: words rest := by
  have hstart : trimStart (margin ++ (word ++ rest)) = word ++ rest := by
    rw [trimStart_append hmargin, trimStart_eq_self (hword.head rest)]
  rw [words]
  split
  · rename_i hnil
    rw [hstart] at hnil
    exact absurd (List.append_eq_nil_iff.mp hnil).1 hword.1
  · rename_i c tail hcons
    rw [← hcons, hstart, takeWhile_solid hword hrest, dropWhile_solid hword hrest]

theorem words_of_blank (h : AllBlank text) : words text = [] := (words_eq_nil_iff text).mpr h

/-- A text with a first word has blanks before it, and the other words behind it. -/
theorem exists_of_words_eq_cons {others : List (List Char)} (h : words text = word :: others) :
    ∃ margin rest, text = margin ++ (word ++ rest) ∧ AllBlank margin ∧ Solid word ∧ Apart rest ∧
      words rest = others := by
  rw [words] at h
  split at h
  · cases h
  · rename_i c tail hcons
    obtain ⟨hword, hothers⟩ := List.cons_eq_cons.mp h
    have hc : isBlank c = false := by
      have hhead := List.head?_dropWhile_not isBlank text
      rw [show text.dropWhile isBlank = c :: tail from hcons] at hhead
      simpa using hhead
    refine ⟨text.takeWhile isBlank, (c :: tail).dropWhile (!isBlank ·), ?_, ?_, ⟨?_, ?_⟩, ?_,
      hothers⟩
    · rw [← hword, List.takeWhile_append_dropWhile, ← hcons]
      exact List.takeWhile_append_dropWhile.symm
    · exact fun c hc => List.mem_takeWhile_imp hc
    · rw [← hword, List.takeWhile_cons_of_pos (by simp [hc])]
      exact List.cons_ne_nil _ _
    · intro c hc
      rw [← hword] at hc
      simpa using List.mem_takeWhile_imp hc
    · intro b hb
      have hhead := List.head?_dropWhile_not (!isBlank ·) (c :: tail)
      rw [Option.mem_def.mp hb] at hhead
      simpa using hhead

/-! ## Trimming -/

theorem trimEnd_append (htail : AllBlank tail) (hlast : ∀ c ∈ core.getLast?, isBlank c = false) :
    trimEnd (core ++ tail) = core := by
  have hblank : ∀ c ∈ tail.reverse, isBlank c = true :=
    fun c hc => htail c (List.mem_reverse.mp hc)
  unfold trimEnd
  rw [List.reverse_append, List.dropWhile_append_of_pos hblank]
  have hself : trimStart core.reverse = core.reverse :=
    trimStart_eq_self fun c hc => hlast c (by rwa [List.head?_reverse] at hc)
  rw [show core.reverse.dropWhile isBlank = core.reverse from hself, List.reverse_reverse]

/-- Trimming leaves what stands between the blanks at the ends. -/
theorem trim_eq (hmargin : AllBlank margin) (htail : AllBlank tail) (hcore : Trimmed core) :
    trim (margin ++ (core ++ tail)) = core := by
  unfold trim
  rw [trimStart_append hmargin]
  by_cases hne : core = []
  · subst hne
    rw [List.nil_append, (trimStart_eq_nil_iff tail).mpr htail]
    rfl
  · rw [trimStart_eq_self, trimEnd_append htail hcore.2]
    rw [List.head?_append_of_ne_nil core hne]
    exact hcore.1

theorem trim_of_blank (h : AllBlank text) : trim text = [] := by
  have htrimmed : Trimmed [] := ⟨fun _ hc => (nomatch hc), fun _ hc => (nomatch hc)⟩
  simpa using trim_eq h allBlank_nil htrimmed

/-- Every text is what is left of it by trimming, with blanks at the ends. -/
theorem exists_eq_trim (text : List Char) : ∃ margin tail, AllBlank margin ∧ AllBlank tail ∧
    Trimmed (trim text) ∧ text = margin ++ (trim text ++ tail) := by
  obtain ⟨core, hcore⟩ : ∃ core, core = trimStart text := ⟨_, rfl⟩
  obtain ⟨back, hback⟩ : ∃ back, back = core.reverse := ⟨_, rfl⟩
  have htrim : trim text = (back.dropWhile isBlank).reverse := by rw [hback, hcore]; rfl
  have htail : trim text ++ (back.takeWhile isBlank).reverse = core := by
    rw [htrim, ← List.reverse_append, List.takeWhile_append_dropWhile, hback, List.reverse_reverse]
  have hhead : ∀ c ∈ core.head?, isBlank c = false := by
    intro c hc
    have hnot := List.head?_dropWhile_not isBlank text
    rw [show text.dropWhile isBlank = core from hcore.symm, Option.mem_def.mp hc] at hnot
    simpa using hnot
  refine ⟨text.takeWhile isBlank, (back.takeWhile isBlank).reverse, ?_, ?_, ⟨?_, ?_⟩, ?_⟩
  · exact fun c hc => List.mem_takeWhile_imp hc
  · exact fun c hc => List.mem_takeWhile_imp (List.mem_reverse.mp hc)
  · intro c hc
    refine hhead c ?_
    rw [← htail, List.head?_append, Option.mem_def.mp hc]
    rfl
  · intro c hc
    rw [htrim, List.getLast?_reverse] at hc
    have hnot := List.head?_dropWhile_not isBlank back
    rw [Option.mem_def.mp hc] at hnot
    simpa using hnot
  · rw [htail, hcore]
    exact List.takeWhile_append_dropWhile.symm

end Text

namespace Shell

open Text

variable {line word group rest margin gap : List Char} {others : List (List Char)}

/-! ## Lines with a second word -/

/-- A line as it is typed: a word, blanks, a group and the rest, which is apart from the group.
There may be blanks in front. -/
def Typed (line word group rest : List Char) : Prop :=
  ∃ margin gap, AllBlank margin ∧ Solid word ∧ AllBlank gap ∧ gap ≠ [] ∧ Solid group ∧ Apart rest ∧
    line = margin ++ (word ++ (gap ++ (group ++ rest)))

/-- The words of a line: the group is the second one. -/
theorem Typed.words (h : Typed line word group rest) :
    Text.words line = word :: group :: Text.words rest := by
  obtain ⟨margin, gap, hmargin, hword, hgap, hne, hgroup, hrest, rfl⟩ := h
  rw [words_append hmargin hword (hgap.apart.append hne _), words_append hgap hgroup hrest]

/-- Every line with a second word is typed like that. -/
theorem exists_typed (h : Text.words line = word :: group :: others) :
    ∃ rest, Typed line word group rest ∧ Text.words rest = others := by
  obtain ⟨margin, back, hline, hmargin, hword, hback, hwords⟩ := exists_of_words_eq_cons h
  obtain ⟨gap, rest, hgroup, hgap, hsolid, hrest, hothers⟩ := exists_of_words_eq_cons hwords
  refine ⟨rest, ⟨margin, gap, hmargin, hword, hgap, ?_, hsolid, hrest, ?_⟩, hothers⟩
  · -- without a gap the second word would go on where the first one ends
    rintro rfl
    rw [hgroup, List.nil_append] at hback
    have hnil := hback.eq_nil (hsolid.head rest)
    exact hsolid.1 (List.append_eq_nil_iff.mp hnil).1
  · rw [hline, hgroup]

theorem afterWord_append (hmargin : AllBlank margin) (hword : Solid word) (hrest : Apart rest) :
    Command.afterWord (margin ++ (word ++ rest)) = rest := by
  unfold Command.afterWord
  rw [trimStart_append hmargin, trimStart_eq_self (hword.head rest), dropWhile_solid hword hrest]

/-- The row that is typed behind a word. -/
def typedRow (group rest : List Char) : Row := ⟨.ofList group, .ofList (trim rest)⟩

theorem splitWord_append (hgroup : Solid group) (hrest : Apart rest) :
    splitWord (group ++ rest) = (group, rest.drop 1) := by
  unfold splitWord
  rw [takeWhile_solid hgroup hrest, dropWhile_solid hgroup hrest]

/-- A row is cut behind its group, and what follows is trimmed. -/
theorem Row.parse?_append (hgap : AllBlank gap) (hgroup : Solid group) (hrest : Apart rest) :
    Row.parse? (gap ++ (group ++ rest)) = some (typedRow group rest) := by
  -- trimming the line takes the same blanks from the end as trimming the value
  obtain ⟨front, tail, hfront, htail, hvalue, heq⟩ := exists_eq_trim rest
  by_cases hnil : trim rest = []
  · have hblank : AllBlank rest := by
      intro c hc
      rw [heq, hnil, List.nil_append] at hc
      exact (List.mem_append.mp hc).elim (hfront c) (htail c)
    have htrim : trim (gap ++ (group ++ rest)) = group := trim_eq hgap hblank hgroup.trimmed
    have hsplit := splitWord_append hgroup apart_nil
    rw [List.append_nil] at hsplit
    unfold Row.parse? typedRow
    rw [htrim, hnil]
    split
    · exact absurd rfl hgroup.1
    · simp only [hsplit]
      rfl
  · obtain ⟨blank, front, rfl⟩ : ∃ blank front', front = blank :: front' := by
      cases front with
      | nil =>
        rw [List.nil_append] at heq
        have hempty := hrest.eq_nil fun c hc => hvalue.1 c (by
          rwa [heq, List.head?_append_of_ne_nil _ hnil] at hc)
        exact absurd (by rw [hempty]; rfl) hnil
      | cons blank front' => exact ⟨blank, front', rfl⟩
    have hcore : Trimmed (group ++ ((blank :: front) ++ trim rest)) := by
      refine ⟨hgroup.head _, fun c hc => hvalue.2 c ?_⟩
      rwa [← List.append_assoc, List.getLast?_append_of_ne_nil _ hnil] at hc
    have hapart : Apart ((blank :: front) ++ trim rest) :=
      hfront.apart.append (List.cons_ne_nil _ _) _
    have htrim : trim (gap ++ (group ++ rest)) = group ++ ((blank :: front) ++ trim rest) := by
      have := trim_eq hgap htail hcore
      rwa [List.append_assoc, List.append_assoc, ← heq] at this
    have hinner : trim (front ++ trim rest) = trim rest := by
      have := trim_eq (fun c hc => hfront c (List.mem_cons_of_mem _ hc)) allBlank_nil hvalue
      rwa [List.append_nil] at this
    unfold Row.parse? typedRow
    rw [htrim]
    split
    · rename_i habsurd
      exact absurd (List.append_eq_nil_iff.mp habsurd).1 hgroup.1
    · simp only [splitWord_append hgroup hapart]
      rw [List.cons_append, List.drop_one, List.tail_cons, hinner]

/-- The row behind the first word: the group that is the second word, and the rest, trimmed. -/
theorem Typed.parse? (h : Typed line word group rest) :
    Row.parse? (Command.afterWord line) = some (typedRow group rest) := by
  obtain ⟨margin, gap, hmargin, hword, hgap, hne, hgroup, hrest, rfl⟩ := h
  rw [afterWord_append hmargin hword (hgap.apart.append hne _), Row.parse?_append hgap hgroup hrest]

/-- Behind a word that is the only one, there is no row. -/
theorem parse?_eq_none_of_words (h : Text.words line = [word]) :
    Row.parse? (Command.afterWord line) = none := by
  obtain ⟨margin, rest, hline, hmargin, hword, hrest, hwords⟩ := exists_of_words_eq_cons h
  rw [hline, afterWord_append hmargin hword hrest]
  unfold Row.parse?
  rw [trim_of_blank ((words_eq_nil_iff rest).mp hwords)]

/-! ## Commands -/

/-- The command that a word stands for, in any case. -/
def commandOf (word : List Char) : String := .ofList (upperCase word)

/-- The word of a command that needs arguments. -/
def Form.name : Form → String
  | insert => "INSERT"
  | get => "GET"
  | latest => "LATEST"
  | history => "HISTORY"
  | load => "LOAD"

/-- The words of the commands that need no arguments. -/
def loneNames : List String := ["TRUNCATE", "STATS", "EXIT", "QUIT"]

/-- A command with a second word and a rest: an insert takes the rest, trimmed, as the value. -/
def Form.typed (group rest : List Char) : Form → Command
  | insert => .insert (typedRow group rest)
  | get => .ofVersion (group :: Text.words rest)
  | latest => .latest (.ofList group)
  | history => .history (.ofList group)
  | load => .load (.ofList group)

/-- The command in a line with a second word. -/
theorem Typed.parse (h : Typed line word group rest) (form : Form)
    (hword : commandOf word = form.name) : Command.parse line = form.typed group rest := by
  unfold Command.parse
  simp only [h.words, show String.ofList (upperCase word) = form.name from hword]
  cases form with
  | insert =>
    simp only [Form.name, h.parse?]
    rfl
  | get => rfl
  | latest => rfl
  | history => rfl
  | load => rfl

theorem typed_get {number : List Char} {seq : Nat} (hrest : (Text.words rest).head? = some number)
    (hseq : number? number = some seq) : Form.get.typed group rest = .get (.ofList group) seq := by
  obtain ⟨others, hothers⟩ := List.head?_eq_some_iff.mp hrest
  unfold Form.typed Command.ofVersion
  simp only [hothers, hseq]

theorem parse_truncate (hwords : Text.words line = word :: others)
    (hword : commandOf word = "TRUNCATE") : Command.parse line = .truncate := by
  unfold Command.parse
  simp only [hwords, show String.ofList (upperCase word) = "TRUNCATE" from hword]

/-- The words of a line that is no command, and what is found in it instead. -/
inductive Malformed : List (List Char) → Command → Prop
  /-- The command needs arguments and has none. -/
  | bare {word : List Char} (form : Form) :
      commandOf word = form.name → Malformed [word] (.misused form)
  /-- The number of the version is missing. -/
  | unnumbered {word group : List Char} :
      commandOf word = Form.get.name → Malformed [word, group] (.misused .get)
  /-- What should be the number of the version is none, or too large. -/
  | misnumbered {word group number : List Char} {others : List (List Char)} :
      commandOf word = Form.get.name → number? number = none →
        Malformed (word :: group :: number :: others) (.misused .get)
  /-- There is no such command. -/
  | unknown {word : List Char} {others : List (List Char)} :
      (∀ form : Form, commandOf word ≠ form.name) → commandOf word ∉ loneNames →
        Malformed (word :: others) (.unknown (commandOf word))

/-- Lines that are no commands are found out. -/
theorem Malformed.parse {command : Command} (h : Malformed (Text.words line) command) :
    Command.parse line = command := by
  generalize hwords : Text.words line = words at h
  unfold Command.parse
  cases h with
  | @bare word form hword =>
    simp only [hwords, show String.ofList (upperCase word) = form.name from hword,
      parse?_eq_none_of_words hwords]
    cases form <;> rfl
  | @unnumbered word group hword =>
    simp only [hwords, show String.ofList (upperCase word) = "GET" from hword, Command.ofVersion]
  | @misnumbered word group number others hword hnumber =>
    simp only [hwords, show String.ofList (upperCase word) = "GET" from hword, Command.ofVersion,
      hnumber]
  | @unknown word others hforms hlone =>
    simp only [hwords]
    simp only [loneNames, List.mem_cons, List.not_mem_nil, or_false, not_or] at hlone
    obtain ⟨htruncate, hstatistics, hexit, hquit⟩ := hlone
    split
    · exact absurd ‹_› (hforms .insert)
    · exact absurd ‹_› (hforms .get)
    · exact absurd ‹_› (hforms .latest)
    · exact absurd ‹_› (hforms .history)
    · exact absurd ‹_› htruncate
    · exact absurd ‹_› (hforms .load)
    · exact absurd ‹_› hstatistics
    · exact absurd ‹_› hexit
    · exact absurd ‹_› hquit
    · rfl

end Shell

end VersionChain
