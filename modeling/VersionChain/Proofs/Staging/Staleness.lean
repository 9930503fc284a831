import Mathlib
import VersionChain.Proofs.Staging.Idleness
import VersionChain.Proofs.Staging.Releases

/-!
# Tokens that are out of date

A token bears the number of a claim. A slot is only ever claimed under a number that has not been
given out, so a token that is out of date stays so, even if its group claims the same slot again.
A call with it is counted and does nothing else. A call with a current token concerns the ring of
its own group.

* `Renews` — the tokens that are current later were so before, or are new;
* `Renews.perform`, `Renews.run` — one call, and any number of them;
* `populate_stale` — filling a slot with a token that is out of date;
* `Undisturbed.recentBases_eq` — what is offered to the holders of other slots;
* `outdated_harmless` — calls with a token that was given out in a run;
* `populate_nothing_overlooked` — the call that does not look at its token.
-/

namespace VersionChain

/-- The call is made with a token of another group. -/
def StagingCommand.BearsOther (g : GroupId) : StagingCommand → Prop
  | .push t _ _ _ | .commit t _ | .populate t _ | .recentBases t _ _ _ => t.owner ≠ g
  | .acquire _ _ _ | .invalidate _ => False

namespace StagingBuffer

variable {b c d : StagingBuffer} {t u : Token} {owner : GroupId}

/-! ## Claims do not come back -/

/-- A token that is current later was so before, or bears a number that was still to be given
out. -/
structure Renews (b c : StagingBuffer) : Prop where
  numbers : b.nextEpoch ≤ c.nextEpoch
  tokens : ∀ t, c.isCurrent t = true → b.isCurrent t = true ∨ b.nextEpoch ≤ t.epoch

namespace Renews

theorem refl (b : StagingBuffer) : Renews b b := ⟨Nat.le_refl _, fun _ h => .inl h⟩

theorem trans (h : Renews b c) (h' : Renews c d) : Renews b d where
  numbers := Nat.le_trans h.numbers h'.numbers
  tokens t hcurrent := by
    rcases h'.tokens t hcurrent with hcurrent | hnew
    · exact h.tokens t hcurrent
    · exact .inr (Nat.le_trans h.numbers hnew)

/-- What is out of date under a number that has been given out stays out of date. -/
theorem stale (h : Renews b c) (hissued : t.epoch < b.nextEpoch) (hstale : b.isCurrent t = false) :
    c.isCurrent t = false := by
  refine Bool.eq_false_iff.mpr fun hcurrent => ?_
  rcases h.tokens t hcurrent with hbefore | hnew
  · rw [hstale] at hbefore
    cases hbefore
  · exact absurd hissued (Nat.not_lt.mpr hnew)

/-- The same claims, with other counters. -/
theorem of_claims (hnext : c.nextEpoch = b.nextEpoch)
    (hclaims : ∀ i : Nat, (c.slots[i]?).map claimOf = (b.slots[i]?).map claimOf) : Renews b c where
  numbers := Nat.le_of_eq hnext.symm
  tokens _ hcurrent := .inl (isCurrent_congr (fun i => (hclaims i).symm) hcurrent)

theorem freeSlot (b : StagingBuffer) (i : Nat) : Renews b (b.freeSlot i) where
  numbers := Nat.le_of_eq (b.freeSlot_counters i).2.1.symm
  tokens _ hcurrent := .inl (isCurrent_of_freeSlot hcurrent)

theorem freeSlots (b : StagingBuffer) (l : List Nat) : Renews b (b.freeSlots l) := by
  induction l generalizing b with
  | nil => exact refl b
  | cons i rest ih => exact (freeSlot b i).trans (ih (b.freeSlot i))

/-- A slot is claimed under the next number. -/
theorem claim {i : Nat} (hi : i < b.slots.size) (owner : GroupId) (depth columns : Nat) :
    Renews b (b.claim i owner depth columns).2 where
  numbers := Nat.le_succ b.nextEpoch
  tokens t hcurrent := by
    obtain ⟨slot, hslot, howner, hepoch⟩ := isCurrent_iff.mp hcurrent
    rcases slot_cases (slots_claim hi owner depth columns) hslot with ⟨-, rfl⟩ | ⟨-, hslot⟩
    · exact .inr (Nat.le_of_eq hepoch)
    · exact .inl (isCurrent_iff.mpr ⟨slot, hslot, howner, hepoch⟩)

theorem claimNew (h : b.Valid) (owner : GroupId) (depth columns : Nat) :
    Renews b (b.claimNew owner depth columns).2 := by
  -- whether a group loses its slot is counted first
  let counted (n : Nat) : StagingBuffer := { b with evictedWhileOwned := b.evictedWhileOwned + n }
  have hcounted (n : Nat) : Renews b (counted n) := of_claims rfl fun _ => rfl
  have hsize (n : Nat) : b.victim < ((counted n).freeSlot b.victim).slots.size := by
    rw [size_freeSlot]
    exact h.victim_lt
  rw [claimNew_eq (Array.getElem?_eq_getElem h.victim_lt)]
  exact ((hcounted _).trans (freeSlot _ b.victim)).trans (claim (hsize _) owner depth columns)

theorem acquire (h : b.Valid) (owner : GroupId) (depth columns : Nat) :
    Renews b (b.acquire owner depth columns).2.2 := by
  have hticked : b.ticked.Valid := h.count (b.tick + 1) b.evictedWhileOwned
  have htick : Renews b b.ticked := of_claims rfl fun _ => rfl
  rcases h.acquire_cases owner depth columns with
    ⟨i, slot, -, -, -, hacquire⟩ | ⟨i, slot, -, -, -, hacquire⟩ | ⟨-, hacquire⟩
  · rw [hacquire]
    refine of_claims rfl fun j => ?_
    exact map_claimOf_modify i j _ fun _ => rfl
  · rw [hacquire]
    have hfreed := htick.trans (freeSlot b.ticked i)
    exact hfreed.trans (claimNew (hticked.freeSlot i) owner (clampDepth depth) (min columns maxShape))
  · rw [hacquire]
    exact htick.trans (claimNew hticked owner (clampDepth depth) (min columns maxShape))

theorem push (h : b.Valid) (t : Token) (seq column : Nat) (content : Bytes) :
    Renews b (b.push t seq column content).2 :=
  of_claims (h.steady_push t seq column content).nextEpoch (h.push t seq column content).claims

theorem commit (h : b.Valid) (t : Token) (seq : Nat) : Renews b (b.commit t seq).2 :=
  of_claims (h.steady_commit t seq).nextEpoch (h.commit t seq).claims

theorem populate (h : b.Valid) (t : Token) (rows : List StagedRow) :
    Renews b (b.populate t rows).2 :=
  (stageRows_keeps (P := fun c => c.Valid ∧ Renews b c)
    (fun _ seq column content hc => ⟨(hc.1.push t seq column content).valid,
      hc.2.trans (push hc.1 t seq column content)⟩)
    (fun _ seq hc => ⟨(hc.1.commit t seq).valid, hc.2.trans (commit hc.1 t seq)⟩)
    ⟨h, refl b⟩ _).2

theorem perform (h : b.Valid) (command : StagingCommand) : Renews b (b.perform command) := by
  cases command with
  | acquire owner depth columns => exact acquire h owner depth columns
  | push t seq column content => exact push h t seq column content
  | commit t seq => exact commit h t seq
  | populate t rows => exact populate h t rows
  | recentBases t target column limit =>
    exact of_claims (h.steady_recentBases t target column limit).nextEpoch
      (h.recentBases t target column limit).claims
  | invalidate table => exact freeSlots b _

theorem run (h : b.Valid) (commands : List StagingCommand) :
    Renews b (commands.foldl StagingBuffer.perform b) := by
  induction commands generalizing b with
  | nil => exact refl b
  | cons command rest ih => exact (perform h command).trans (ih (h.perform command).1)

end Renews

/-- Every token is given out under a number that is then no longer the next. -/
theorem Booked.epoch_acquire_lt (h : b.Booked) (owner : GroupId) (depth columns : Nat) :
    (b.acquire owner depth columns).1.epoch < (b.acquire owner depth columns).2.2.nextEpoch := by
  have hcurrent := (h.valid.acquire owner depth columns).current
  obtain ⟨slot, hslot, -, hepoch⟩ := isCurrent_iff.mp hcurrent
  rw [← hepoch]
  exact (h.acquire owner depth columns).issued _ slot hslot

/-! ## Calls that come too late -/

/-- The buffer after a call with a token that is out of date. -/
def missed (b : StagingBuffer) : StagingBuffer := { b with mismatches := b.mismatches + 1 }

theorem pushColumns_stale (h : b.isCurrent t = false) (seq column : Nat)
    (contents : List (Option Bytes)) :
    b.pushColumns t seq column contents = (true, b) ∨
    b.pushColumns t seq column contents = (false, b.missed) := by
  induction contents generalizing column with
  | nil => exact .inl rfl
  | cons head rest ih =>
    cases head with
    | none => exact ih (column + 1)
    | some content =>
      have hmissed : b.missed.isCurrent t = false := h
      rw [pushColumns_some, push_stale h, if_neg]
      · exact .inr rfl
      · rintro (hfalse | hcurrent)
        · cases hfalse
        · exact Bool.false_ne_true (hmissed.symm.trans hcurrent)

/-- The first row is given up, at its first content or when it is to be sealed. -/
theorem stageRows_stale (h : b.isCurrent t = false) {rows : List StagedRow} (hrows : rows ≠ []) :
    b.stageRows t rows = (false, b.missed) := by
  cases rows with
  | nil => exact absurd rfl hrows
  | cons row rest =>
    rw [StagingBuffer.stageRows]
    rcases pushColumns_stale h row.seq 0 row.columns with hpushed | hpushed
    · simp only [hpushed, commit_stale h]
      rfl
    · simp only [hpushed]

theorem populate_stale (h : b.isCurrent t = false) {rows : List StagedRow} (hrows : rows ≠ []) :
    b.populate t rows = (false, b.missed) := by
  refine stageRows_stale h ?_
  rwa [ne_eq, ← List.length_eq_zero_iff, List.length_mergeSort, List.length_eq_zero_iff]

/-- Without rows the token is not looked at. -/
theorem populate_nil (b : StagingBuffer) (t : Token) : b.populate t [] = (true, b) := by
  unfold populate
  rw [List.mergeSort_nil, stageRows]

/-! ## The slots of others -/

/-- What is offered to the holder of a slot stays, whatever is done with tokens of others. -/
theorem Undisturbed.recentBases_eq (h : Undisturbed b c u) (hb : b.Valid) (hother : u.owner ≠ t.owner)
    (target column limit : Nat) :
    (c.recentBases t target column limit).1 = (b.recentBases t target column limit).1 := by
  cases hcurrent : b.isCurrent t with
  | true =>
    obtain ⟨ring, hstaged⟩ := hb.staged hcurrent
    have hkept : Staged c t ring :=
      ⟨h.valid, (h.isCurrent_eq t).trans hcurrent, (h.others t.owner hother.symm).trans hstaged.ring⟩
    rw [hstaged.recentBases, hkept.recentBases]
  | false =>
    rw [recentBases_stale hcurrent, recentBases_stale ((h.isCurrent_eq t).trans hcurrent)]

/-- A call with a token of another group. -/
theorem Valid.undisturbed_perform (h : b.Valid) {g : GroupId} {command : StagingCommand}
    (hother : command.BearsOther g) : ∃ u, u.owner ≠ g ∧ Undisturbed b (b.perform command) u := by
  cases command with
  | acquire owner depth columns => exact hother.elim
  | push u seq column content => exact ⟨u, hother, h.push u seq column content⟩
  | commit u seq => exact ⟨u, hother, h.commit u seq⟩
  | populate u rows => exact ⟨u, hother, h.stageRows u _⟩
  | recentBases u target column limit => exact ⟨u, hother, h.recentBases u target column limit⟩
  | invalidate table => exact hother.elim

theorem Valid.recentBases_run (h : b.Valid) {commands : List StagingCommand}
    (hothers : ∀ command ∈ commands, command.BearsOther t.owner) :
    (commands.foldl StagingBuffer.perform b).isCurrent t = b.isCurrent t ∧
    ∀ target column limit,
      ((commands.foldl StagingBuffer.perform b).recentBases t target column limit).1 =
        (b.recentBases t target column limit).1 := by
  induction commands generalizing b with
  | nil => exact ⟨rfl, fun _ _ _ => rfl⟩
  | cons command rest ih =>
    obtain ⟨hcommand, hrest⟩ := List.forall_mem_cons.mp hothers
    obtain ⟨u, hu, hkept⟩ := h.undisturbed_perform hcommand
    obtain ⟨hcurrent, hbases⟩ := ih hkept.valid hrest
    exact ⟨hcurrent.trans (hkept.isCurrent_eq t), fun target column limit =>
      (hbases target column limit).trans (hkept.recentBases_eq h hu target column limit)⟩

/-! ## Tokens that were given out -/

/-- A token that was given out and is out of date stays so, whatever calls are made. With it,
pushing, sealing and filling with rows fail, nothing is offered, and but for the count of such
calls nothing changes; filling with no rows changes nothing at all. As long as it is current,
calls with tokens of other groups change nothing about what it is offered. -/
theorem outdated_harmless (slots : Nat) (earlier later : List StagingCommand) (owner : GroupId)
    (depth columns : Nat) :
    let t := ((earlier.foldl perform (new slots)).acquire owner depth columns).1
    let b := (earlier ++ .acquire owner depth columns :: later).foldl perform (new slots)
    (b.isCurrent t = false →
      (∀ commands : List StagingCommand, (commands.foldl perform b).isCurrent t = false) ∧
      (∀ seq column content, b.push t seq column content = (false, b.missed)) ∧
      (∀ seq, b.commit t seq = (false, b.missed)) ∧
      (∀ target column limit, b.recentBases t target column limit = ([], b.missed)) ∧
      (∀ rows, rows ≠ [] → b.populate t rows = (false, b.missed)) ∧
      (b.populate t []).2 = b) ∧
    (b.isCurrent t = true → ∀ commands : List StagingCommand,
      (∀ command ∈ commands, command.BearsOther t.owner) →
        (commands.foldl perform b).isCurrent t = true ∧
        ∀ target column limit, ((commands.foldl perform b).recentBases t target column limit).1 =
          (b.recentBases t target column limit).1) := by
  intro t b
  have hbefore : (earlier.foldl perform (new slots)).Booked := (booked_new slots).run earlier
  have hclaimed := hbefore.acquire owner depth columns
  have hrun : b = later.foldl perform
      ((earlier.foldl perform (new slots)).acquire owner depth columns).2.2 := by
    show List.foldl perform (new slots) _ = _
    rw [List.foldl_append, List.foldl_cons]
    rfl
  have hbooked : b.Booked := hrun ▸ hclaimed.run later
  have hissued : t.epoch < b.nextEpoch :=
    Nat.lt_of_lt_of_le (hbefore.epoch_acquire_lt owner depth columns)
      (hrun ▸ (Renews.run hclaimed.valid later).numbers)
  refine ⟨fun hstale => ⟨fun commands => ?_, ?_, ?_, ?_, ?_, ?_⟩, fun hcurrent commands hothers => ?_⟩
  · exact (Renews.run hbooked.valid commands).stale hissued hstale
  · exact push_stale hstale
  · exact commit_stale hstale
  · exact recentBases_stale hstale
  · exact fun rows hrows => populate_stale hstale hrows
  · rw [populate_nil]
  · obtain ⟨hkept, hbases⟩ := hbooked.valid.recentBases_run hothers
    exact ⟨hkept.trans hcurrent, hbases⟩

/-- One group claims a slot and commits a version, and then another group claims one. -/
def contended (slots : Nat) : StagingBuffer :=
  let t : Token := ⟨0, ⟨1, ⟨0, 7⟩⟩, 1⟩
  let calls : List StagingCommand :=
    [.acquire t.owner 1 1, .push t 1 0 #[10], .commit t 1, .acquire ⟨1, ⟨0, 8⟩⟩ 1 1]
  calls.foldl perform (new slots)

/-- A slot is taken from a group, which claims it back: the token of the first claim stays out of
date. Where there are two slots both groups keep theirs, and the one does not see what the other
writes. -/
theorem outdated_harmless_two_groups :
    let t : Token := ⟨0, ⟨1, ⟨0, 7⟩⟩, 1⟩
    let u : Token := ⟨1, ⟨1, ⟨0, 8⟩⟩, 2⟩
    let later : List StagingCommand := [.push u 1 0 #[20], .commit u 1, .recentBases u 2 0 1]
    ((contended 1).isCurrent t = false ∧
      ([.acquire t.owner 1 1].foldl perform (contended 1)).isCurrent t = false ∧
      (contended 1).push t 2 0 #[30] = (false, (contended 1).missed) ∧
      (contended 1).populate t [⟨2, []⟩] = (false, (contended 1).missed)) ∧
    ((contended 2).isCurrent t = true ∧
      (∀ command ∈ later, command.BearsOther t.owner) ∧
      ((later.foldl perform (contended 2)).recentBases t 2 0 1).1 =
        ((contended 2).recentBases t 2 0 1).1 ∧
      ((contended 2).recentBases t 2 0 1).1 = [⟨1, 1, #[10]⟩]) := by
  intro t u later
  have htoken : ((new 1).acquire t.owner 1 1).1 = t := by
    dsimp only [t]
    cbv
  have htoken' : ((new 2).acquire t.owner 1 1).1 = t := by
    dsimp only [t]
    cbv
  have hstale : (contended 1).isCurrent t = false := by
    dsimp only [t]
    cbv
  have hcurrent : (contended 2).isCurrent t = true := by
    dsimp only [t]
    cbv
  have hother : u.owner ≠ t.owner := by decide
  have hothers : ∀ command ∈ later, command.BearsOther t.owner :=
    List.forall_mem_cons.mpr ⟨hother, List.forall_mem_cons.mpr ⟨hother,
      List.forall_mem_singleton.mpr hother⟩⟩
  let calls : List StagingCommand := [.push t 1 0 #[10], .commit t 1, .acquire u.owner 1 1]
  have hdated := outdated_harmless 1 [] calls t.owner 1 1
  have hkept := outdated_harmless 2 [] calls t.owner 1 1
  simp only [List.foldl_nil, htoken, htoken', List.nil_append] at hdated hkept
  obtain ⟨hever, hpush, -, -, hpopulate, -⟩ := hdated.1 hstale
  obtain ⟨-, hbases⟩ := hkept.2 hcurrent later hothers
  refine ⟨⟨hstale, hever _, hpush 2 0 #[30], hpopulate _ (List.cons_ne_nil _ _)⟩, hcurrent, hothers,
    hbases 2 0 1, ?_⟩
  dsimp only [t]
  cbv

/-- Filling a slot with no rows is said to succeed even if the slot has been taken: there is no row
whose content or seal would have to look at the token. -/
theorem populate_nothing_overlooked :
    let (t, _, b) := (new 1).acquire ⟨1, ⟨0, 1⟩⟩ 1 1
    let (_, _, c) := b.acquire ⟨1, ⟨0, 2⟩⟩ 1 1
    c.isCurrent t = false ∧ c.populate t [] = (true, c) := by
  simp [acquire, claimNew, claim, victim, freeSlot, new, Arena.allocate, Arena.release, idlest,
    maxShape, isCurrent, populate, stageRows]

end StagingBuffer

end VersionChain
