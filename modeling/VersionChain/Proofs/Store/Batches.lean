import Mathlib.Data.List.Dedup
import VersionChain.Proofs.Store.Postings

/-!
# Statistics in batches

It makes no difference to the statistics of a group in which transactions its inserts came, and in
which order these were committed. What is published is the sum of the inserts that were not part of
a transaction and of those whose transaction was committed, each counted once.

* `GroupStats.tally` — inserts counted one after the other, in whatever order;
* `Receipt` — what became of an insert, with its outcome;
* `Receipt.follow_eq_told` — it does not depend on what is cached;
* `Run.publishes_tally` — the statistics of every group, and what a commit returns.
-/

namespace VersionChain

open StoreM

/-! ## Counting inserts -/

namespace GroupStats

theorem add_right_comm (totals : GroupStats) (o o' : Outcome) :
    (totals.add o).add o' = (totals.add o').add o := by
  unfold add
  rw [Nat.max_right_comm]
  simp only [Nat.add_right_comm]

/-- The totals of inserts that are counted one after the other. There are none without an
insert. -/
def tally (os : List Outcome) : Option GroupStats :=
  if os.isEmpty then none else some (os.foldl add {})

theorem tally_concat (os : List Outcome) (o : Outcome) :
    tally (os ++ [o]) = join (tally os) (some (.ofOutcome o)) := by
  unfold tally
  rw [List.foldl_append]
  cases os <;> exact congrArg some (add_eq_merge _ o)

/-- The order in which inserts are counted does not matter. -/
theorem tally_perm {os os' : List Outcome} (h : os.Perm os') : tally os = tally os' := by
  unfold tally
  rw [h.isEmpty_eq, h.foldl_eq' fun o _ o' _ totals => totals.add_right_comm o o']

end GroupStats

/-! ## What became of the inserts of a run -/

/-- An insert that succeeded, with what has become of its totals. -/
structure Receipt where
  table : TableId
  outcome : Outcome
  fate : Fate
  deriving DecidableEq, Repr

namespace Receipt

def group (x : Receipt) : GroupId := ⟨x.table, x.outcome.group⟩

def posting (x : Receipt) : Posting := ⟨.ofOutcome x.outcome, x.fate⟩

/-- What the inserts of a group stored whose totals share a fate. -/
def outcomes (fate : Fate) (g : GroupId) (xs : List Receipt) : List Outcome :=
  (xs.filter fun x => x.group = g ∧ x.fate = fate).map (·.outcome)

/-- The groups of the inserts whose totals share a fate, each once. -/
def groups (fate : Fate) (xs : List Receipt) : List GroupId :=
  ((xs.filter (·.fate = fate)).map group).dedup

/-- The totals of the inserts of a group. -/
def postings (xs : List Receipt) (g : GroupId) : List Posting :=
  (xs.filter (·.group = g)).map posting

/-- All totals that share a fate meet with another one. -/
def settle (before after : Fate) (xs : List Receipt) : List Receipt :=
  xs.map fun x => if x.fate = before then { x with fate := after } else x

/-- Adds an insert, if it succeeds. -/
def inserted (xs : List Receipt) (transaction : Option Nat) (table : TableId) :
    Except StoreError Outcome → List Receipt
  | .ok outcome => xs ++ [⟨table, outcome, .first transaction⟩]
  | .error _ => xs

/-- What a command does to the receipts of a run. -/
def note (r : Run) (xs : List Receipt) : Command → List Receipt
  | .insert transaction table key values =>
    inserted xs transaction table (r.insert transaction table key values).1
  | .commit id => settle (.gathered id) .published xs
  | .abort id => settle (.gathered id) .discarded xs
  | _ => xs

/-- What a command does to the receipts of a run, as a ledger tells it. -/
def tell (l : Ledger) (xs : List Receipt) : Command → List Receipt
  | .insert transaction table key values =>
    inserted xs transaction table (l.insert table key values).1
  | .commit id => settle (.gathered id) .published xs
  | .abort id => settle (.gathered id) .discarded xs
  | _ => xs

/-- The receipts of a run that goes on with these commands. -/
def follow (services : Nat → ServiceSettings) :
    (r : Run) → (xs : List Receipt) → List Command → List Receipt
  | _, xs, [] => xs
  | r, xs, command :: rest => follow services (r.step services command) (note r xs command) rest

theorem follow_concat (services : Nat → ServiceSettings) (r : Run) (xs : List Receipt)
    (commands : List Command) (last : Command) : follow services r xs (commands ++ [last]) =
      note (commands.foldl (Run.step services) r) (follow services r xs commands) last := by
  induction commands generalizing r xs with
  | nil => rfl
  | cons command rest ih => exact ih _ _

/-- The receipts of a run, as a ledger tells them. -/
def told : (l : Ledger) → (xs : List Receipt) → List Command → List Receipt
  | _, xs, [] => xs
  | l, xs, command :: rest => told (l.step command) (tell l xs command) rest

/-- What is stored, and what becomes of it, does not depend on what is cached. -/
theorem follow_eq_told {r : Run} {l : Ledger} (h : Follows r l) (services : Nat → ServiceSettings)
    (xs : List Receipt) (commands : List Command) :
    follow services r xs commands = told l xs commands := by
  induction commands generalizing r l xs with
  | nil => rfl
  | cons command rest ih =>
    have hnote : note r xs command = tell l xs command := by
      cases command with
      | insert transaction table key values =>
        exact congrArg (inserted xs transaction table) (h.insert transaction table key values).1
      | _ => rfl
    unfold follow told
    rw [ih (h.step services command), hnote]

theorem postings_concat (xs : List Receipt) (x : Receipt) :
    postings (xs ++ [x]) =
      Function.update (postings xs) x.group (postings xs x.group ++ [x.posting]) := by
  funext g
  unfold postings
  rw [List.filter_append, List.map_append]
  by_cases hg : x.group = g
  · rw [← hg, Function.update_self]
    simp
  · rw [Function.update_of_ne (Ne.symm hg), List.filter_cons_of_neg (by simpa using hg)]
    exact List.append_nil _

theorem group_settled (before after : Fate) (x : Receipt) :
    (if x.fate = before then { x with fate := after } else x).group = x.group := by
  split <;> rfl

theorem postings_settle (before after : Fate) (xs : List Receipt) :
    postings (settle before after xs) =
      fun g => VersionChain.settle before after (postings xs g) := by
  funext g
  induction xs with
  | nil => rfl
  | cons x rest ih =>
    have hgroup := group_settled before after x
    unfold postings settle at ih ⊢
    rw [List.map_cons]
    by_cases hg : x.group = g
    · rw [List.filter_cons_of_pos (by simpa [hgroup] using hg),
        List.filter_cons_of_pos (by simpa using hg), List.map_cons, List.map_cons, ih, settle_cons]
      congr 1
      unfold posting
      split <;> rfl
    · rw [List.filter_cons_of_neg (by simpa [hgroup] using hg),
        List.filter_cons_of_neg (by simpa using hg), ih]

/-- Totals taken together are those of the inserts counted one by one. -/
theorem amount_postings (fate : Fate) (g : GroupId) (xs : List Receipt) :
    amount fate (postings xs g) = GroupStats.tally (outcomes fate g xs) := by
  induction xs using List.reverseRecOn with
  | nil => rfl
  | append_singleton xs x ih =>
    rw [postings_concat, amount_update, ih]
    unfold outcomes
    rw [List.filter_append, List.map_append]
    by_cases hx : x.group = g ∧ x.fate = fate
    · rw [if_pos ⟨hx.1.symm, hx.2⟩, List.filter_cons_of_pos (by simpa using hx)]
      exact (GroupStats.tally_concat _ _).symm
    · rw [if_neg fun h => hx ⟨h.1.symm, h.2⟩, List.filter_cons_of_neg (by simpa using hx)]
      exact congrArg GroupStats.tally (List.append_nil _).symm

end Receipt

/-! ## Runs with their receipts -/

/-- Whether a command forgets statistics that were published. -/
def Command.Forgets : Command → Prop
  | .truncate _ | .dropTable _ | .restart _ _ _ => True
  | _ => False

namespace Balanced

open Receipt (postings)

variable {r : Run} {xs : List Receipt}

theorem insert (h : Balanced r (postings xs)) (services : Nat → ServiceSettings)
    (transaction : Option Nat) (table : TableId) (key : Key) (values : List Bytes) :
    Balanced (r.step services (.insert transaction table key values))
      (postings (Receipt.note r xs (.insert transaction table key values))) := by
  have hrow := h.perform fun hP => hP.keeps_insertRow table key values
  show Balanced (r.insert transaction table key values).2
    (postings (Receipt.inserted xs transaction table (r.insert transaction table key values).1))
  cases hpair : insertRow table key values r.store with
  | mk result store =>
    rw [Run.perform, hpair] at hrow
    cases result with
    | error cause =>
      rw [Run.insert_of_error hpair]
      exact hrow
    | ok outcome =>
      rw [Run.insert_of_ok hpair]
      show Balanced _ (postings (xs ++ [⟨table, outcome, .first transaction⟩]))
      rw [Receipt.postings_concat]
      exact hrow.noted transaction table outcome values

/-- One command does to what is published and gathered what it does to the receipts. -/
theorem step (h : Balanced r (postings xs)) (services : Nat → ServiceSettings) {command : Command}
    (hkept : ¬ command.Forgets) :
    Balanced (r.step services command) (postings (Receipt.note r xs command)) := by
  -- a command that counts nothing leaves the statistics, the transactions and the receipts alone
  by_cases hcounts : command.Counts
  · cases command with
    | insert transaction table key values => exact h.insert services transaction table key values
    | commit id => exact Receipt.postings_settle _ _ xs ▸ h.commit services id
    | abort id => exact Receipt.postings_settle _ _ xs ▸ h.abort services id
    | truncate table => exact absurd trivial hkept
    | dropTable table => exact absurd trivial hkept
    | restart coder unpacker settings => exact absurd trivial hkept
    | _ => exact hcounts.elim
  · obtain ⟨hstatistics, htransactions, -⟩ := r.step_of_not_counts services hcounts
    have hnote : Receipt.note r xs command = xs := by
      cases command <;> first | rfl | exact absurd trivial hcounts
    rw [hnote]
    exact h.congr hstatistics htransactions

/-- Throughout a run, what is published and gathered is what the receipts say. -/
theorem follow (h : Balanced r (postings xs)) (services : Nat → ServiceSettings)
    {commands : List Command} (hkept : ∀ command ∈ commands, ¬ command.Forgets) :
    Balanced (commands.foldl (Run.step services) r)
      (postings (Receipt.follow services r xs commands)) := by
  induction commands generalizing r xs with
  | nil => exact h
  | cons command rest ih =>
    obtain ⟨hcommand, hrest⟩ := List.forall_mem_cons.mp hkept
    exact ih (h.step services hcommand) hrest

/-- A commit returns the number of groups that the transaction has stored versions of. -/
theorem commit_eq (h : Balanced r (postings xs)) (id : Nat) (s : Store MemoryRows) :
    ((r.transactions id).commit s).1 = (Receipt.groups (.gathered id) xs).length := by
  refine Statistics.size_eq (List.nodup_dedup _) fun g => ?_
  rw [h.gathered, Option.isSome_iff_ne_none, ne_eq, amount_eq_none]
  simp [postings, Receipt.groups, Receipt.posting, and_assoc, and_comm]

end Balanced

namespace Run

/-- From a store without statistics on, with any rows and caches, what is published for a group is
what its inserts come to that were not part of a transaction or whose transaction was committed,
counted one after the other in any order; and a commit returns the number of groups of the inserts
that it publishes. -/
theorem publishes_tally (services : Nat → ServiceSettings) (s : Store MemoryRows)
    (commands : List Command) (hkept : ∀ command ∈ commands, ¬ command.Forgets) :
    let start : Run := { store := { s with statistics := {} } }
    let r := commands.foldl (step services) start
    let receipts := Receipt.follow services start [] commands
    (∀ table key group order, key.fingerprint r.store.unpacker = .ok group →
      order.Perm (Receipt.outcomes .published ⟨table, group⟩ receipts) →
      (StoreM.groupStats table key r.store).1 = .ok (GroupStats.tally order)) ∧
    ∀ id, ((r.transactions id).commit r.store).1 =
      (Receipt.groups (.gathered id) receipts).length := by
  intro start r receipts
  have hstart : Balanced start (Receipt.postings []) :=
    ⟨fun g => Statistics.get?_empty g, fun _ g => Statistics.get?_empty g⟩
  have hbalanced : Balanced r (Receipt.postings receipts) := hstart.follow services hkept
  refine ⟨fun table key group order hkey horder => ?_, fun id => hbalanced.commit_eq id r.store⟩
  rw [groupStats_eq hkey, hbalanced.published, Receipt.amount_postings,
    GroupStats.tally_perm horder]

/-- Versions of three groups. Those of the first are stored by two transactions, and by none. -/
def sharedCommands : List Command :=
  let value : Bytes := #[1, 2, 3, 4, 5, 6, 7, 8, 9, 10, 11, 12]
  [.createTable 1 1 {}, .createTable 2 1 {}, .insert (some 0) 1 .null [value],
    .insert (some 7) 1 .null [value], .insert (some 0) 2 .null [#[4, 5]],
    .insert none 1 .null [#[6]], .insert (some 0) 1 (.bool true) [#[7, 7]],
    .insert (some 0) 1 .null [value], .commit 7]

/-- The transaction that was opened first is committed last. It publishes three groups, one of which
had been published before. -/
theorem publishes_tally_two_transactions :
    let services : Nat → ServiceSettings := fun _ => {}
    let earlier := after services true {} .inRowOnly sharedCommands
    let r := after services true {} .inRowOnly (sharedCommands ++ [.commit 0])
    (∀ command ∈ sharedCommands ++ [.commit 0], ¬ command.Forgets) ∧
    (StoreM.groupStats 1 .null earlier.store).1 = .ok (some ⟨2, 1, 13, 37, 3⟩) ∧
    ((earlier.transactions 0).commit earlier.store).1 = 3 ∧
    (StoreM.groupStats 1 .null r.store).1 = .ok (some ⟨4, 2, 37, 85, 4⟩) ∧
    (StoreM.groupStats 2 .null r.store).1 = .ok (some ⟨1, 1, 2, 18, 1⟩) ∧
    (StoreM.groupStats 1 (.bool true) r.store).1 = .ok (some ⟨1, 1, 2, 18, 1⟩) := by
  intro services earlier r
  let empty : Ledger := .empty {} .inRowOnly
  let started : Run := start services true {} .inRowOnly
  have hstarted : Follows { store := { started.store with statistics := {} } } empty :=
    follows_after services true {} .inRowOnly []
  have hkept : ∀ command ∈ sharedCommands ++ [.commit 0], ¬ command.Forgets := by
    simp [sharedCommands, Command.Forgets]
  -- what is published is told by the ledger
  have hpublished : ∀ commands : List Command, (∀ command ∈ commands, ¬ command.Forgets) →
      let r := after services true {} .inRowOnly commands
      (∀ table key group order totals,
        key.fingerprint (commands.foldl Ledger.step empty).unpacker = .ok group →
        order.Perm (Receipt.outcomes .published ⟨table, group⟩ (Receipt.told empty [] commands)) →
        GroupStats.tally order = some totals →
        (StoreM.groupStats table key r.store).1 = .ok (some totals)) ∧
      ∀ id, ((r.transactions id).commit r.store).1 =
        (Receipt.groups (.gathered id) (Receipt.told empty [] commands)).length := by
    intro commands hkept r
    have hunpacker : r.store.unpacker = _ :=
      (follows_after services true {} .inRowOnly commands).agrees.mirrors.unpacker
    obtain ⟨hstats, hgroups⟩ := publishes_tally services started.store commands hkept
    rw [Receipt.follow_eq_told hstarted] at hstats hgroups
    refine ⟨fun table key group order totals hkey horder htotals => ?_, hgroups⟩
    rw [← htotals]
    exact hstats table key group order (hunpacker ▸ hkey) horder
  obtain ⟨hbefore, hgroups⟩ := hpublished sharedCommands fun command hmem =>
    hkept command (List.mem_append_left _ hmem)
  obtain ⟨hafter, -⟩ := hpublished (sharedCommands ++ [.commit 0]) hkept
  refine ⟨hkept, ?_, (hgroups 0).trans (by decide +kernel), ?_, ?_, ?_⟩
  · exact hbefore 1 .null .zero _ _ (by decide +kernel) (List.Perm.refl _) (by decide +kernel)
  · exact hafter 1 .null .zero _ _ (by decide +kernel) (List.reverse_perm _) (by decide +kernel)
  · exact hafter 2 .null .zero _ _ (by decide +kernel) (List.Perm.refl _) (by decide +kernel)
  · exact hafter 1 (.bool true) ⟨5837327317571163397, 16226181191752404715⟩ _ _ (by decide +kernel)
      (List.Perm.refl _) (by decide +kernel)

end Run

end VersionChain
