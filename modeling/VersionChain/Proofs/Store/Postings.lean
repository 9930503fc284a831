import VersionChain.Proofs.Store.GroupSteps
import VersionChain.Proofs.Store.Numbering

/-!
# What the published statistics count

A journal notes for each insert of a run what has become of its totals: they are published, or they
are gathered by a transaction until it publishes or discards them. When the rows of a table are
removed, what was published for them goes as well. What a transaction has gathered for them does
not; from then on it is overdue, and a commit publishes it all the same.

* `Posting`, `amount`, `settle` — totals with what has become of them;
* `Journal` — the totals of all inserts of a run;
* `Balanced` — what is published and gathered is what has become of some totals;
* `Posted` — the statistics of a run are those of its journal;
* `Posted.step` — one command;
* `Run.publishes_stored` — unless something overdue is published, only stored rows are counted;
* `Run.publishes_overdue` — and otherwise not.
-/

namespace VersionChain

open StoreM MemoryRows

/-! ## Totals and what becomes of them -/

/-- What has become of the totals of an insert. -/
inductive Fate where
  | published
  /-- They are gathered by a transaction that is open. -/
  | gathered (transaction : Nat)
  | discarded
  deriving DecidableEq, Repr

/-- What becomes of the totals of an insert first. -/
def Fate.first : (transaction : Option Nat) → Fate
  | none => .published
  | some id => .gathered id

/-- The totals of an insert, with what has become of them. -/
structure Posting where
  totals : GroupStats
  fate : Fate
  deriving DecidableEq, Repr

/-- The totals that share a fate, taken together. -/
def amount (fate : Fate) : List Posting → Option GroupStats
  | [] => none
  | p :: rest =>
    if p.fate = fate then GroupStats.join (amount fate rest) (some p.totals) else amount fate rest

/-- All totals that share a fate meet with another one. -/
def settle (before after : Fate) (ps : List Posting) : List Posting :=
  ps.map fun p => if p.fate = before then { p with fate := after } else p

section Postings

variable {fate before after : Fate} {ps : List Posting} {totals : GroupStats}

theorem amount_append (fate : Fate) (ps qs : List Posting) :
    amount fate (ps ++ qs) = GroupStats.join (amount fate ps) (amount fate qs) := by
  induction ps with
  | nil => exact (GroupStats.none_join _).symm
  | cons p rest ih =>
    rw [List.cons_append, amount, amount, ih]
    split
    · rw [GroupStats.join_assoc, GroupStats.join_assoc, GroupStats.join_comm (amount fate qs)]
    · rfl

theorem amount_singleton (fate : Fate) (p : Posting) :
    amount fate [p] = if p.fate = fate then some p.totals else none := by
  rw [amount, amount, GroupStats.none_join]

/-- There are totals of a fate exactly if some insert has met with it. -/
theorem amount_eq_none : amount fate ps = none ↔ ∀ p ∈ ps, p.fate ≠ fate := by
  induction ps with
  | nil => exact ⟨fun _ _ hp => (List.not_mem_nil hp).elim, fun _ => rfl⟩
  | cons p rest ih =>
    rw [amount, List.forall_mem_cons]
    split
    · rename_i hfate
      exact ⟨nofun, fun hall => absurd hfate hall.1⟩
    · rename_i hfate
      rw [ih]
      exact ⟨fun hrest => ⟨hfate, hrest⟩, fun hall => hall.2⟩

/-- If each insert counts one row, the totals count those that share the fate. -/
theorem rows_of_amount (hrows : ∀ p ∈ ps, p.totals.rows = 1) (h : amount fate ps = some totals) :
    totals.rows = ps.countP (·.fate = fate) := by
  induction ps generalizing totals with
  | nil => cases h
  | cons p rest ih =>
    obtain ⟨hp, hrest⟩ := List.forall_mem_cons.mp hrows
    rw [amount] at h
    split at h
    · rename_i hfate
      obtain rfl := Option.some.inj h
      rw [List.countP_cons, if_pos (decide_eq_true hfate)]
      show ((amount fate rest).getD {}).rows + p.totals.rows = _
      rw [hp]
      cases hamount : amount fate rest with
      | some others => exact congrArg (· + 1) (ih hrest hamount)
      | none =>
        have hnone : rest.countP (·.fate = fate) = 0 :=
          List.countP_eq_zero.mpr fun q hq hqfate =>
            amount_eq_none.mp hamount q hq (of_decide_eq_true hqfate)
        rw [hnone]
        rfl
    · rename_i hfate
      rw [List.countP_cons, if_neg fun hp => hfate (of_decide_eq_true hp)]
      exact ih hrest h

/-- The largest number of the totals is at most that of all inserts. -/
theorem maxSeq_of_amount {n : Nat} (hseqs : ∀ p ∈ ps, p.totals.maxSeq ≤ n)
    (h : amount fate ps = some totals) : totals.maxSeq ≤ n := by
  induction ps generalizing totals with
  | nil => cases h
  | cons p rest ih =>
    obtain ⟨hp, hrest⟩ := List.forall_mem_cons.mp hseqs
    rw [amount] at h
    split at h
    · obtain rfl := Option.some.inj h
      refine Nat.max_le.mpr ⟨?_, hp⟩
      cases hamount : amount fate rest with
      | some others => exact ih hrest hamount
      | none => exact Nat.zero_le n
    · exact ih hrest h

theorem settle_append (before after : Fate) (ps qs : List Posting) :
    settle before after (ps ++ qs) = settle before after ps ++ settle before after qs :=
  List.map_append

theorem totals_settle (before after : Fate) (ps : List Posting) :
    (settle before after ps).map (·.totals) = ps.map (·.totals) := by
  rw [settle, List.map_map]
  refine List.map_congr_left fun p _ => ?_
  show (if p.fate = before then { p with fate := after } else p).totals = p.totals
  split <;> rfl

theorem settle_cons (before after : Fate) (p : Posting) (rest : List Posting) :
    settle before after (p :: rest) =
      (if p.fate = before then { p with fate := after } else p) :: settle before after rest := rfl

/-- What has met with another fate is there no more. -/
theorem amount_settle_before (hne : before ≠ after) :
    amount before (settle before after ps) = none := by
  refine amount_eq_none.mpr fun p hp => ?_
  obtain ⟨q, -, rfl⟩ := List.mem_map.mp hp
  split
  · exact hne.symm
  · rename_i hfate
    exact hfate

/-- It is added to what had met with that fate earlier. -/
theorem amount_settle_after (hne : before ≠ after) :
    amount after (settle before after ps) =
      GroupStats.join (amount after ps) (amount before ps) := by
  induction ps with
  | nil => rfl
  | cons p rest ih =>
    rw [settle_cons, amount, ih, amount, amount]
    by_cases hbefore : p.fate = before
    · have hafter : p.fate ≠ after := fun heq => hne (hbefore.symm.trans heq)
      rw [if_pos hbefore, if_pos hbefore, if_neg hafter, if_pos rfl, GroupStats.join_assoc]
    · rw [if_neg hbefore, if_neg hbefore]
      split
      · rw [GroupStats.join_assoc, GroupStats.join_assoc,
          GroupStats.join_comm (amount before rest)]
      · rfl

theorem amount_settle_other (hbefore : fate ≠ before) (hafter : fate ≠ after) :
    amount fate (settle before after ps) = amount fate ps := by
  induction ps with
  | nil => rfl
  | cons p rest ih =>
    rw [settle_cons, amount, ih, amount]
    by_cases hp : p.fate = before
    · rw [if_pos hp, if_neg fun heq => hafter heq.symm,
        if_neg fun heq => hbefore (heq.symm.trans hp)]
    · rw [if_neg hp]

/-- The totals of a fate grow by what meets with it. -/
theorem amount_update (ps : GroupId → List Posting) (g : GroupId) (p : Posting) (fate : Fate)
    (other : GroupId) : amount fate (Function.update ps g (ps g ++ [p]) other) =
      if other = g ∧ p.fate = fate then GroupStats.join (amount fate (ps other)) (some p.totals)
      else amount fate (ps other) := by
  by_cases hother : other = g
  · rw [hother, Function.update_self, amount_append, amount_singleton]
    by_cases hfate : p.fate = fate
    · rw [if_pos hfate, if_pos ⟨rfl, hfate⟩]
    · rw [if_neg hfate, if_neg fun hall => hfate hall.2]
      rfl
  · rw [Function.update_of_ne hother, if_neg fun hall => hother hall.1]

end Postings

/-! ## Journals -/

/-- The totals of all inserts of a run. -/
structure Journal where
  /-- Those of the versions that are stored, the first version of a group first. -/
  stored : GroupId → List Posting := fun _ => []
  /-- Those of versions whose rows were removed. -/
  overdue : GroupId → List Posting := fun _ => []

namespace Journal

/-- All totals of a group. -/
def all (j : Journal) (g : GroupId) : List Posting := j.overdue g ++ j.stored g

/-- Notes the totals of an insert. -/
def post (j : Journal) (g : GroupId) (p : Posting) : Journal :=
  { j with stored := Function.update j.stored g (j.stored g ++ [p]) }

/-- Notes an insert, if it succeeds. -/
def inserted (j : Journal) (transaction : Option Nat) (table : TableId) :
    Except StoreError Outcome → Journal
  | .ok outcome => j.post ⟨table, outcome.group⟩ ⟨.ofOutcome outcome, .first transaction⟩
  | .error _ => j

/-- All totals that share a fate meet with another one. -/
def settle (j : Journal) (before after : Fate) : Journal :=
  ⟨fun g => VersionChain.settle before after (j.stored g),
    fun g => VersionChain.settle before after (j.overdue g)⟩

/-- The rows of a table are removed, and what was published for it is discarded. -/
def withdraw (j : Journal) (table : TableId) : Journal where
  stored g := if g.table = table then [] else j.stored g
  overdue g :=
    if g.table = table then VersionChain.settle .published .discarded (j.all g) else j.overdue g

/-- Notes that a table was emptied, if that succeeds. -/
def removed {α : Type} (j : Journal) (table : TableId) : Except StoreError α → Journal
  | .ok _ => j.withdraw table
  | .error _ => j

/-- What a command does to the journal of a run. -/
def note (r : Run) (j : Journal) : Command → Journal
  | .insert transaction table key values =>
    j.inserted transaction table (r.insert transaction table key values).1
  | .commit id => j.settle (.gathered id) .published
  | .abort id => j.settle (.gathered id) .discarded
  | .truncate table => j.removed table (StoreM.truncate table r.store).1
  | .dropTable table => j.removed table (StoreM.dropTable table r.store).1
  | .restart _ _ _ => j.settle .published .discarded
  | _ => j

/-- The journal of a run that goes on with these commands. -/
def follow (services : Nat → ServiceSettings) : (r : Run) → Journal → List Command → Journal
  | _, j, [] => j
  | r, j, command :: rest => follow services (r.step services command) (j.note r command) rest

theorem note_insert {r : Run} {j : Journal} {transaction : Option Nat} {table : TableId} {key : Key}
    {values : List Bytes} {outcome : Outcome}
    (h : (r.insert transaction table key values).1 = .ok outcome) :
    j.note r (.insert transaction table key values) =
      j.post ⟨table, outcome.group⟩ ⟨.ofOutcome outcome, .first transaction⟩ :=
  congrArg (j.inserted transaction table) h

theorem note_truncate {r : Run} {j : Journal} {table : TableId} {state : TableState}
    (htable : r.store.tables[table]? = some state) :
    j.note r (.truncate table) = j.withdraw table :=
  congrArg (j.removed table) (congrArg Prod.fst (truncate_eq htable))

theorem follow_concat (services : Nat → ServiceSettings) (r : Run) (j : Journal)
    (commands : List Command) (last : Command) : follow services r j (commands ++ [last]) =
      (follow services r j commands).note (commands.foldl (Run.step services) r) last := by
  induction commands generalizing r j with
  | nil => rfl
  | cons command rest ih => exact ih _ _

theorem all_post (j : Journal) (g : GroupId) (p : Posting) (other : GroupId) :
    (j.post g p).all other = if other = g then j.all g ++ [p] else j.all other := by
  unfold all post
  simp only
  by_cases hother : other = g
  · rw [if_pos hother, hother, Function.update_self, List.append_assoc]
  · rw [if_neg hother, Function.update_of_ne hother]

theorem all_post_eq_update (j : Journal) (g : GroupId) (p : Posting) :
    (j.post g p).all = Function.update j.all g (j.all g ++ [p]) :=
  funext fun other => (j.all_post g p other).trans (Function.update_apply ..).symm

theorem all_settle (j : Journal) (before after : Fate) (g : GroupId) :
    (j.settle before after).all g = VersionChain.settle before after (j.all g) :=
  (settle_append before after _ _).symm

theorem all_withdraw (j : Journal) (table : TableId) (g : GroupId) :
    (j.withdraw table).all g =
      if g.table = table then VersionChain.settle .published .discarded (j.all g) else j.all g := by
  unfold all withdraw
  simp only
  split
  · exact List.append_nil _
  · rfl

end Journal

/-- What a run has published, and what its transactions have gathered, is what its journal says. The
versions that are stored are numbered in order, and each of them counts one row. -/
structure Posted (r : Run) (j : Journal) : Prop where
  published : ∀ g, r.store.statistics.get? g = amount .published (j.all g)
  gathered : ∀ id g, (r.transactions id).pending.get? g = amount (.gathered id) (j.all g)
  numbered : ∀ g, (j.stored g).map (·.totals.maxSeq) = List.range' 1 (r.versions g)
  rows : ∀ g, ∀ p ∈ j.stored g, p.totals.rows = 1

variable {r : Run} {j : Journal} {table : TableId} {key : Key} {values : List Bytes}
  {services : Nat → ServiceSettings}

/-! ## What becomes of the statistics of a store -/

/-- The statistics of a table are forgotten with its rows, if there is such a table. -/
theorem ends_truncate_statistics (s : Store MemoryRows) (table : TableId) :
    Ends (StoreM.truncate table) s fun result s' => s'.statistics =
      if result.toBool then s.statistics.forgetTable table else s.statistics := by
  unfold Ends
  cases htable : s.tables[table]? with
  | none =>
    rw [truncate_eq_error htable]
    rfl
  | some state =>
    rw [truncate_eq htable]
    rfl

theorem ends_dropTable_statistics (s : Store MemoryRows) (table : TableId) :
    Ends (StoreM.dropTable table) s fun result s' => s'.statistics =
      if result.toBool then s.statistics.forgetTable table else s.statistics := by
  unfold Ends
  cases htable : s.tables[table]? with
  | none =>
    rw [dropTable_eq_error htable]
    rfl
  | some state =>
    rw [dropTable_eq htable]
    rfl

theorem createTable_statistics (s : Store MemoryRows) (table : TableId) (columns : Nat)
    (settings : TableSettings) :
    (StoreM.createTable table columns settings s).2.statistics = s.statistics := by
  by_cases hcond : settings.validate = .ok () ∧ columns ≤ maxColumns ∧ s.tables[table]? = none
  · rw [createTable_eq hcond.1 hcond.2.1 hcond.2.2]
  · obtain ⟨cause, hfailed⟩ := createTable_eq_error hcond
    rw [hfailed]

theorem createTables_statistics (settings : TableId → TableSettings) (s : Store MemoryRows)
    (entries : List (TableId × TableState)) :
    (createTables settings s entries).statistics = s.statistics := by
  induction entries generalizing s with
  | nil => rfl
  | cons entry rest ih => exact (ih _).trans (createTable_statistics s _ _ _)

/-- Whether a command adds to statistics, publishes them or forgets some. -/
def Command.Counts : Command → Prop
  | .insert _ _ _ _ | .commit _ | .abort _ | .truncate _ | .dropTable _ | .restart _ _ _ => True
  | _ => False

/-- All other commands leave alone what is published and gathered. -/
theorem Run.step_of_not_counts (r : Run) (services : Nat → ServiceSettings) {command : Command}
    (h : ¬ command.Counts) :
    (r.step services command).store.statistics = r.store.statistics ∧
      (r.step services command).transactions = r.transactions ∧
      (r.step services command).log = r.log := by
  have hperform {α : Type} {action : StoreM MemoryRows α}
      (haction : ∀ {P}, SetupStable P → Keeps action P) :
      (r.perform action).store.statistics = r.store.statistics ∧
        (r.perform action).transactions = r.transactions ∧ (r.perform action).log = r.log :=
    ⟨(haction (setupStable_sameSetup r.store) r.store (.refl r.store)).statistics, rfl, rfl⟩
  cases command with
  | createTable table columns settings =>
    exact ⟨createTable_statistics r.store table columns settings, rfl, rfl⟩
  | getVersion table key seq =>
    exact hperform fun hP => hP.cacheStable.keeps_getVersion table key seq
  | getColumn table key seq column =>
    exact hperform fun hP => hP.cacheStable.keeps_getColumn table key seq column
  | latestSeq table key => exact hperform fun hP => hP.numberStable.keeps_latestSeq table key
  | history table key => exact hperform fun hP => hP.cacheStable.keeps_history table key
  | seqAt table location => exact hperform fun hP => hP.cacheStable.keeps_seqAt table location
  | groupStats table key => exact hperform fun _ => keeps_groupStats table key
  | relocate place => exact ⟨rfl, rfl, rfl⟩
  | rejectAppends count => exact ⟨rfl, rfl, rfl⟩
  | invalidate table => exact ⟨rfl, rfl, rfl⟩
  | invalidatePart part table => cases part <;> exact ⟨rfl, rfl, rfl⟩
  | detach => exact ⟨rfl, rfl, rfl⟩
  | _ => exact absurd trivial h

/-- An operation that has emptied a table. -/
theorem Run.remove_of_ok {α : Type} {action : StoreM MemoryRows α} {a : α}
    {store : Store MemoryRows} (h : action r.store = (.ok a, store)) :
    r.remove table action =
      { r with store, log := fun g => if g.table = table then [] else r.log g } := by
  rw [remove, h]

theorem Run.remove_of_error {α : Type} {action : StoreM MemoryRows α} {cause : StoreError}
    {store : Store MemoryRows} (h : action r.store = (.error cause, store)) :
    r.remove table action = { r with store } := by
  rw [remove, h]

/-! ## What is published and gathered -/

/-- What a run has published, and what its transactions have gathered, is what has become of these
totals. -/
structure Balanced (r : Run) (ps : GroupId → List Posting) : Prop where
  published : ∀ g, r.store.statistics.get? g = amount .published (ps g)
  gathered : ∀ id g, (r.transactions id).pending.get? g = amount (.gathered id) (ps g)

namespace Balanced

variable {ps : GroupId → List Posting}

/-- Only the statistics and the transactions matter. -/
theorem congr (h : Balanced r ps) {r' : Run}
    (hstatistics : r'.store.statistics = r.store.statistics)
    (htransactions : r'.transactions = r.transactions) : Balanced r' ps where
  published g := by
    rw [hstatistics]
    exact h.published g
  gathered id g := by
    rw [htransactions]
    exact h.gathered id g

/-- An operation that touches nothing but the service and the rows. -/
theorem perform (h : Balanced r ps) {α : Type} {action : StoreM MemoryRows α}
    (haction : ∀ {P}, SetupStable P → Keeps action P) : Balanced (r.perform action) ps :=
  h.congr (haction (setupStable_sameSetup r.store) r.store (.refl r.store)).statistics rfl

/-- Of a transaction that ends, nothing is gathered any more. -/
theorem gathered_ended (h : Balanced r ps) (id : Nat) {after : Fate}
    (hended : ∀ other, after ≠ .gathered other) (other : Nat) (g : GroupId) :
    (Function.update r.transactions id {} other).pending.get? g =
      amount (.gathered other) (settle (.gathered id) after (ps g)) := by
  by_cases hother : other = id
  · rw [hother, Function.update_self, amount_settle_before (hended id).symm]
    exact Statistics.get?_empty g
  · rw [Function.update_of_ne hother, amount_settle_other ?_ (hended other).symm]
    · exact h.gathered other g
    · exact fun heq => hother (Fate.gathered.inj heq)

/-- What a transaction has gathered is published by its commit. -/
theorem commit (h : Balanced r ps) (services : Nat → ServiceSettings) (id : Nat) :
    Balanced (r.step services (.commit id)) fun g => settle (.gathered id) .published (ps g) := by
  have hended : ∀ other, Fate.published ≠ .gathered other := fun _ => nofun
  refine ⟨fun g => ?_, h.gathered_ended id hended⟩
  rw [amount_settle_after (hended id).symm, ← h.published, ← h.gathered]
  exact Statistics.get?_flush _ _ g

theorem abort (h : Balanced r ps) (services : Nat → ServiceSettings) (id : Nat) :
    Balanced (r.step services (.abort id)) fun g => settle (.gathered id) .discarded (ps g) := by
  have hended : ∀ other, Fate.discarded ≠ .gathered other := fun _ => nofun
  have hpublished : Fate.published ≠ .gathered id ∧ Fate.published ≠ .discarded :=
    ⟨nofun, nofun⟩
  refine ⟨fun g => ?_, h.gathered_ended id hended⟩
  rw [amount_settle_other hpublished.1 hpublished.2]
  exact h.published g

/-- What is published for some groups is discarded, and what is gathered stays so. -/
theorem withdrawn (h : Balanced r ps) (r' : Run) (htransactions : r'.transactions = r.transactions)
    (gone : GroupId → Prop) [DecidablePred gone]
    (hstatistics : ∀ g, r'.store.statistics.get? g =
      if gone g then none else r.store.statistics.get? g) :
    Balanced r' fun g => if gone g then settle .published .discarded (ps g) else ps g := by
  have hwithdrawn : Fate.published ≠ .discarded := nofun
  have hgathered : ∀ id, Fate.gathered id ≠ .published ∧ Fate.gathered id ≠ .discarded :=
    fun _ => ⟨nofun, nofun⟩
  refine ⟨fun g => ?_, fun id g => ?_⟩
  · rw [hstatistics]
    split
    · exact (amount_settle_before hwithdrawn).symm
    · exact h.published g
  · rw [htransactions]
    split
    · rw [amount_settle_other (hgathered id).1 (hgathered id).2]
      exact h.gathered id g
    · exact h.gathered id g

/-- The totals of an insert are published, or gathered by its transaction. -/
theorem noted (h : Balanced r ps) (transaction : Option Nat) (table : TableId) (outcome : Outcome)
    (values : List Bytes) :
    Balanced ((r.noted transaction table outcome).logged table outcome values)
      (Function.update ps ⟨table, outcome.group⟩
        (ps ⟨table, outcome.group⟩ ++ [⟨.ofOutcome outcome, .first transaction⟩])) where
  published g := by
    rw [amount_update, ← h.published]
    cases transaction with
    | none =>
      refine (Statistics.get?_record _ _ _ g).trans ?_
      simp [Fate.first]
    | some id => simp [Fate.first, Run.noted, Run.logged]
  gathered id g := by
    rw [amount_update, ← h.gathered]
    cases transaction with
    | none => simp [Fate.first, Run.noted, Run.logged]
    | some other =>
      show (Function.update r.transactions other _ id).pending.get? g = _
      by_cases hid : id = other
      · subst hid
        rw [Function.update_self]
        refine (Statistics.get?_record _ _ _ g).trans ?_
        simp [Fate.first]
      · have hfate : Fate.first (some other) ≠ .gathered id := fun heq =>
          hid (Fate.gathered.inj heq).symm
        rw [Function.update_of_ne hid, if_neg fun hall => hfate hall.2]

end Balanced

/-! ## Runs with their journals -/

theorem posted_startOn (service : Service) (indexed : Bool) (codec : Codec) (unpacker : Unpacker) :
    Posted (.startOn service indexed codec unpacker) {} where
  published g := Statistics.get?_empty g
  gathered _ g := Statistics.get?_empty g
  numbered _ := rfl
  rows _ _ hp := (List.not_mem_nil hp).elim

namespace Posted

theorem balanced (h : Posted r j) : Balanced r j.all := ⟨h.published, h.gathered⟩

/-- Totals that meet with other fates are still those of the same versions. -/
theorem of_balanced (h : Posted r j) {r' : Run} {j' : Journal} (hbalanced : Balanced r' j'.all)
    (hlog : r'.log = r.log)
    (htotals : ∀ g, (j'.stored g).map (·.totals) = (j.stored g).map (·.totals)) : Posted r' j' where
  published := hbalanced.published
  gathered := hbalanced.gathered
  numbered g := by
    have hseqs := congrArg (List.map (·.maxSeq)) (htotals g)
    rw [List.map_map, List.map_map] at hseqs
    show _ = List.range' 1 (r'.log g).length
    rw [hlog]
    exact hseqs.trans (h.numbered g)
  rows g p hp := by
    have hmem : p.totals ∈ (j.stored g).map (·.totals) := htotals g ▸ List.mem_map_of_mem hp
    obtain ⟨q, hq, heq⟩ := List.mem_map.mp hmem
    exact heq ▸ h.rows g q hq

/-- Only the statistics, the transactions and the log matter. -/
theorem congr (h : Posted r j) {r' : Run} (hstatistics : r'.store.statistics = r.store.statistics)
    (htransactions : r'.transactions = r.transactions) (hlog : r'.log = r.log) : Posted r' j :=
  h.of_balanced (h.balanced.congr hstatistics htransactions) hlog fun _ => rfl

/-- An operation that touches nothing but the service and the rows. -/
theorem perform (h : Posted r j) {α : Type} {action : StoreM MemoryRows α}
    (haction : ∀ {P}, SetupStable P → Keeps action P) : Posted (r.perform action) j :=
  h.of_balanced (h.balanced.perform haction) rfl fun _ => rfl

/-- All totals of a fate meet with another one. -/
theorem settled (h : Posted r j) (before after : Fate) {r' : Run} (hlog : r'.log = r.log)
    (hbalanced : Balanced r' fun g => settle before after (j.all g)) :
    Posted r' (j.settle before after) := by
  have hall : (j.settle before after).all = fun g => settle before after (j.all g) :=
    funext fun g => j.all_settle before after g
  exact h.of_balanced (hall ▸ hbalanced) hlog fun g => totals_settle before after (j.stored g)

theorem commit (h : Posted r j) (services : Nat → ServiceSettings) (id : Nat) :
    Posted (r.step services (.commit id)) (j.note r (.commit id)) :=
  h.settled _ _ rfl (h.balanced.commit services id)

theorem abort (h : Posted r j) (services : Nat → ServiceSettings) (id : Nat) :
    Posted (r.step services (.abort id)) (j.note r (.abort id)) :=
  h.settled _ _ rfl (h.balanced.abort services id)

/-- The totals of an insert are published, or gathered by its transaction. -/
theorem noted (h : Posted r j) (transaction : Option Nat) {outcome : Outcome}
    (hseq : outcome.seq = r.versions ⟨table, outcome.group⟩ + 1) (values : List Bytes) :
    Posted ((r.noted transaction table outcome).logged table outcome values)
      (j.post ⟨table, outcome.group⟩ ⟨.ofOutcome outcome, .first transaction⟩) := by
  have hbalanced := h.balanced.noted transaction table outcome values
  rw [← Journal.all_post_eq_update] at hbalanced
  refine ⟨hbalanced.published, hbalanced.gathered, fun g => ?_, fun g p hp => ?_⟩
  · have hversions : (r.noted transaction table outcome).versions = r.versions := by
      cases transaction <;> rfl
    show (Function.update j.stored _ _ g).map _ = List.range' 1 (Run.versions _ g)
    rw [Run.versions_logged, hversions]
    by_cases hg : g = ⟨table, outcome.group⟩
    · rw [hg, Function.update_self, counting, Function.update_self, List.map_append, h.numbered,
        List.range'_1_concat, Nat.add_comm 1, ← hseq]
      rfl
    · rw [Function.update_of_ne hg, counting, Function.update_of_ne hg]
      exact h.numbered g
  · replace hp : p ∈ Function.update j.stored _ _ g := hp
    by_cases hg : g = ⟨table, outcome.group⟩
    · rw [hg, Function.update_self] at hp
      rcases List.mem_append.mp hp with hold | hnew
      · exact h.rows _ p hold
      · obtain rfl := List.mem_singleton.mp hnew
        rfl
    · rw [Function.update_of_ne hg] at hp
      exact h.rows g p hp

theorem insert (h : Posted r j) (hcounted : Counted r.versions r.store)
    (services : Nat → ServiceSettings) (transaction : Option Nat) (table : TableId) (key : Key)
    (values : List Bytes) :
    Posted (r.step services (.insert transaction table key values))
      (j.note r (.insert transaction table key values)) := by
  have hnumbers := (hcounted.insert transaction table key values).2
  have hrow := h.perform fun hP => hP.keeps_insertRow table key values
  show Posted (r.insert transaction table key values).2
    (j.inserted transaction table (r.insert transaction table key values).1)
  cases hpair : insertRow table key values r.store with
  | mk result store =>
    rw [Run.perform, hpair] at hrow
    cases result with
    | error cause =>
      rw [Run.insert_of_error hpair]
      exact hrow
    | ok outcome =>
      rw [Run.insert_of_ok hpair] at hnumbers ⊢
      exact hrow.noted transaction (hnumbers outcome rfl).2 values

/-- What was published for a table is withdrawn, and its rows are removed, if that succeeds. -/
theorem remove (h : Posted r j) {α : Type} {action : StoreM MemoryRows α}
    (haction : Ends action r.store fun result s => s.statistics =
      if result.toBool then r.store.statistics.forgetTable table else r.store.statistics) :
    Posted (r.remove table action) (j.removed table (action r.store).1) := by
  unfold Ends at haction
  cases hpair : action r.store with
  | mk result store =>
    rw [hpair] at haction
    cases result with
    | error cause =>
      rw [Run.remove_of_error hpair]
      exact h.congr haction rfl rfl
    | ok a =>
      replace haction : store.statistics = r.store.statistics.forgetTable table := haction
      rw [Run.remove_of_ok hpair]
      show Posted _ (j.withdraw table)
      let after : Run := { r with store, log := fun g => if g.table = table then [] else r.log g }
      have hstatistics (g : GroupId) : after.store.statistics.get? g =
          if g.table = table then none else r.store.statistics.get? g := by
        rw [← Statistics.get?_forgetTable, ← haction]
      have hbalanced : Balanced after (j.withdraw table).all := by
        rw [show (j.withdraw table).all = _ from funext fun g => j.all_withdraw table g]
        exact h.balanced.withdrawn after rfl (·.table = table) hstatistics
      refine ⟨hbalanced.published, hbalanced.gathered, fun g => ?_, fun g p hp => ?_⟩
      · show (if g.table = table then [] else j.stored g).map _ =
          List.range' 1 (if g.table = table then [] else r.log g).length
        split
        · rfl
        · exact h.numbered g
      · replace hp : p ∈ if g.table = table then [] else j.stored g := hp
        split at hp
        · exact (List.not_mem_nil hp).elim
        · exact h.rows g p hp

theorem restart (h : Posted r j) (services : Nat → ServiceSettings) (coder : DiffCoder)
    (unpacker : Unpacker)
    (settings : TableId → { settings : TableSettings // settings.validate = .ok () }) :
    Posted (r.step services (.restart coder unpacker settings))
      (j.note r (.restart coder unpacker settings)) := by
  let after : Run := r.step services (.restart coder unpacker settings)
  have hstatistics (g : GroupId) : after.store.statistics.get? g =
      if True then none else r.store.statistics.get? g := by
    rw [if_pos trivial]
    refine Eq.trans ?_ (Statistics.get?_empty g)
    exact congrArg (·.get? g) (createTables_statistics _ _ _)
  have hbalanced := h.balanced.withdrawn after rfl (fun _ => True) hstatistics
  simp only [if_true] at hbalanced
  exact h.settled _ _ rfl hbalanced

/-- One command does to what is published and gathered what it does to the journal. -/
theorem step (h : Posted r j) (hcounted : Counted r.versions r.store)
    (services : Nat → ServiceSettings) (command : Command) :
    Posted (r.step services command) (j.note r command) := by
  by_cases hcounts : command.Counts
  · cases command with
    | insert transaction table key values =>
      exact h.insert hcounted services transaction table key values
    | commit id => exact h.commit services id
    | abort id => exact h.abort services id
    | truncate table => exact h.remove (ends_truncate_statistics r.store table)
    | dropTable table => exact h.remove (ends_dropTable_statistics r.store table)
    | restart coder unpacker settings => exact h.restart services coder unpacker settings
    | _ => exact hcounts.elim
  · obtain ⟨hstatistics, htransactions, hlog⟩ := r.step_of_not_counts services hcounts
    have hnote : j.note r command = j := by
      cases command <;> first | rfl | exact absurd trivial hcounts
    rw [hnote]
    exact h.congr hstatistics htransactions hlog

/-- Throughout a run, what is published and gathered is what the journal says. -/
theorem follow (h : Posted r j) (hcounted : Counted r.versions r.store)
    (services : Nat → ServiceSettings) (commands : List Command) :
    Posted (commands.foldl (Run.step services) r) (Journal.follow services r j commands) := by
  induction commands generalizing r j with
  | nil => exact h
  | cons command rest ih =>
    exact ih (h.step hcounted services command) (hcounted.step services command)

end Posted

/-! ## What is published and what is stored -/

/-- As many rows of a group are stored as versions are counted. -/
theorem Counted.length_ofGroup {count : GroupId → Nat} {s : Store MemoryRows} (h : Counted count s)
    (g : GroupId) : (s.rows.ofGroup g).length = count g := by
  have hseqs := congrArg List.length
    ((h.gapless.forGroup g).mergeSort_seqs h.numbered.valid)
  rwa [List.length_mergeSort, List.length_map, List.length_range'] at hseqs

theorem Counted.maxSeq_eq {count : GroupId → Nat} {s : Store MemoryRows} (h : Counted count s)
    (g : GroupId) : (s.rows.maxSeq g).1 = count g := by
  obtain ⟨habove, hleast⟩ := h.numbered.valid.above_maxSeq g
  exact (h.gapless.forGroup g).eq_of_current ⟨habove, hleast _ (h.numbered.stored _)⟩

/-- The published statistics of a group are read. -/
theorem groupStats_eq {s : Store MemoryRows} {group : Fingerprint}
    (hkey : key.fingerprint s.unpacker = .ok group) :
    (StoreM.groupStats table key s).1 = .ok (s.statistics.get? ⟨table, group⟩) := by
  unfold StoreM.groupStats
  rw [bind_eq (fingerprint_eq hkey)]
  rfl

namespace Run

/-- As long as no totals are published that a transaction had gathered for rows removed since, the
statistics of a group are those of stored versions: they count as many rows as have been published
and no more than there are, know no larger number than the largest that is stored, and are there
only when an insert into the table as it is now has been published. -/
theorem publishes_stored (services : Nat → ServiceSettings) (service : Service) (capacity : Nat)
    (indexed : Bool) (codec : Codec) (unpacker : Unpacker) (commands : List Command)
    {table : TableId} {key : Key} {group : Fingerprint} :
    let start := startOn { service with sequences := .new capacity } indexed codec unpacker
    let r := commands.foldl (step services) start
    let j := Journal.follow services start {} commands
    let g : GroupId := ⟨table, group⟩
    key.fingerprint r.store.unpacker = .ok group → (∀ p ∈ j.overdue g, p.fate ≠ .published) →
      ∃ stats, (StoreM.groupStats table key r.store).1 = .ok stats ∧
        (stats = none ↔ ∀ p ∈ j.stored g, p.fate ≠ .published) ∧
        ∀ totals, stats = some totals →
          totals.rows = (j.stored g).countP (·.fate = .published) ∧
          totals.rows ≤ (r.store.rows.ofGroup g).length ∧
          totals.maxSeq ≤ (r.store.rows.maxSeq g).1 := by
  intro start r j g hkey hoverdue
  have hstart : Counted start.versions start.store :=
    counted_startOn service capacity indexed codec unpacker
  have hcounted : Counted r.versions r.store := counted_foldl hstart services commands
  have hposted : Posted r j :=
    (posted_startOn _ indexed codec unpacker).follow hstart services commands
  have hstats : r.store.statistics.get? g = amount .published (j.stored g) := by
    rw [hposted.published, Journal.all, amount_append, amount_eq_none.mpr hoverdue,
      GroupStats.none_join]
  have hlength : (j.stored g).length = r.versions g := by
    have := congrArg List.length (hposted.numbered g)
    rwa [List.length_map, List.length_range'] at this
  refine ⟨amount .published (j.stored g), (groupStats_eq hkey).trans (congrArg _ hstats),
    amount_eq_none, fun totals htotals => ?_⟩
  have hrows := rows_of_amount (hposted.rows g) htotals
  refine ⟨hrows, ?_, ?_⟩
  · rw [hrows, hcounted.length_ofGroup, ← hlength]
    exact List.countP_le_length
  · rw [hcounted.maxSeq_eq]
    refine maxSeq_of_amount (fun p hp => ?_) htotals
    -- the numbers of the stored versions
    have hmem : p.totals.maxSeq ∈ List.range' 1 (r.versions g) := by
      rw [← hposted.numbered]
      exact List.mem_map_of_mem hp
    have := List.mem_range'_1.mp hmem
    omega

/-- What a transaction has gathered for a table is published by its commit, even if the rows were
removed in between. -/
theorem commit_overdue {r : Run} {id : Nat} {g : GroupId} {state : TableState}
    {totals : GroupStats} (hcounted : Counted r.versions r.store)
    (htable : r.store.tables[g.table]? = some state)
    (hgathered : (r.transactions id).pending.get? g = some totals)
    (services : Nat → ServiceSettings) :
    let r' := [.truncate g.table, .commit id].foldl (step services) r
    r'.store.statistics.get? g = some totals ∧ (r'.store.rows.ofGroup g).length = 0 := by
  intro r'
  have hremoved : r.step services (.truncate g.table) = _ := remove_of_ok (truncate_eq htable)
  constructor
  · refine (Statistics.get?_flush _ _ g).trans ?_
    rw [hremoved]
    show GroupStats.join ((r.store.statistics.forgetTable g.table).get? g)
      ((r.transactions id).pending.get? g) = _
    rw [Statistics.get?_forgetTable, if_pos rfl, GroupStats.none_join]
    exact hgathered
  · rw [(counted_foldl hcounted services [.truncate g.table, .commit id]).length_ofGroup]
    show ((r.step services (.truncate g.table)).log g).length = 0
    rw [hremoved]
    exact congrArg List.length (if_pos rfl)

/-- A run whose services have the usual sizes is numbered from the start. -/
theorem counted_start (services : Nat → ServiceSettings) (indexed : Bool) (coder : DiffCoder)
    (unpacker : Unpacker) :
    Counted (start services indexed coder unpacker).versions
      (start services indexed coder unpacker).store :=
  counted_startOn (.ofSettings (services 0))
    (capacityForBudget (services 0).sequenceMb SequenceAllocator.entryBytes) indexed coder.codec
    unpacker

/-- A table with one version, which was stored by a transaction that is still open. -/
def opened : List Command := [.createTable 1 1 {}, .insert (some 0) 1 .null [#[1, 2, 3]]]

theorem opened_spec (services : Nat → ServiceSettings) :
    let r := after services true {} .inRowOnly opened
    let j := Journal.follow services (start services true {} .inRowOnly) {} opened
    Counted r.versions r.store ∧ r.store.tables[(1 : TableId)]? = some ⟨{}, 1⟩ ∧ Posted r j ∧
    ∃ totals, totals.rows = 1 ∧ j = ({} : Journal).post ⟨1, .zero⟩ ⟨totals, .gathered 0⟩ := by
  intro r j
  have hstart := counted_start services true {} .inRowOnly
  have hfollows := follows_after services true {} .inRowOnly opened
  refine ⟨counted_foldl hstart services opened, (hfollows.agrees.mirrors.tables 1).trans rfl,
    (posted_startOn _ _ _ _).follow hstart services opened, ?_⟩
  let l : Ledger := [.createTable 1 1 {}].foldl Ledger.step (.empty {} .inRowOnly)
  let outcome : Outcome := l.outcome ⟨1, .zero⟩ {} [#[1, 2, 3]]
  have hresult : ((after services true {} .inRowOnly [.createTable 1 1 {}]).insert (some 0) 1 .null
      [#[1, 2, 3]]).1 = .ok outcome :=
    ((follows_after services true {} .inRowOnly [.createTable 1 1 {}]).insert (some 0) 1 .null
      [#[1, 2, 3]]).1.trans rfl
  refine ⟨.ofOutcome outcome, rfl, ?_⟩
  exact Journal.note_insert hresult

/-- A table is truncated while a transaction is open that has stored a version of it, and then one
more version is stored. -/
theorem publishes_stored_truncated :
    let services : Nat → ServiceSettings := fun _ => {}
    let commands := opened ++ [.truncate 1] ++ [.insert none 1 .null [#[4]]]
    let start := start services true {} .inRowOnly
    let r := commands.foldl (step services) start
    let j := Journal.follow services start {} commands
    (Key.null.fingerprint r.store.unpacker = .ok .zero ∧
      ∀ p ∈ j.overdue ⟨1, .zero⟩, p.fate ≠ .published) ∧
    ∃ totals, (StoreM.groupStats 1 .null r.store).1 = .ok (some totals) ∧ totals.rows = 1 ∧
      totals.rows ≤ (r.store.rows.ofGroup ⟨1, .zero⟩).length ∧
      totals.maxSeq ≤ (r.store.rows.maxSeq ⟨1, .zero⟩).1 := by
  intro services commands start r j
  obtain ⟨-, htable, -, earlier, -, hjournal⟩ := opened_spec services
  let l : Ledger := (opened ++ [Command.truncate 1]).foldl Ledger.step (.empty {} .inRowOnly)
  let outcome : Outcome := l.outcome ⟨1, .zero⟩ {} [#[4]]
  have hfollows := follows_after services true {} .inRowOnly (opened ++ [.truncate 1])
  have hinsert := (hfollows.insert none 1 .null [#[4]]).1
  have hledger : (l.insert 1 .null [#[4]]).1 = .ok outcome := rfl
  have htruncated : Journal.follow services start {} (opened ++ [.truncate 1]) =
      (({} : Journal).post ⟨1, .zero⟩ ⟨earlier, .gathered 0⟩).withdraw 1 := by
    rw [Journal.follow_concat, ← hjournal]
    exact Journal.note_truncate htable
  have hj : j = (((({} : Journal).post ⟨1, .zero⟩ ⟨earlier, .gathered 0⟩).withdraw 1).post
      ⟨1, .zero⟩ ⟨.ofOutcome outcome, .published⟩) := by
    rw [← htruncated]
    refine (Journal.follow_concat services start {} _ _).trans ?_
    exact Journal.note_insert (hinsert.trans hledger)
  have hstored : j.stored ⟨1, .zero⟩ = [⟨.ofOutcome outcome, .published⟩] := by
    rw [hj]
    rfl
  have hmem : ⟨.ofOutcome outcome, .published⟩ ∈ j.stored ⟨1, .zero⟩ := by
    rw [hstored]
    exact List.mem_singleton_self _
  have hcount : (j.stored ⟨1, .zero⟩).countP (·.fate = .published) = 1 := by
    rw [hstored]
    rfl
  have hoverdue : j.overdue ⟨1, .zero⟩ = [⟨earlier, .gathered 0⟩] := by
    rw [hj]
    rfl
  have hkey : Key.null.fingerprint r.store.unpacker = .ok .zero := by
    rw [show r.store.unpacker = _ from
      (follows_after services true {} .inRowOnly commands).agrees.mirrors.unpacker]
    rfl
  have hfate : ∀ p ∈ j.overdue ⟨1, .zero⟩, p.fate ≠ .published := by
    rw [hoverdue]
    exact List.forall_mem_singleton.mpr nofun
  refine ⟨⟨hkey, hfate⟩, ?_⟩
  have hmain : ∃ stats, (StoreM.groupStats 1 .null r.store).1 = .ok stats ∧
      (stats = none ↔ ∀ p ∈ j.stored ⟨1, .zero⟩, p.fate ≠ .published) ∧
      ∀ totals, stats = some totals →
        totals.rows = (j.stored ⟨1, .zero⟩).countP (·.fate = .published) ∧
        totals.rows ≤ (r.store.rows.ofGroup ⟨1, .zero⟩).length ∧
        totals.maxSeq ≤ (r.store.rows.maxSeq ⟨1, .zero⟩).1 :=
    publishes_stored services (.ofSettings (services 0))
      (capacityForBudget (services 0).sequenceMb SequenceAllocator.entryBytes) true
      (DiffCoder.codec {}) .inRowOnly commands hkey hfate
  obtain ⟨stats, hstats, hnone, hcounts⟩ := hmain
  cases stats with
  | none => exact absurd rfl (hnone.mp rfl _ hmem)
  | some totals =>
    obtain ⟨hrows, hlive, hmax⟩ := hcounts totals rfl
    exact ⟨totals, hstats, hrows.trans hcount, hlive, hmax⟩

/-- A transaction is committed whose version is not stored any more. Its totals are published,
though there are no rows. -/
theorem publishes_overdue :
    let r := after (fun _ => {}) true {} .inRowOnly (opened ++ [.truncate 1, .commit 0])
    ∃ totals, (StoreM.groupStats 1 .null r.store).1 = .ok (some totals) ∧
      (r.store.rows.ofGroup ⟨1, .zero⟩).length < totals.rows := by
  intro r
  obtain ⟨hcounted, htable, hposted, totals, hrows, hjournal⟩ := opened_spec fun _ => {}
  have hgathered := hposted.gathered 0 ⟨1, .zero⟩
  rw [hjournal, Journal.all_post, if_pos rfl, amount_append, amount_singleton, if_pos rfl,
    show ({} : Journal).all ⟨1, .zero⟩ = [] from rfl, amount, GroupStats.none_join] at hgathered
  obtain ⟨hstats, hlength⟩ := commit_overdue hcounted htable hgathered fun _ => {}
  have hkey : Key.fingerprint r.store.unpacker .null = .ok .zero := by
    rw [show r.store.unpacker = .inRowOnly from
      (follows_after (fun _ => {}) true {} .inRowOnly _).agrees.mirrors.unpacker]
    rfl
  refine ⟨totals, ?_, ?_⟩
  · rw [groupStats_eq hkey]
    exact congrArg Except.ok hstats
  · rw [hrows]
    exact Nat.lt_one_iff.mpr hlength

end Run

end VersionChain
