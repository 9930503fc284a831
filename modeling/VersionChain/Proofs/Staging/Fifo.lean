import Mathlib.Data.List.Basic
import VersionChain.Proofs.Staging.Ring
import VersionChain.Staging.Buffer

/-!
# A ring is a queue of commits

What a ring holds does not depend on positions and cursors: it is a list of commits, the latest
first, of which only so many are kept as the ring is deep, and perhaps one row that was begun and
not yet committed. Beginning a row takes the place of the oldest commit of a full ring.

* `Fifo` — the list of commits, and what is offered from it;
* `Ring.Holds` — a ring stands for a queue;
* `Ring.Holds.push`, `Ring.Holds.commit` — and keeps standing for it;
* `Ring.Holds.bases` — what a ring offers is what its queue offers;
* `Fifo.seqs_retained_populate` — of the rows that are filled in, the newest survive.
-/

namespace VersionChain

/-- A version with the contents of its columns. -/
structure QueuedRow where
  seq : Nat
  cells : Array (Option Bytes)

/-- The commits on a slot since it was claimed. -/
structure Fifo where
  depth : Nat
  columns : Nat
  /-- The rows that were committed, the latest first. -/
  commits : List QueuedRow := []
  /-- The row that was begun and is not committed yet. -/
  pending : Option QueuedRow := none

namespace Fifo

/-- A row without content. -/
def blank (f : Fifo) (seq : Nat) : QueuedRow := ⟨seq, .replicate f.columns none⟩

/-- The row that is written next: the pending one if it has this number, else a blank one. -/
def opened (f : Fifo) (seq : Nat) : QueuedRow :=
  match f.pending with
  | some row => if row.seq = seq then row else f.blank seq
  | none => f.blank seq

/-- Puts the content of a column into the row with this number. A column that there is not is
refused. -/
def push (f : Fifo) (seq column : Nat) (content : Bytes) : Fifo :=
  if column < f.columns then
    let row := f.opened seq
    { f with pending := some { row with cells := row.cells.setIfInBounds column (some content) } }
  else f

/-- Commits the row with this number. -/
def commit (f : Fifo) (seq : Nat) : Fifo :=
  { f with commits := f.opened seq :: f.commits, pending := none }

/-- Puts the contents of the columns from `column` on into the row with this number. -/
def pushColumns (f : Fifo) (seq column : Nat) : List (Option Bytes) → Fifo
  | [] => f
  | none :: rest => f.pushColumns seq (column + 1) rest
  | some content :: rest => (f.push seq column content).pushColumns seq (column + 1) rest

/-- Pushes and commits rows one after the other. -/
def stageRows (f : Fifo) : List StagedRow → Fifo
  | [] => f
  | row :: rest => ((f.pushColumns row.seq 0 row.columns).commit row.seq).stageRows rest

/-- Pushes and commits rows in ascending order of their numbers. -/
def populate (f : Fifo) (rows : List StagedRow) : Fifo :=
  f.stageRows (rows.mergeSort fun x y => x.seq ≤ y.seq)

/-- The commits that are kept: the latest ones, as many as the ring is deep, but for one whose
place the pending row has taken. -/
def retained (f : Fifo) : List QueuedRow :=
  f.commits.take (if f.pending.isSome then f.depth - 1 else f.depth)

/-- What a commit offers to version `target` in a column. -/
def offer (f : Fifo) (target column : Nat) (row : QueuedRow) : Option RecentBase :=
  if row.seq < target ∧ target - row.seq ≤ f.depth then
    (row.cells.getD column none).map fun content => ⟨row.seq, target - row.seq, content⟩
  else none

/-- The bases for version `target` in a column: distance by distance from one on, at each the
latest commits first, at most `limit` of them. -/
def bases (f : Fifo) (target column limit : Nat) : List RecentBase :=
  let offered := f.retained.filterMap (f.offer target column)
  ((List.range' 1 f.depth).flatMap fun distance =>
    offered.filter (·.distance = distance)).take limit

@[simp] theorem depth_push (f : Fifo) (seq column : Nat) (content : Bytes) :
    (f.push seq column content).depth = f.depth := by
  unfold push
  split <;> rfl

@[simp] theorem columns_push (f : Fifo) (seq column : Nat) (content : Bytes) :
    (f.push seq column content).columns = f.columns := by
  unfold push
  split <;> rfl

@[simp] theorem commits_push (f : Fifo) (seq column : Nat) (content : Bytes) :
    (f.push seq column content).commits = f.commits := by
  unfold push
  split <;> rfl

theorem seq_opened (f : Fifo) (seq : Nat) : (f.opened seq).seq = seq := by
  unfold opened
  split
  · split
    · assumption
    · rfl
  · rfl

theorem commits_pushColumns (f : Fifo) (seq column : Nat) (contents : List (Option Bytes)) :
    (f.pushColumns seq column contents).commits = f.commits := by
  induction contents generalizing f column with
  | nil => rfl
  | cons head rest ih =>
    cases head with
    | none => exact ih f (column + 1)
    | some content => exact (ih _ _).trans (commits_push f seq column content)

theorem seqs_stageRows (f : Fifo) (rows : List StagedRow) :
    (f.stageRows rows).commits.map (·.seq) = (rows.map (·.seq)).reverse ++ f.commits.map (·.seq) := by
  induction rows generalizing f with
  | nil => rfl
  | cons row rest ih =>
    have hcommitted : ((f.pushColumns row.seq 0 row.columns).commit row.seq).commits.map (·.seq) =
        row.seq :: f.commits.map (·.seq) := by
      simp only [commit, List.map_cons, seq_opened, commits_pushColumns]
    simp only [stageRows, ih, hcommitted, List.map_cons, List.reverse_cons, List.append_assoc,
      List.cons_append, List.nil_append]

theorem depth_pushColumns (f : Fifo) (seq column : Nat) (contents : List (Option Bytes)) :
    (f.pushColumns seq column contents).depth = f.depth := by
  induction contents generalizing f column with
  | nil => rfl
  | cons head rest ih =>
    cases head with
    | none => exact ih f (column + 1)
    | some content => exact (ih _ _).trans (depth_push f seq column content)

/-- Nothing is left half-written, and the depth stays. -/
theorem stageRows_fields (f : Fifo) {rows : List StagedRow} (hrows : rows ≠ []) :
    (f.stageRows rows).pending = none ∧ (f.stageRows rows).depth = f.depth := by
  induction rows generalizing f with
  | nil => exact absurd rfl hrows
  | cons row rest ih =>
    have hdepth : ((f.pushColumns row.seq 0 row.columns).commit row.seq).depth = f.depth :=
      depth_pushColumns f row.seq 0 row.columns
    cases rest with
    | nil => exact ⟨rfl, hdepth⟩
    | cons next rest =>
      obtain ⟨hpending, hrest⟩ :=
        ih ((f.pushColumns row.seq 0 row.columns).commit row.seq) (List.cons_ne_nil next rest)
      exact ⟨hpending, hrest.trans hdepth⟩

/-- Only the newest rows survive, as many as the ring is deep. -/
theorem seqs_retained_populate (f : Fifo) {rows : List StagedRow} (hrows : rows ≠ []) :
    (f.populate rows).retained.map (·.seq) =
      (((rows.mergeSort fun x y => x.seq ≤ y.seq).map (·.seq)).reverse ++
        f.commits.map (·.seq)).take f.depth := by
  have hsorted : (rows.mergeSort fun x y => x.seq ≤ y.seq) ≠ [] := by
    intro hnil
    have hlength := (List.mergeSort_perm rows fun x y => x.seq ≤ y.seq).length_eq
    rw [hnil] at hlength
    exact hrows (List.length_eq_zero_iff.mp hlength.symm)
  obtain ⟨hpending, hdepth⟩ := f.stageRows_fields hsorted
  unfold retained populate
  rw [hpending, hdepth, Option.isSome_none, if_neg Bool.false_ne_true, List.map_take,
    seqs_stageRows]

/-! ## The rows of a ring -/

/-- The row of a ring that holds a commit, or nothing so far. -/
def sealedRow (f : Fifo) (k : Nat) : RingRow :=
  match f.commits[k]? with
  | some row => ⟨row.seq, true, row.cells⟩
  | none => .vacant f.columns 0

/-- The row of a ring that holds a row which is still open. -/
def openRow (row : QueuedRow) : RingRow := ⟨row.seq, false, row.cells⟩

/-- The row at the cursor: the pending one, or that of the oldest commit. -/
def cursorRow (f : Fifo) : RingRow :=
  match f.pending with
  | some row => openRow row
  | none => f.sealedRow (f.depth - 1)

theorem baseOf_sealedRow (f : Fifo) (target column k : Nat) :
    Ring.baseOf f.depth target column (f.sealedRow k) = f.commits[k]?.bind (f.offer target column) := by
  unfold sealedRow
  cases f.commits[k]? with
  | none => simp [Ring.baseOf, RingRow.vacant]
  | some row => simp only [Ring.baseOf, offer, true_and, Option.bind_some]

theorem length_retained_le (f : Fifo) : f.retained.length ≤ f.depth := by
  unfold retained
  rw [List.length_take]
  split <;> omega

end Fifo

namespace Ring

/-- A ring stands for a queue: going back from the cursor, one comes by its commits, the latest
first, and after one round to the row that is written next. -/
structure Holds (r : Ring) (f : Fifo) : Prop where
  depth : r.region.depth = f.depth
  columns : r.region.columns = f.columns
  cursor : r.cursor < f.depth
  sealed : ∀ k, k + 1 < f.depth → r.region.rows[r.behind (k + 1)]? = some (f.sealedRow k)
  current : r.region.rows[r.cursor]? = some f.cursorRow

variable {r : Ring} {f : Fifo}

theorem behind_zero (h : r.cursor < r.region.depth) : r.behind 0 = r.cursor := by
  unfold behind
  rw [Nat.sub_zero, Nat.add_mod_right, Nat.mod_eq_of_lt h]

theorem behind_depth (h : r.cursor < r.region.depth) : r.behind r.region.depth = r.cursor := by
  unfold behind
  rw [Nat.add_sub_cancel, Nat.mod_eq_of_lt h]

/-- With the cursor one step further on, it is one step more to go back. -/
theorem behind_nextCursor (h : r.cursor < r.region.depth) {s : Ring}
    (hdepth : s.region.depth = r.region.depth) (hcursor : s.cursor = r.nextCursor) {k : Nat}
    (hk : k < r.region.depth) : s.behind (k + 1) = r.behind k := by
  unfold behind
  rw [hdepth, hcursor]
  unfold nextCursor
  by_cases hlast : r.cursor + 1 = r.region.depth
  · rw [hlast, Nat.mod_self, Nat.zero_add,
      show r.cursor + r.region.depth - k = r.region.depth - (k + 1) + r.region.depth by omega,
      Nat.add_mod_right]
  · rw [Nat.mod_eq_of_lt (show r.cursor + 1 < r.region.depth by omega),
      show r.cursor + 1 + r.region.depth - (k + 1) = r.cursor + r.region.depth - k by omega]

theorem behind_ne_cursor (h : r.cursor < r.region.depth) {k : Nat} (hk : k + 1 < r.region.depth) :
    r.behind (k + 1) ≠ r.cursor := by
  rw [← behind_depth h]
  intro heq
  obtain ⟨last, hlast⟩ : ∃ last, r.region.depth = last + 1 := ⟨r.region.depth - 1, by omega⟩
  rw [show r.behind r.region.depth = r.behind (last + 1) by rw [hlast]] at heq
  have := behind_inj h (by omega) (by omega) heq
  omega

theorem holds_new {depth : Nat} (hdepth : 0 < depth) (columns : Nat) :
    Holds ⟨.new depth columns, 0, 0⟩ { depth, columns } := by
  have hrow : ∀ pos < depth, (Region.new depth columns).rows[pos]? = some (.vacant columns 0) := by
    intro pos hpos
    show (Array.replicate depth (RingRow.vacant columns 0))[pos]? = _
    rw [Array.getElem?_replicate, if_pos hpos]
  have hsize : (Region.new depth columns).depth = depth := Array.size_replicate
  refine ⟨hsize, rfl, hdepth, ?_, hrow 0 hdepth⟩
  intro k hk
  refine hrow _ ?_
  unfold behind
  rw [hsize]
  exact Nat.mod_lt _ hdepth

/-! ## Staging a row -/

/-- The row that is begun at the cursor is the one that the queue has for the number. -/
theorem Holds.begin_cursor (h : Holds r f) (seq : Nat) :
    (r.region.begin r.cursor seq).rows[r.cursor]? = some (Fifo.openRow (f.opened seq)) := by
  have hlt : r.cursor < r.region.rows.size := by
    rw [show r.region.rows.size = f.depth from h.depth]
    exact h.cursor
  have hopen : r.region.isOpen r.cursor seq = true ↔
      f.cursorRow.seq = seq ∧ f.cursorRow.committed = false := by
    unfold Region.isOpen
    rw [h.current]
    simp
  have hblank : (r.region.rows.setIfInBounds r.cursor (.vacant r.region.columns seq))[r.cursor]? =
      some (Fifo.openRow (f.blank seq)) := by
    rw [Array.getElem?_setIfInBounds_self_of_lt hlt, h.columns]
    rfl
  unfold Region.begin Fifo.opened
  unfold Fifo.cursorRow at hopen
  cases hpending : f.pending with
  | some row =>
    have hcurrent := h.current
    unfold Fifo.cursorRow at hcurrent
    rw [hpending] at hopen hcurrent
    by_cases hseq : row.seq = seq
    · rw [if_pos (hopen.mpr ⟨hseq, rfl⟩)]
      simp only [if_pos hseq, hcurrent]
    · rw [if_neg fun hcond => hseq (hopen.mp hcond).1]
      simp only [if_neg hseq, hblank]
  | none =>
    have hcurrent := h.current
    unfold Fifo.cursorRow at hcurrent
    rw [hpending] at hopen hcurrent
    split
    · -- nothing was ever written here, and it has the number of an empty row
      rename_i hcond
      obtain ⟨hseq, hcommitted⟩ := hopen.mp hcond
      simp only [Fifo.sealedRow] at hseq hcommitted hcurrent
      cases hrow : f.commits[f.depth - 1]? with
      | some row =>
        rw [hrow] at hcommitted
        cases hcommitted
      | none =>
        rw [hrow] at hseq hcurrent
        rw [hcurrent, ← hseq]
        rfl
    · exact hblank

theorem Holds.push (h : Holds r f) {column : Nat} (hcolumn : column < f.columns) (seq : Nat)
    (content : Bytes) : Holds (r.push seq column content) (f.push seq column content) := by
  have hdepth : (r.push seq column content).region.depth = r.region.depth :=
    Region.depth_push column content
  have hcursor : r.cursor < r.region.depth := h.depth ▸ h.cursor
  refine ⟨?_, ?_, ?_, ?_, ?_⟩
  · rw [hdepth, h.depth, Fifo.depth_push]
  · rw [Fifo.columns_push]
    exact (Region.columns_push column content).trans h.columns
  · rw [Fifo.depth_push]
    exact h.cursor
  · intro k hk
    rw [Fifo.depth_push] at hk
    have hbehind : (r.push seq column content).behind (k + 1) = r.behind (k + 1) := by
      unfold behind
      rw [hdepth]
      rfl
    have hne := behind_ne_cursor hcursor (h.depth ▸ hk)
    rw [hbehind, show (r.push seq column content).region.rows[r.behind (k + 1)]? =
      r.region.rows[r.behind (k + 1)]? from Region.modify_begin_ne hne _, h.sealed k hk]
    simp only [Fifo.sealedRow, Fifo.commits_push, Fifo.columns_push]
  · rw [show (r.push seq column content).region.rows[(r.push seq column content).cursor]? = _ from
      Region.modify_begin_self (h.begin_cursor seq) _]
    simp only [Fifo.cursorRow, Fifo.push, if_pos hcolumn]
    rfl

theorem Holds.commit (h : Holds r f) (seq : Nat) : Holds (r.commit seq) (f.commit seq) := by
  have hdepth : (r.commit seq).region.depth = r.region.depth := Region.depth_commit
  have hcursor : r.cursor < r.region.depth := h.depth ▸ h.cursor
  have hbehind : ∀ {k}, k < r.region.depth → (r.commit seq).behind (k + 1) = r.behind k :=
    fun hk => behind_nextCursor hcursor hdepth rfl hk
  have hself : (r.commit seq).region.rows[r.cursor]? = some ((f.commit seq).sealedRow 0) :=
    Region.modify_begin_self (h.begin_cursor seq) _
  -- the rows behind the cursor are those of before, one step further back
  have hrows : ∀ k < r.region.depth,
      (r.commit seq).region.rows[(r.commit seq).behind (k + 1)]? =
        some ((f.commit seq).sealedRow k) := by
    intro k hk
    rw [hbehind hk]
    cases k with
    | zero =>
      rw [behind_zero hcursor]
      exact hself
    | succ k =>
      have hne := behind_ne_cursor hcursor hk
      exact (Region.modify_begin_ne hne _).trans (h.sealed k (h.depth ▸ hk))
  have hnext : (r.commit seq).cursor < (r.commit seq).region.depth := by
    rw [hdepth]
    exact Nat.mod_lt _ (by omega)
  refine ⟨hdepth.trans h.depth, Region.columns_commit.trans h.columns, ?_, ?_, ?_⟩
  · rw [hdepth, h.depth] at hnext
    exact hnext
  · intro k hk
    exact hrows k (h.depth ▸ Nat.lt_of_succ_lt hk)
  · have hlast := hrows (r.region.depth - 1) (by omega)
    rw [show r.region.depth - 1 + 1 = (r.commit seq).region.depth by omega, behind_depth hnext,
      h.depth] at hlast
    exact hlast

/-! ## What is offered -/

/-- What stands `k + 1` steps behind the cursor offers what the `k`-th of the retained commits
does. -/
theorem Holds.offer_eq (h : Holds r f) (target column : Nat) {k : Nat} (hk : k < f.depth) :
    r.region.rows[r.behind (k + 1)]?.bind (baseOf f.depth target column) =
      f.retained[k]?.bind (f.offer target column) := by
  have hcursor : r.cursor < r.region.depth := h.depth ▸ h.cursor
  unfold Fifo.retained
  by_cases hlast : k + 1 < f.depth
  · rw [h.sealed k hlast, Option.bind_some, Fifo.baseOf_sealedRow, List.getElem?_take_of_lt]
    split <;> omega
  · have hdepth : k + 1 = r.region.depth := by rw [h.depth]; omega
    rw [hdepth, behind_depth hcursor, h.current, Option.bind_some]
    unfold Fifo.cursorRow
    cases hpending : f.pending with
    | some row =>
      -- the pending row is not committed, and its place was that of the oldest commit
      rw [Option.isSome_some, if_pos rfl, List.getElem?_eq_none (by rw [List.length_take]; omega)]
      simp [baseOf, Fifo.openRow]
    | none =>
      rw [Option.isSome_none, if_neg Bool.false_ne_true, List.getElem?_take_of_lt hk,
        show f.depth - 1 = k by omega]
      exact Fifo.baseOf_sealedRow f target column k

theorem filterMap_take {α β : Type} (l : List α) (g : α → Option β) (n : Nat) :
    (List.range n).filterMap (fun k => l[k]?.bind g) = (l.take n).filterMap g := by
  induction n with
  | zero => rfl
  | succ n ih =>
    rw [List.range_succ, List.filterMap_append, ih, List.take_add_one, List.filterMap_append]
    cases hget : l[n]? with
    | none => simp [hget]
    | some x => cases hg : g x <;> simp [hget, hg]

/-- Sorted bases, the distances of which are known, are those at each distance in turn. -/
theorem sorted_eq_flatMap {bases : List RecentBase}
    (hsorted : bases.Pairwise fun a b => a.distance ≤ b.distance) {low count : Nat}
    (hrange : ∀ base ∈ bases, low ≤ base.distance ∧ base.distance < low + count) :
    bases = (List.range' low count).flatMap fun distance =>
      bases.filter (·.distance = distance) := by
  induction count generalizing low bases with
  | zero =>
    cases bases with
    | nil => rfl
    | cons base rest =>
      have := hrange base List.mem_cons_self
      omega
  | succ count ih =>
    -- the bases at the least distance come first
    have hsplit : bases = bases.filter (·.distance = low) ++ bases.filter (·.distance ≠ low) := by
      clear ih
      induction bases with
      | nil => rfl
      | cons base rest ih =>
        obtain ⟨hfirst, hrest⟩ := List.pairwise_cons.mp hsorted
        have hbase := hrange base List.mem_cons_self
        have htail := ih hrest fun x hx => hrange x (List.mem_cons_of_mem base hx)
        by_cases hlow : base.distance = low
        · rw [List.filter_cons_of_pos (by simpa using hlow),
            List.filter_cons_of_neg (by simpa using hlow), List.cons_append, ← htail]
        · have hnone : rest.filter (·.distance = low) = [] := by
            refine List.filter_eq_nil_iff.mpr fun x hx => ?_
            have := hfirst x hx
            simp only [decide_eq_true_eq]
            omega
          rw [hnone, List.nil_append] at htail
          rw [List.filter_cons_of_neg (by simpa using hlow),
            List.filter_cons_of_pos (by simpa using hlow), hnone, List.nil_append, ← htail]
    have hrest := @ih (bases.filter (·.distance ≠ low)) (hsorted.sublist List.filter_sublist)
      (low + 1) fun base hbase => by
        obtain ⟨hmem, hne⟩ := List.mem_filter.mp hbase
        have := hrange base hmem
        simp only [ne_eq, decide_not, Bool.not_eq_eq_eq_not, Bool.not_true,
          decide_eq_false_iff_not] at hne
        omega
    rw [List.range'_succ, List.flatMap_cons]
    conv => lhs; rw [hsplit, hrest]
    congr 1
    refine List.flatMap_congr fun distance hdistance => ?_
    have hlow : low < distance := by
      have := List.mem_range'_1.mp hdistance
      omega
    rw [List.filter_filter]
    refine List.filter_congr fun base _ => ?_
    by_cases heq : base.distance = distance
    · simp [heq, Nat.ne_of_gt hlow]
    · simp [heq]

theorem distance_le_trans (a b c : RecentBase) :
    decide (a.distance ≤ b.distance) = true → decide (b.distance ≤ c.distance) = true →
      decide (a.distance ≤ c.distance) = true := by
  simp only [decide_eq_true_eq]
  exact Nat.le_trans

theorem distance_le_total (a b : RecentBase) :
    (decide (a.distance ≤ b.distance) || decide (b.distance ≤ a.distance)) = true := by
  simp only [Bool.or_eq_true, decide_eq_true_eq]
  exact Nat.le_total a.distance b.distance

/-- Sorting keeps the bases at one distance in their order. -/
theorem filter_sortByDistance (bases : List RecentBase) (distance : Nat) :
    (RecentBase.sortByDistance bases).filter (·.distance = distance) =
      bases.filter (·.distance = distance) := by
  have hequal : (bases.filter (·.distance = distance)).Pairwise
      fun a b => decide (a.distance ≤ b.distance) = true := by
    refine List.pairwise_of_forall_mem_list fun a ha b hb => ?_
    have ha' := (List.mem_filter.mp ha).2
    have hb' := (List.mem_filter.mp hb).2
    simp only [decide_eq_true_eq] at ha' hb' ⊢
    omega
  have hsub : (bases.filter (·.distance = distance)).Sublist (RecentBase.sortByDistance bases) :=
    List.sublist_mergeSort distance_le_trans distance_le_total hequal List.filter_sublist
  have hkept := hsub.filter (·.distance = distance)
  rw [List.filter_filter] at hkept
  simp only [Bool.and_self] at hkept
  refine (hkept.eq_of_length ?_).symm
  exact ((List.mergeSort_perm bases _).filter _).length_eq.symm

theorem sortByDistance_eq_flatMap {bases : List RecentBase} {low count : Nat}
    (hrange : ∀ base ∈ bases, low ≤ base.distance ∧ base.distance < low + count) :
    RecentBase.sortByDistance bases = (List.range' low count).flatMap fun distance =>
      bases.filter (·.distance = distance) := by
  have hperm : (RecentBase.sortByDistance bases).Perm bases := List.mergeSort_perm _ _
  have hsorted : (RecentBase.sortByDistance bases).Pairwise fun a b => a.distance ≤ b.distance := by
    have hpairwise : (RecentBase.sortByDistance bases).Pairwise
        fun a b => decide (a.distance ≤ b.distance) = true :=
      List.pairwise_mergeSort distance_le_trans distance_le_total bases
    exact hpairwise.imp fun hab => by simpa using hab
  rw [sorted_eq_flatMap hsorted fun base hbase => hrange base (hperm.mem_iff.mp hbase)]
  exact List.flatMap_congr fun distance _ => filter_sortByDistance bases distance

/-- What a ring offers is what its queue offers. -/
theorem Holds.bases (h : Holds r f) (target column limit : Nat) :
    r.bases target column limit = f.bases target column limit := by
  have hfound : ((List.range r.region.depth).filterMap fun back =>
      r.region.rows[r.behind (back + 1)]?.bind (baseOf r.region.depth target column)) =
      f.retained.filterMap (f.offer target column) := by
    rw [h.depth]
    have hoffers : ∀ k ∈ List.range f.depth,
        r.region.rows[r.behind (k + 1)]?.bind (baseOf f.depth target column) =
          f.retained[k]?.bind (f.offer target column) :=
      fun k hk => h.offer_eq target column (List.mem_range.mp hk)
    rw [List.filterMap_congr hoffers, filterMap_take, List.take_of_length_le f.length_retained_le]
  have hrange : ∀ base ∈ f.retained.filterMap (f.offer target column),
      1 ≤ base.distance ∧ base.distance < 1 + f.depth := by
    intro base hbase
    obtain ⟨row, -, hoffer⟩ := List.mem_filterMap.mp hbase
    unfold Fifo.offer at hoffer
    split at hoffer
    · obtain ⟨content, -, rfl⟩ := Option.map_eq_some_iff.mp hoffer
      simp only
      omega
    · cases hoffer
  unfold Ring.bases Fifo.bases
  simp only [hfound, sortByDistance_eq_flatMap hrange]

end Ring

end VersionChain
