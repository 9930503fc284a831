import VersionChain.Proofs.Staging.Calls
import VersionChain.Proofs.Staging.Fifo

/-!
# Sealed rows lie behind the cursor

The rows of a ring that are sealed are those at the positions right behind its cursor, and the ring
counts them. So a row is sealed at the cursor only when all of them are, and the count is above zero
whenever it is taken down.

* `Ring.Aligned` — the sealed rows and their count;
* `Ring.Aligned.push`, `Ring.Aligned.commit` — writing to a ring;
* `Ring.Aligned.isSealed_iff` — the sealed positions;
* `pushColumns_keeps`, `stageRows_keeps` — whatever pushing and committing keep;
* `Aligned.perform` — the rings of all groups after a call.
-/

namespace VersionChain

namespace Region

variable {r : Region} {pos seq : Nat}

theorem isSealed_congr {s : Region} {p q : Nat} (h : s.rows[p]? = r.rows[q]?) :
    s.isSealed p = r.isSealed q := by
  unfold isSealed
  rw [h]

/-- A content leaves the row that was begun open. -/
theorem isSealed_push_self (column : Nat) (content : Bytes) (hpos : pos < r.depth) :
    (r.push pos seq column content).isSealed pos = false := by
  obtain ⟨row, hrow, -, hopen, -⟩ := begin_self seq hpos
  have hself : (r.push pos seq column content).rows[pos]? =
      some { row with cells := row.cells.setIfInBounds column (some content) } :=
    modify_begin_self hrow _
  unfold isSealed
  rw [hself]
  exact hopen

theorem isSealed_push_ne (column : Nat) (content : Bytes) {p : Nat} (hp : p ≠ pos) :
    (r.push pos seq column content).isSealed p = r.isSealed p :=
  isSealed_congr (modify_begin_ne hp _)

theorem isSealed_commit_self (hpos : pos < r.depth) : (r.commit pos seq).isSealed pos = true := by
  obtain ⟨row, hrow, -, -, -⟩ := begin_self seq hpos
  have hself : (r.commit pos seq).rows[pos]? = some { row with committed := true } :=
    modify_begin_self hrow _
  unfold isSealed
  rw [hself]
  rfl

theorem isSealed_commit_ne {p : Nat} (hp : p ≠ pos) :
    (r.commit pos seq).isSealed p = r.isSealed p :=
  isSealed_congr (modify_begin_ne hp _)

end Region

namespace Ring

variable {r : Ring}

/-- Going back from the cursor, the first `valid` rows are sealed, and no others. -/
structure Aligned (r : Ring) : Prop where
  cursor : r.cursor < r.region.depth
  valid : r.valid ≤ r.region.depth
  sealed : ∀ back < r.region.depth,
    r.region.isSealed (r.behind (back + 1)) = decide (back < r.valid)

theorem aligned_new {depth : Nat} (hdepth : 0 < depth) (columns : Nat) :
    Aligned ⟨.new depth columns, 0, 0⟩ := by
  have hsize : (Region.new depth columns).depth = depth := Array.size_replicate
  refine ⟨?_, Nat.zero_le _, fun back _ => ?_⟩
  · rw [hsize]
    exact hdepth
  · unfold Region.isSealed
    show (Array.replicate depth (RingRow.vacant columns 0))[_]?.any _ = _
    rw [Array.getElem?_replicate]
    split <;> rfl

/-- One round behind the cursor there is the cursor again: its row is sealed only if all are. -/
theorem Aligned.isSealed_cursor (h : Aligned r) :
    r.region.isSealed r.cursor = decide (r.valid = r.region.depth) := by
  have hcursor := h.cursor
  have hvalid := h.valid
  have hlast := h.sealed (r.region.depth - 1) (by omega)
  rw [show r.region.depth - 1 + 1 = r.region.depth by omega, behind_depth hcursor] at hlast
  rw [hlast]
  exact decide_eq_decide.mpr (by omega)

/-- The count is never taken down from zero. -/
theorem Aligned.validBehind_eq (h : Aligned r) :
    r.validBehind = min r.valid (r.region.depth - 1) ∧
      (r.region.isSealed r.cursor = true → 0 < r.valid) := by
  have hcursor := h.cursor
  have hvalid := h.valid
  unfold validBehind
  rw [h.isSealed_cursor]
  by_cases hfull : r.valid = r.region.depth
  · rw [decide_eq_true hfull, if_pos rfl]
    omega
  · rw [decide_eq_false hfull, if_neg Bool.false_ne_true]
    exact ⟨by omega, nofun⟩

theorem Aligned.push (h : Aligned r) (seq column : Nat) (content : Bytes) :
    Aligned (r.push seq column content) := by
  have hcursor := h.cursor
  have hdepth : (r.push seq column content).region.depth = r.region.depth :=
    Region.depth_push column content
  have hvalid : (r.push seq column content).valid = min r.valid (r.region.depth - 1) :=
    h.validBehind_eq.1
  have hbehind : ∀ back, (r.push seq column content).behind back = r.behind back := by
    intro back
    unfold behind
    rw [hdepth]
    rfl
  refine ⟨?_, ?_, fun back hback => ?_⟩
  · rw [hdepth]
    exact hcursor
  · rw [hvalid, hdepth]
    omega
  · rw [hdepth] at hback
    rw [hbehind, hvalid]
    by_cases hlast : back + 1 = r.region.depth
    · -- the row at the cursor is open now
      rw [hlast, behind_depth hcursor,
        show (r.push seq column content).region.isSealed r.cursor = false from
          Region.isSealed_push_self column content hcursor]
      exact (decide_eq_false (by omega)).symm
    · rw [show (r.push seq column content).region.isSealed (r.behind (back + 1)) = _ from
        Region.isSealed_push_ne column content (behind_ne_cursor hcursor (by omega)),
        h.sealed back hback]
      exact decide_eq_decide.mpr (by omega)

theorem Aligned.commit (h : Aligned r) (seq : Nat) : Aligned (r.commit seq) := by
  have hcursor := h.cursor
  have hdepth : (r.commit seq).region.depth = r.region.depth := Region.depth_commit
  have hvalid : (r.commit seq).valid =
      min (min r.valid (r.region.depth - 1) + 1) r.region.depth := by
    rw [← h.validBehind_eq.1]
    rfl
  refine ⟨?_, ?_, fun back hback => ?_⟩
  · rw [hdepth]
    exact Nat.mod_lt _ (by omega)
  · rw [hvalid, hdepth]
    omega
  · rw [hdepth] at hback
    rw [behind_nextCursor hcursor hdepth rfl hback, hvalid]
    cases back with
    | zero =>
      rw [behind_zero hcursor, show (r.commit seq).region.isSealed r.cursor = true from
        Region.isSealed_commit_self hcursor]
      exact (decide_eq_true (by omega)).symm
    | succ back =>
      -- the rows from before, one step further back
      rw [show (r.commit seq).region.isSealed (r.behind (back + 1)) = _ from
        Region.isSealed_commit_ne (behind_ne_cursor hcursor hback), h.sealed back (by omega)]
      exact decide_eq_decide.mpr (by omega)

/-- Going back from the cursor leads to every position. -/
theorem exists_behind (h : r.cursor < r.region.depth) {pos : Nat} (hpos : pos < r.region.depth) :
    ∃ back < r.region.depth, r.behind (back + 1) = pos := by
  unfold behind
  by_cases hbefore : pos < r.cursor
  · refine ⟨r.cursor - (pos + 1), by omega, ?_⟩
    rw [show r.cursor + r.region.depth - (r.cursor - (pos + 1) + 1) = pos + r.region.depth by omega,
      Nat.add_mod_right, Nat.mod_eq_of_lt hpos]
  · refine ⟨r.cursor + r.region.depth - (pos + 1), by omega, ?_⟩
    rw [show r.cursor + r.region.depth - (r.cursor + r.region.depth - (pos + 1) + 1) = pos by omega,
      Nat.mod_eq_of_lt hpos]

/-- The sealed positions are those at most `valid` steps behind the cursor. -/
theorem Aligned.isSealed_iff (h : Aligned r) {pos : Nat} (hpos : pos < r.region.depth) :
    r.region.isSealed pos = true ↔ ∃ back < r.valid, pos = r.behind (back + 1) := by
  have hvalid := h.valid
  constructor
  · intro hsealed
    obtain ⟨back, hback, rfl⟩ := exists_behind h.cursor hpos
    rw [h.sealed back hback] at hsealed
    exact ⟨back, of_decide_eq_true hsealed, rfl⟩
  · rintro ⟨back, hback, rfl⟩
    rw [h.sealed back (by omega)]
    exact decide_eq_true hback

end Ring

namespace StagingBuffer

variable {b c : StagingBuffer} {t : Token}

/-! ## Calls made of single ones -/

/-- What pushes with a token keep, staging the columns of a row keeps. -/
theorem pushColumns_keeps {P : StagingBuffer → Prop}
    (hpush : ∀ b seq column content, P b → P (b.push t seq column content).2) (h : P b)
    (seq column : Nat) (contents : List (Option Bytes)) :
    P (b.pushColumns t seq column contents).2 := by
  induction contents generalizing b column with
  | nil => exact h
  | cons head rest ih =>
    cases head with
    | none => exact ih h (column + 1)
    | some content =>
      have hpushed := hpush b seq column content h
      rw [pushColumns_some]
      split
      · exact ih hpushed (column + 1)
      · exact hpushed

/-- What pushes and commits with a token keep, staging rows keeps. -/
theorem stageRows_keeps {P : StagingBuffer → Prop}
    (hpush : ∀ b seq column content, P b → P (b.push t seq column content).2)
    (hcommit : ∀ b seq, P b → P (b.commit t seq).2) (h : P b) (rows : List StagedRow) :
    P (b.stageRows t rows).2 := by
  induction rows generalizing b with
  | nil => exact h
  | cons row rest ih =>
    have hpushed := pushColumns_keeps hpush h row.seq 0 row.columns
    rw [StagingBuffer.stageRows]
    split
    · rename_i heq
      rw [heq] at hpushed
      exact hpushed
    · rename_i heq
      rw [heq] at hpushed
      have hsealed := hcommit _ row.seq hpushed
      split
      · rename_i heq'
        rw [heq'] at hsealed
        exact hsealed
      · rename_i heq'
        rw [heq'] at hsealed
        exact ih hsealed

/-! ## The rings of all groups -/

/-- The sealed rows of every ring lie behind its cursor. -/
structure Aligned (b : StagingBuffer) : Prop where
  valid : Valid b
  rings : ∀ g ring, b.ringFor g = some ring → ring.Aligned

theorem aligned_new (slots : Nat) : Aligned (new slots) :=
  ⟨valid_new slots, fun g _ hring => nomatch (ringFor_new slots g).symm.trans hring⟩

namespace Aligned

/-- Every ring is one from before. -/
theorem of_others (h : b.Aligned) (hc : c.Valid)
    (hrings : ∀ g, c.ringFor g = none ∨ c.ringFor g = b.ringFor g) : c.Aligned := by
  refine ⟨hc, fun g ring hring => ?_⟩
  rcases hrings g with hnone | hsame
  · cases hnone.symm.trans hring
  · exact h.rings g ring (hsame.symm.trans hring)

/-- The ring of a token was written to. -/
theorem of_staged (h : b.Aligned) {ring : Ring} (hstaged : Staged c t ring) (hring : ring.Aligned)
    (hothers : OthersKeep b c t.owner) : c.Aligned := by
  refine ⟨hstaged.valid, fun g found hfound => ?_⟩
  by_cases hg : g = t.owner
  · rw [hg, hstaged.ring] at hfound
    cases hfound
    exact hring
  · exact h.rings g found ((hothers g hg).symm.trans hfound)

theorem push (h : b.Aligned) (seq column : Nat) (content : Bytes) :
    (b.push t seq column content).2.Aligned := by
  by_cases hcurrent : b.isCurrent t = true
  · obtain ⟨ring, hstaged⟩ := h.valid.staged hcurrent
    have hring := h.rings t.owner ring hstaged.ring
    by_cases hcolumn : column < ring.region.columns
    · obtain ⟨-, hpushed, hothers⟩ := hstaged.push seq content hcolumn
      exact h.of_staged hpushed (hring.push seq column content) hothers
    · rw [hstaged.push_beyond seq content hcolumn]
      exact h
  · rw [push_stale (Bool.eq_false_iff.mpr hcurrent)]
    exact h.of_others (h.valid.undisturbed_count t _).valid fun _ => .inr rfl

theorem commit (h : b.Aligned) (seq : Nat) : (b.commit t seq).2.Aligned := by
  by_cases hcurrent : b.isCurrent t = true
  · obtain ⟨ring, hstaged⟩ := h.valid.staged hcurrent
    obtain ⟨-, hsealed, hothers⟩ := hstaged.commit seq
    exact h.of_staged hsealed ((h.rings t.owner ring hstaged.ring).commit seq) hothers
  · rw [commit_stale (Bool.eq_false_iff.mpr hcurrent)]
    exact h.of_others (h.valid.undisturbed_count t _).valid fun _ => .inr rfl

theorem acquire (h : b.Aligned) (owner : GroupId) (depth columns : Nat) :
    (b.acquire owner depth columns).2.2.Aligned := by
  have hacquired := h.valid.acquire owner depth columns
  obtain ⟨ring, hring, -, -, hnew, hold⟩ := hacquired.ring
  have hthis : ring.Aligned := by
    cases hisNew : (b.acquire owner depth columns).2.1 with
    | true =>
      rw [hnew hisNew]
      exact Ring.aligned_new (by unfold clampDepth maxShape; omega) _
    | false => exact h.rings owner ring (hold hisNew)
  refine ⟨hacquired.valid, fun g found hfound => ?_⟩
  by_cases hg : g = owner
  · rw [hg, hring] at hfound
    cases hfound
    exact hthis
  · rcases hacquired.others g hg with hnone | hsame
    · cases hnone.symm.trans hfound
    · exact h.rings g found (hsame.symm.trans hfound)

theorem perform (h : b.Aligned) (command : StagingCommand) : (b.perform command).Aligned := by
  cases command with
  | acquire owner depth columns => exact h.acquire owner depth columns
  | push t seq column content => exact h.push seq column content
  | commit t seq => exact h.commit seq
  | populate t rows =>
    exact stageRows_keeps (fun _ seq column content hb => hb.push seq column content)
      (fun _ seq hb => hb.commit seq) h _
  | recentBases t target column limit =>
    have hkept := h.valid.recentBases t target column limit
    refine h.of_others hkept.valid fun g => .inr ?_
    by_cases hcurrent : b.isCurrent t = true
    · obtain ⟨ring, hstaged⟩ := h.valid.staged hcurrent
      show (b.recentBases t target column limit).2.ringFor g = _
      rw [hstaged.recentBases]
    · exact hkept.stale (Bool.eq_false_iff.mpr hcurrent) g
  | invalidate table =>
    obtain ⟨hvalid, hrings⟩ := h.valid.invalidate table
    refine h.of_others hvalid fun g => ?_
    rw [show (b.perform (.invalidate table)).ringFor g = _ from hrings g]
    split
    · exact .inl rfl
    · exact .inr rfl

end Aligned

end StagingBuffer

end VersionChain
