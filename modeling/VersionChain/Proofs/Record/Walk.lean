import Mathlib.Data.List.Chain
import VersionChain.Proofs.Record.Cover
import VersionChain.Proofs.Record.Slices

/-!
# The greedy walk

The greedy walk as a loop that goes round by round, with every stretch of bytes that it cuts
out, every window that it reads and every difference that it takes made an access of its own,
which faults if there is none such. Positions and lengths are numbers without a bound here; the
steps that the codec writes are these with their numbers narrowed to 32 bits.

Between two rounds what is written rebuilds the target up to the open literal and ends in a
copy, and the three positions are in order: the literal does not start behind the position, and
neither the position nor the cursor lies outside. A round keeps that and moves the position on.

* `Bytes.commonPrefix_maximal` — a common run ends where it cannot go on;
* `Diff.windowIndex_inside` — a place in the index has a whole window of the base behind it;
* `Diff.Loop.round?_spec` — a round does not fault, and what it comes to;
* `Diff.greedy_exact` — the loop ends without a fault, with an exact cover of the target.
-/

namespace VersionChain

/-! ## Where a common run ends -/

/-- The place where a run of `a` and a run of `b` that go together cannot go on: one of the two
byte strings ends here, or the next bytes differ. -/
def Bytes.Stuck (a : Bytes) (i : Nat) (b : Bytes) (j : Nat) : Prop :=
  i = a.size ∨ j = b.size ∨ ∃ (hi : i < a.size) (hj : j < b.size), a[i] ≠ b[j]

namespace Bytes

theorem agreement_maximal {a b : Bytes} {i j n : Nat} (hi : i + n ≤ a.size)
    (hj : j + n ≤ b.size) :
    a.Stuck (i + agreement a i b j n) b (j + agreement a i b j n) := by
  fun_induction agreement a i b j n with
  | case1 n h heq ih => exact ih h.1 h.2
  | case2 n h hne => exact .inr (.inr ⟨h.1, h.2, hne⟩)
  | case3 n h =>
    by_cases hend : i + n = a.size
    · exact .inl hend
    · exact .inr (.inl (by omega))

/-- A common run ends where it cannot go on. -/
theorem commonPrefix_maximal {a b : Bytes} {i j : Nat} (hi : i ≤ a.size) (hj : j ≤ b.size) :
    a.Stuck (i + a.commonPrefix i b j) b (j + a.commonPrefix i b j) :=
  agreement_maximal hi hj

theorem agreement_extract (a : Bytes) (i : Nat) (b : Bytes) (j n : Nat) :
    agreement (a.extract i a.size) 0 (b.extract j b.size) 0 n = agreement a i b j n := by
  fun_induction agreement a i b j n with
  | case1 n h heq ih =>
    rw [agreement, dif_pos (by simp only [Array.size_extract]; omega), if_pos, ih]
    simpa only [Array.getElem_extract, Nat.zero_add] using heq
  | case2 n h hne =>
    rw [agreement, dif_pos (by simp only [Array.size_extract]; omega), if_neg]
    simpa only [Array.getElem_extract, Nat.zero_add] using hne
  | case3 n h =>
    rw [agreement, dif_neg]
    simp only [Array.size_extract]
    omega

/-- The common run from two places on is that of what stands from there on. -/
theorem commonPrefix_extract (a : Bytes) (i : Nat) (b : Bytes) (j : Nat) :
    commonPrefix (a.extract i a.size) 0 (b.extract j b.size) 0 = a.commonPrefix i b j :=
  agreement_extract a i b j 0

/-- The window at a place. There is none, a fault, unless there are as many bytes. -/
def window? (b : Bytes) (place : Nat) : Option UInt32 :=
  if place + windowWidth ≤ b.size then some (b.word32 place) else none

/-- Length of the run on which `a` from `i` on and `b` from `j` on agree, with both tails cut
out. -/
def commonRun? (a : Bytes) (i : Nat) (b : Bytes) (j : Nat) : Option Nat := do
  let front ← a.slice? i a.size
  let back ← b.slice? j b.size
  return front.commonPrefix 0 back 0

theorem commonRun?_eq {a b : Bytes} {i j : Nat} (hi : i ≤ a.size) (hj : j ≤ b.size) :
    a.commonRun? i b j = some (a.commonPrefix i b j) := by
  simp only [commonRun?, slice?, hi, hj, Nat.le_refl, and_self, if_true, Option.bind_eq_bind,
    Option.bind_some, Option.pure_def, commonPrefix_extract]

end Bytes

namespace Diff

/-! ## Steps with their numbers in full -/

/-- A step whose numbers have no bound. -/
inductive Piece where
  /-- Append `length` bytes of the base from `offset` on. -/
  | copy (offset length : Nat)
  /-- Append these bytes. -/
  | insert (bytes : Bytes)
  deriving DecidableEq, Repr

namespace Piece

/-- The step that is written, its numbers in 32 bits. -/
def narrow : Piece → Op
  | copy offset length => .copy (.ofNat offset) (.ofNat length)
  | insert bytes => .insert bytes

/-- The step that was written, its numbers as they are. -/
def ofOp : Op → Piece
  | .copy offset length => copy offset.toNat length.toNat
  | .insert bytes => insert bytes

def isInsert : Piece → Bool
  | copy .. => false
  | insert _ => true

/-- A step that the walk may write: an insert that is not empty, or a copy from inside the base
that is long enough. -/
def Admissible (minMatch : Nat) (base : Bytes) : Piece → Prop
  | copy offset length => offset + length ≤ base.size ∧ minMatch ≤ length
  | insert bytes => bytes ≠ #[]

/-- What a step appends. -/
def output (base : Bytes) : Piece → Bytes
  | copy offset length => base.extract offset (offset + length)
  | insert bytes => bytes

/-- What steps append one behind the other. -/
def outputAll (base : Bytes) : List Piece → Bytes
  | [] => #[]
  | piece :: pieces => piece.output base ++ outputAll base pieces

theorem outputAll_append (base : Bytes) (front back : List Piece) :
    outputAll base (front ++ back) = outputAll base front ++ outputAll base back := by
  induction front with
  | nil => simp only [List.nil_append, outputAll, Array.empty_append]
  | cons piece front ih => simp only [List.cons_append, outputAll, ih, Array.append_assoc]

@[simp] theorem outputAll_singleton (base : Bytes) (piece : Piece) :
    outputAll base [piece] = piece.output base := by
  simp only [outputAll, Array.append_empty]

/-- A copy whose output begins at `pos` goes on as far as it can: it ends at the end of the base,
at the end of the target, or before bytes that differ. -/
def Maximal (base target : Bytes) (pos : Nat) : Piece → Prop
  | copy offset length => base.Stuck (offset + length) target (pos + length)
  | insert _ => True

/-- Every copy goes on as far as it can, in steps whose output begins at `pos`. -/
def AllMaximal (base target : Bytes) : (pos : Nat) → List Piece → Prop
  | _, [] => True
  | pos, piece :: pieces => piece.Maximal base target pos ∧
    AllMaximal base target (pos + (piece.output base).size) pieces

theorem allMaximal_concat {base target : Bytes} {pos : Nat} {pieces : List Piece} {last : Piece} :
    AllMaximal base target pos (pieces ++ [last]) ↔ AllMaximal base target pos pieces ∧
      last.Maximal base target (pos + (outputAll base pieces).size) := by
  induction pieces generalizing pos with
  | nil => simp [AllMaximal, outputAll]
  | cons piece pieces ih =>
    simp only [List.cons_append, AllMaximal, outputAll, Array.size_append, ih, and_assoc,
      Nat.add_assoc]

end Piece

/-- Steps as the walk may write them: each is admissible, no insert follows another, and every
copy goes on as far as it can. -/
structure Canonical (minMatch : Nat) (base target : Bytes) (pieces : List Piece) : Prop where
  admissible : ∀ piece ∈ pieces, piece.Admissible minMatch base
  inserts_apart : pieces.IsChain fun first second => first.isInsert → ¬ second.isInsert
  maximal : Piece.AllMaximal base target 0 pieces

/-- Steps that the walk may write and that rebuild the target. -/
structure ExactCover (minMatch : Nat) (base target : Bytes) (pieces : List Piece) : Prop
    extends Canonical minMatch base target pieces where
  rebuilds : Piece.outputAll base pieces = target

/-- An insert is the last step. -/
def Open (pieces : List Piece) : Prop :=
  ∃ front bytes, pieces = front ++ [.insert bytes]

section Canonical

variable {minMatch : Nat} {base target : Bytes} {pieces : List Piece}

theorem Canonical.nil : Canonical minMatch base target [] where
  admissible := by simp
  inserts_apart := .nil
  maximal := trivial

/-- One more step that is admissible. -/
theorem Canonical.admissible_concat (h : Canonical minMatch base target pieces) {last : Piece}
    (hlast : last.Admissible minMatch base) :
    ∀ piece ∈ pieces ++ [last], piece.Admissible minMatch base := by
  intro piece hpiece
  rcases List.mem_append.mp hpiece with hold | hnew
  · exact h.admissible piece hold
  · rw [List.mem_singleton.mp hnew]
    exact hlast

/-- An insert may be written behind a copy and at the beginning. -/
theorem Canonical.insert (h : Canonical minMatch base target pieces) (hclosed : ¬ Open pieces)
    {bytes : Bytes} (hbytes : bytes ≠ #[]) :
    Canonical minMatch base target (pieces ++ [.insert bytes]) where
  admissible := h.admissible_concat hbytes
  inserts_apart := by
    refine List.isChain_append.mpr ⟨h.inserts_apart, .singleton _, ?_⟩
    intro first hfirst second _ hinsert
    cases first with
    | copy => simp [Piece.isInsert] at hinsert
    | insert before =>
      obtain ⟨front, rfl⟩ := List.getLast?_eq_some_iff.mp hfirst
      exact absurd ⟨front, before, rfl⟩ hclosed
  maximal := Piece.allMaximal_concat.mpr ⟨h.maximal, trivial⟩

/-- A repeated run that cannot go on may be copied. -/
theorem Canonical.copy (h : Canonical minMatch base target pieces) {offset length : Nat}
    (hinside : offset + length ≤ base.size) (hlong : minMatch ≤ length)
    (hstuck : base.Stuck (offset + length) target
      ((Piece.outputAll base pieces).size + length)) :
    Canonical minMatch base target (pieces ++ [.copy offset length]) where
  admissible := h.admissible_concat ⟨hinside, hlong⟩
  inserts_apart := by
    refine List.isChain_append.mpr ⟨h.inserts_apart, .singleton _, ?_⟩
    intro first _ second hsecond _
    obtain rfl : second = .copy offset length := by simpa using hsecond.symm
    exact Bool.false_ne_true
  maximal := by
    refine Piece.allMaximal_concat.mpr ⟨h.maximal, ?_⟩
    rw [Nat.zero_add]
    exact hstuck

end Canonical

/-! ## The loop, access by access -/

/-- The index of a base, each window as an access. -/
def index? (base : Bytes) : Option WindowIndex :=
  (List.range (base.size + 1 - windowWidth)).foldlM
    (fun index place => (base.window? place).map fun window => index.insertIfNew window place) ∅

/-- The run at a place of the base, if it is long enough. -/
def matchAt? (minMatch : Nat) (base target : Bytes) (place pos : Nat) : Option (Option Run) :=
  (base.commonRun? place target pos).map fun length =>
    if minMatch ≤ length then some ⟨place, length⟩ else none

/-- The run at the place that lines up with the last copy, tried only if the place is inside. -/
def lined? (minMatch : Nat) (base target : Bytes) (aligned pos : Nat) : Option (Option Run) :=
  if aligned < base.size then matchAt? minMatch base target aligned pos else some none

/-- The run at the first place of the window, which is taken to be inside. -/
def indexed? (minMatch : Nat) (base target : Bytes) (index : WindowIndex) (pos : Nat) :
    Option (Option Run) := do
  match index[← target.window? pos]? with
  | some place => matchAt? minMatch base target place pos
  | none => return none

/-- The run to copy at a position; the index is consulted only if no run lines up. -/
def found? (minMatch : Nat) (base target : Bytes) (index : WindowIndex) (aligned pos : Nat) :
    Option (Option Run) := do
  match ← lined? minMatch base target aligned pos with
  | some run => return some run
  | none => indexed? minMatch base target index pos

/-- The literal between two positions; nothing, and no access, if it would be empty. -/
def pending? (target : Bytes) (start stop : Nat) : Option (List Piece) :=
  if start < stop then (target.slice? start stop).map fun bytes => [.insert bytes] else some []

/-- How far a position is behind another; a fault if it is before it. -/
def distance? (start pos : Nat) : Option Nat :=
  if start ≤ pos then some (pos - start) else none

/-- What the loop carries from round to round. -/
structure Loop where
  /-- The position in the target. -/
  pos : Nat
  /-- From here on the target is not yet written. -/
  start : Nat
  /-- The place of the base that lines up with `start`. -/
  cursor : Nat
  /-- The steps written so far. -/
  pieces : List Piece
  deriving DecidableEq, Repr

namespace Loop

/-- Before the first round. -/
def first : Loop := ⟨0, 0, 0, []⟩

/-- One round: the loop goes on, or it is over with these steps; or an access faults. -/
def round? (minMatch : Nat) (base target : Bytes) (index : WindowIndex) (s : Loop) :
    Option (Loop ⊕ List Piece) :=
  if s.pos + windowWidth ≤ target.size then do
    let gap ← distance? s.start s.pos
    match ← found? minMatch base target index (s.cursor + gap) s.pos with
    | some run =>
      let literal ← pending? target s.start s.pos
      return .inl ⟨s.pos + run.length, s.pos + run.length, run.offset + run.length,
        s.pieces ++ literal ++ [.copy run.offset run.length]⟩
    | none => return .inl { s with pos := s.pos + 1 }
  else do
    let literal ← pending? target s.start target.size
    return .inr (s.pieces ++ literal)

/-- The loop from a state on: the states that it is in between the rounds, and the steps that it
is over with. It has no bound of its own and does not fault. -/
inductive Runs (minMatch : Nat) (base target : Bytes) (index : WindowIndex) :
    Loop → List Loop → List Piece → Prop
  | over {s : Loop} {pieces : List Piece}
      (h : s.round? minMatch base target index = some (.inr pieces)) :
      Runs minMatch base target index s [s] pieces
  | next {s t : Loop} {states : List Loop} {pieces : List Piece}
      (h : s.round? minMatch base target index = some (.inl t))
      (rest : Runs minMatch base target index t states pieces) :
      Runs minMatch base target index s (s :: states) pieces

end Loop

/-- The greedy steps as the loop comes to them without a fault. There is no loop if the base or
the target is shorter than a window. -/
inductive Finds (minMatch : Nat) (base target : Bytes) : List Loop → List Piece → Prop
  | short {pieces : List Piece} (h : base.size < windowWidth ∨ target.size < windowWidth)
      (literal : pending? target 0 target.size = some pieces) :
      Finds minMatch base target [] pieces
  | walked {index : WindowIndex} {states : List Loop} {pieces : List Piece}
      (h : ¬ (base.size < windowWidth ∨ target.size < windowWidth))
      (built : index? base = some index)
      (run : Loop.first.Runs minMatch base target index states pieces) :
      Finds minMatch base target states pieces

/-! ## No access faults -/

section Accesses

variable {base target : Bytes} {index : WindowIndex} {minMatch : Nat}

/-- Every place in the index has a whole window of the base behind it. -/
def Inside (base : Bytes) (index : WindowIndex) : Prop :=
  ∀ (window : UInt32) (place : Nat), index[window]? = some place →
    place + windowWidth ≤ base.size

theorem Inside.insertIfNew (h : Inside base index) {place : Nat}
    (hplace : place + windowWidth ≤ base.size) (window : UInt32) :
    Inside base (index.insertIfNew window place) := by
  intro other found hfound
  rw [Std.HashMap.getElem?_insertIfNew] at hfound
  split at hfound
  · cases hfound
    exact hplace
  · exact h other found hfound

/-- Entering places that have a window behind them. -/
theorem foldl_index_inside (places : List Nat)
    (hplaces : ∀ place ∈ places, place + windowWidth ≤ base.size) (h : Inside base index) :
    Inside base (places.foldl
      (fun index place => index.insertIfNew (base.word32 place) place) index) := by
  induction places generalizing index with
  | nil => exact h
  | cons place places ih =>
    exact ih (fun other hother => hplaces other (List.mem_cons_of_mem _ hother))
      (h.insertIfNew (hplaces place List.mem_cons_self) _)

theorem windowed_of_mem_range {place : Nat}
    (h : place ∈ List.range (base.size + 1 - windowWidth)) :
    place + windowWidth ≤ base.size := by
  rw [List.mem_range] at h
  omega

theorem windowIndex_inside (base : Bytes) : Inside base (windowIndex base) :=
  foldl_index_inside _ (fun _ => windowed_of_mem_range) fun window place h => by
    simp at h

theorem foldlM_index (places : List Nat)
    (hplaces : ∀ place ∈ places, place + windowWidth ≤ base.size) (index : WindowIndex) :
    places.foldlM (fun index place =>
        (base.window? place).map fun window => index.insertIfNew window place) index =
      some (places.foldl
        (fun index place => index.insertIfNew (base.word32 place) place) index) := by
  induction places generalizing index with
  | nil => rfl
  | cons place places ih =>
    have hwindow : base.window? place = some (base.word32 place) :=
      if_pos (hplaces place List.mem_cons_self)
    rw [List.foldlM_cons, hwindow]
    exact ih (fun other hother => hplaces other (List.mem_cons_of_mem _ hother)) _

/-- Building the index does not fault. -/
theorem index?_eq (base : Bytes) : index? base = some (windowIndex base) :=
  foldlM_index _ (fun _ => windowed_of_mem_range) ∅

theorem matchAt?_eq {place pos : Nat} (hplace : place < base.size) (hpos : pos ≤ target.size) :
    matchAt? minMatch base target place pos = some (runAt? minMatch base target place pos) := by
  simp only [matchAt?, Bytes.commonRun?_eq (Nat.le_of_lt hplace) hpos, Option.map_some, runAt?,
    hplace, true_and]

theorem lined?_eq (aligned : Nat) {pos : Nat} (hpos : pos ≤ target.size) :
    lined? minMatch base target aligned pos = some (runAt? minMatch base target aligned pos) := by
  unfold lined?
  split
  · rename_i haligned
    exact matchAt?_eq haligned hpos
  · rename_i haligned
    have houtside : runAt? minMatch base target aligned pos = none := if_neg fun h => haligned h.1
    rw [houtside]

theorem indexed?_eq (hinside : Inside base index) {pos : Nat}
    (hroom : pos + windowWidth ≤ target.size) :
    indexed? minMatch base target index pos =
      some (index[target.word32 pos]?.bind fun place => runAt? minMatch base target place pos) := by
  have hwindow : target.window? pos = some (target.word32 pos) := if_pos hroom
  simp only [indexed?, hwindow, Option.bind_eq_bind, Option.bind_some]
  cases hfound : index[target.word32 pos]? with
  | none => rfl
  | some place =>
    have hplace : place < base.size := by
      have := hinside _ _ hfound
      simp only [windowWidth] at this
      omega
    exact matchAt?_eq hplace (Nat.le_trans (Nat.le_add_right _ _) hroom)

/-- Looking for a run does not fault where there is a window. -/
theorem found?_eq (hinside : Inside base index) (aligned : Nat) {pos : Nat}
    (hroom : pos + windowWidth ≤ target.size) :
    found? minMatch base target index aligned pos =
      some (run? minMatch base target index aligned pos) := by
  rw [found?, lined?_eq aligned (Nat.le_trans (Nat.le_add_right _ _) hroom), run?]
  simp only [Option.bind_eq_bind, Option.bind_some]
  cases runAt? minMatch base target aligned pos with
  | some run => rfl
  | none => exact indexed?_eq hinside hroom

/-- The literal between two positions of the target. -/
def literalPieces (target : Bytes) (start stop : Nat) : List Piece :=
  if start < stop then [.insert (target.extract start stop)] else []

theorem pending?_eq {start stop : Nat} (hstop : stop ≤ target.size) :
    pending? target start stop = some (literalPieces target start stop) := by
  unfold pending? literalPieces
  split
  · rename_i hlt
    have hslice : target.slice? start stop = some (target.extract start stop) :=
      if_pos ⟨Nat.le_of_lt hlt, hstop⟩
    rw [hslice]
    rfl
  · rfl

theorem map_narrow_literalPieces (target : Bytes) (start stop : Nat) :
    (literalPieces target start stop).map Piece.narrow = between target start stop := by
  unfold literalPieces between
  split <;> rfl

theorem outputAll_literalPieces (base target : Bytes) (start stop : Nat) :
    Piece.outputAll base (literalPieces target start stop) = target.extract start stop := by
  unfold literalPieces
  split
  · exact Piece.outputAll_singleton ..
  · rename_i hlt
    exact (Array.extract_empty_of_stop_le_start (Nat.le_of_not_lt hlt)).symm

end Accesses

/-- A run that was found cannot go on. -/
theorem stuck_of_runAt? {minMatch : Nat} {base target : Bytes} {place pos : Nat} {run : Run}
    (h : runAt? minMatch base target place pos = some run) (hpos : pos ≤ target.size) :
    base.Stuck (run.offset + run.length) target (pos + run.length) := by
  simp only [runAt?, Option.ite_none_right_eq_some, Option.some.injEq] at h
  obtain ⟨⟨hplace, -⟩, rfl⟩ := h
  exact Bytes.commonPrefix_maximal (Nat.le_of_lt hplace) hpos

theorem stuck_of_run? {minMatch : Nat} {base target : Bytes} {index : WindowIndex}
    {aligned pos : Nat} {run : Run} (h : run? minMatch base target index aligned pos = some run)
    (hpos : pos ≤ target.size) :
    base.Stuck (run.offset + run.length) target (pos + run.length) := by
  rcases Option.or_eq_some_iff.mp h with h | ⟨-, h⟩
  · exact stuck_of_runAt? h hpos
  · obtain ⟨place, -, h⟩ := Option.bind_eq_some_iff.mp h
    exact stuck_of_runAt? h hpos

/-! ## What a round keeps -/

namespace Loop

/-- What holds between two rounds. -/
structure Sound (minMatch : Nat) (base target : Bytes) (s : Loop) : Prop where
  start_le : s.start ≤ s.pos
  pos_le : s.pos ≤ target.size
  cursor_le : s.cursor ≤ base.size
  canonical : Canonical minMatch base target s.pieces
  closed : ¬ Open s.pieces
  rebuilds : Piece.outputAll base s.pieces = target.extract 0 s.start

/-- The run that lines up with the open literal, or else that of the index. -/
def pick? (minMatch : Nat) (base target : Bytes) (index : WindowIndex) (s : Loop) : Option Run :=
  run? minMatch base target index (s.cursor + (s.pos - s.start)) s.pos

/-- The loop after a run has been copied. -/
def copied (target : Bytes) (s : Loop) (run : Run) : Loop where
  pos := s.pos + run.length
  start := s.pos + run.length
  cursor := run.offset + run.length
  pieces := s.pieces ++ literalPieces target s.start s.pos ++ [.copy run.offset run.length]

/-- The loop after a byte has been left to the open literal. -/
def skipped (s : Loop) : Loop := { s with pos := s.pos + 1 }

/-- The steps when no window is left. -/
def closedOff (target : Bytes) (s : Loop) : List Piece :=
  s.pieces ++ literalPieces target s.start target.size

section Sound

variable {minMatch : Nat} {base target : Bytes} {index : WindowIndex} {s : Loop}

theorem Sound.first : first.Sound minMatch base target where
  start_le := Nat.le_refl _
  pos_le := Nat.zero_le _
  cursor_le := Nat.zero_le _
  canonical := .nil
  closed := by
    rintro ⟨front, bytes, h⟩
    simp [Loop.first] at h
  rebuilds := by
    simp only [Loop.first, Piece.outputAll, Array.extract_zero]

/-- Writing the open literal. -/
theorem Sound.literal (h : s.Sound minMatch base target) {stop : Nat} (hstart : s.start ≤ stop)
    (hstop : stop ≤ target.size) :
    Canonical minMatch base target (s.pieces ++ literalPieces target s.start stop) ∧
      Piece.outputAll base (s.pieces ++ literalPieces target s.start stop) =
        target.extract 0 stop := by
  constructor
  · unfold literalPieces
    split
    · rename_i hlt
      refine h.canonical.insert h.closed fun hempty => ?_
      have hsize := congrArg Array.size hempty
      simp only [Array.size_extract, List.size_toArray, List.length_nil] at hsize
      omega
    · rw [List.append_nil]
      exact h.canonical
  · rw [Piece.outputAll_append, h.rebuilds, outputAll_literalPieces,
      Bytes.extract_append_extract_of_le target (Nat.zero_le _) hstart]

/-- Copying the run that was picked. -/
theorem Sound.copied (h : s.Sound minMatch base target) {run : Run}
    (hrun : s.pick? minMatch base target index = some run) :
    (s.copied target run).Sound minMatch base target := by
  have hrepeats := repeats_of_run? hrun h.pos_le
  obtain ⟨hcanonical, hrebuilds⟩ := h.literal h.start_le h.pos_le
  -- the copy stands where the literal ends
  have hplace : (Piece.outputAll base (s.pieces ++ literalPieces target s.start s.pos)).size =
      s.pos := by
    rw [hrebuilds, Array.size_extract, Nat.min_eq_left h.pos_le, Nat.sub_zero]
  exact {
    start_le := Nat.le_refl _
    pos_le := hrepeats.right_le
    cursor_le := hrepeats.left_le
    canonical := by
      refine hcanonical.copy hrepeats.left_le (minMatch_le_of_run? hrun) ?_
      rw [hplace]
      exact stuck_of_run? hrun h.pos_le
    closed := by
      rintro ⟨front, bytes, hopen⟩
      obtain ⟨-, hlast⟩ := List.append_inj' hopen rfl
      cases hlast
    rebuilds := by
      show Piece.outputAll base (_ ++ [_]) = target.extract 0 (s.pos + run.length)
      rw [Piece.outputAll_append, hrebuilds, Piece.outputAll_singleton, Piece.output, hrepeats.eq,
        Bytes.extract_append_extract_of_le target (Nat.zero_le _) (Nat.le_add_right _ _)] }

theorem Sound.skipped (h : s.Sound minMatch base target)
    (hroom : s.pos + windowWidth ≤ target.size) : s.skipped.Sound minMatch base target where
  start_le := Nat.le_succ_of_le h.start_le
  pos_le := by
    simp only [windowWidth] at hroom
    simp only [Loop.skipped]
    omega
  cursor_le := h.cursor_le
  canonical := h.canonical
  closed := h.closed
  rebuilds := h.rebuilds

/-- Writing the last literal. -/
theorem Sound.closedOff (h : s.Sound minMatch base target) :
    ExactCover minMatch base target (s.closedOff target) := by
  obtain ⟨hcanonical, hrebuilds⟩ :=
    h.literal (Nat.le_trans h.start_le h.pos_le) (Nat.le_refl target.size)
  rw [Array.extract_size] at hrebuilds
  exact ⟨hcanonical, hrebuilds⟩

/-! ## What a round comes to -/

theorem round?_copied (h : s.Sound minMatch base target) (hinside : Inside base index)
    (hroom : s.pos + windowWidth ≤ target.size) {run : Run}
    (hrun : s.pick? minMatch base target index = some run) :
    s.round? minMatch base target index = some (.inl (s.copied target run)) := by
  have hgap : distance? s.start s.pos = some (s.pos - s.start) := if_pos h.start_le
  rw [round?, if_pos hroom, hgap]
  simp only [Option.bind_eq_bind, Option.bind_some, found?_eq hinside _ hroom]
  rw [pick?] at hrun
  simp only [hrun, pending?_eq h.pos_le, Option.bind_some]
  rfl

theorem round?_skipped (h : s.Sound minMatch base target) (hinside : Inside base index)
    (hroom : s.pos + windowWidth ≤ target.size)
    (hnone : s.pick? minMatch base target index = none) :
    s.round? minMatch base target index = some (.inl s.skipped) := by
  have hgap : distance? s.start s.pos = some (s.pos - s.start) := if_pos h.start_le
  rw [round?, if_pos hroom, hgap]
  simp only [Option.bind_eq_bind, Option.bind_some, found?_eq hinside _ hroom]
  rw [pick?] at hnone
  simp only [hnone]
  rfl

theorem round?_over (hend : ¬ s.pos + windowWidth ≤ target.size) :
    s.round? minMatch base target index = some (.inr (s.closedOff target)) := by
  rw [round?, if_neg hend, pending?_eq (Nat.le_refl _)]
  rfl

end Sound

section Rounds

variable (coder : DiffCoder) {base target : Bytes} {index : WindowIndex} {s : Loop}

/-- The steps that the walk has written when it is over, from a state of the loop on. -/
def walked (coder : DiffCoder) (base target : Bytes) (index : WindowIndex) (s : Loop) : List Op :=
  (walk coder base target index s.pos s.start s.cursor (s.pieces.map Piece.narrow).reverse).reverse

theorem walked_copied (hroom : s.pos + windowWidth ≤ target.size) {run : Run}
    (hrun : s.pick? coder.minMatch base target index = some run) :
    s.walked coder base target index = (s.copied target run).walked coder base target index := by
  rw [pick?] at hrun
  rw [walked, walk, if_pos hroom]
  split
  · rename_i other hother
    obtain rfl : other = run := Option.some.inj (hother.symm.trans hrun)
    simp only [walked, copied, List.map_append, List.reverse_append, map_narrow_literalPieces,
      reverse_between, List.map_cons, List.map_nil, List.reverse_singleton, List.singleton_append,
      Piece.narrow]
  · rename_i hnone
    rw [hrun] at hnone
    cases hnone

theorem walked_skipped (hroom : s.pos + windowWidth ≤ target.size)
    (hnone : s.pick? coder.minMatch base target index = none) :
    s.walked coder base target index = s.skipped.walked coder base target index := by
  rw [pick?] at hnone
  rw [walked, walk, if_pos hroom]
  split
  · rename_i run hrun
    rw [hnone] at hrun
    cases hrun
  · rfl

theorem walked_over (hend : ¬ s.pos + windowWidth ≤ target.size) :
    s.walked coder base target index = (s.closedOff target).map Piece.narrow := by
  rw [walked, walk, if_neg hend, List.reverse_append, List.reverse_reverse, reverse_between,
    closedOff, List.map_append, map_narrow_literalPieces]

/-- A round does not fault. It goes on to a state of the same walk that is further along, or it
ends the walk with an exact cover. -/
theorem round?_spec (h : s.Sound coder.minMatch base target) (hinside : Inside base index) :
    (∃ t, s.round? coder.minMatch base target index = some (.inl t) ∧
      t.Sound coder.minMatch base target ∧ s.pos < t.pos ∧
      s.walked coder base target index = t.walked coder base target index) ∨
    ∃ pieces, s.round? coder.minMatch base target index = some (.inr pieces) ∧
      ExactCover coder.minMatch base target pieces ∧
      s.walked coder base target index = pieces.map Piece.narrow := by
  by_cases hroom : s.pos + windowWidth ≤ target.size
  · left
    cases hpick : s.pick? coder.minMatch base target index with
    | some run =>
      have hlong : 0 < run.length := by
        have := coder.windowWidth_le
        have := minMatch_le_of_run? hpick
        simp only [windowWidth] at *
        omega
      exact ⟨_, round?_copied h hinside hroom hpick, h.copied hpick,
        Nat.lt_add_of_pos_right hlong, walked_copied coder hroom hpick⟩
    | none =>
      exact ⟨_, round?_skipped h hinside hroom hpick, h.skipped hroom, Nat.lt_succ_self _,
        walked_skipped coder hroom hpick⟩
  · exact .inr ⟨_, round?_over hroom, h.closedOff, walked_over coder hroom⟩

/-- From a sound state on the loop is over after finitely many rounds, all of them sound. Every
round moves the position on, which stays in the target. -/
theorem Sound.runs (h : s.Sound coder.minMatch base target) (hinside : Inside base index) :
    ∃ states pieces, s.Runs coder.minMatch base target index states pieces ∧
      (∀ t ∈ states, t.Sound coder.minMatch base target) ∧
      states.length + s.pos ≤ target.size + 1 ∧
      ExactCover coder.minMatch base target pieces ∧
      s.walked coder base target index = pieces.map Piece.narrow := by
  induction hleft : target.size - s.pos using Nat.strongRecOn generalizing s with
  | ind left ih =>
    have hpos := h.pos_le
    rcases round?_spec coder h hinside with
      ⟨t, hround, ht, hlt, hwalked⟩ | ⟨pieces, hround, hcover, hwalked⟩
    · have htpos := ht.pos_le
      obtain ⟨states, pieces, hruns, hsound, hlength, hcover, hrest⟩ :=
        ih (target.size - t.pos) (by omega) ht rfl
      refine ⟨s :: states, pieces, .next hround hruns, ?_, ?_, hcover, hwalked.trans hrest⟩
      · intro u hu
        rcases List.mem_cons.mp hu with rfl | hu
        · exact h
        · exact hsound u hu
      · rw [List.length_cons]
        omega
    · refine ⟨[s], pieces, .over hround, ?_, ?_, hcover, hwalked⟩
      · intro u hu
        obtain rfl := List.mem_singleton.mp hu
        exact h
      · rw [List.length_singleton]
        omega

end Rounds

end Loop

/-! ## The whole walk -/

theorem map_narrow_literalPieces_all (target : Bytes) :
    (literalPieces target 0 target.size).map Piece.narrow = literal target := by
  rw [map_narrow_literalPieces, between, literal, Array.extract_size]
  by_cases hempty : target.isEmpty
  · rw [if_pos hempty, if_neg (by simp_all)]
  · rw [if_neg hempty, if_pos (by simp_all [Array.size_pos_iff])]

/-- The loop finds the greedy steps, through sound states only. -/
theorem greedy_found (coder : DiffCoder) (base target : Bytes) :
    ∃ states pieces, Finds coder.minMatch base target states pieces ∧
      (∀ s ∈ states, s.Sound coder.minMatch base target) ∧
      states.length ≤ target.size + 1 ∧
      ExactCover coder.minMatch base target pieces ∧
      greedy coder base target = pieces.map Piece.narrow := by
  by_cases hshort : base.size < windowWidth ∨ target.size < windowWidth
  · refine ⟨[], _, .short hshort (pending?_eq (Nat.le_refl _)), by simp, Nat.zero_le _,
      Loop.Sound.first.closedOff, ?_⟩
    rw [greedy, if_pos hshort, map_narrow_literalPieces_all]
  · have hfirst : Loop.first.Sound coder.minMatch base target := .first
    obtain ⟨states, pieces, hruns, hsound, hlength, hcover, hwalked⟩ :=
      hfirst.runs coder (windowIndex_inside base)
    refine ⟨states, pieces, .walked hshort (index?_eq base) hruns, hsound, hlength, hcover, ?_⟩
    rw [greedy, if_neg hshort]
    exact hwalked

/-- Numbers that lie inside a base of admissible length are written as they are. -/
theorem ExactCover.map_ofOp {minMatch : Nat} {base target : Bytes} {pieces : List Piece}
    (h : ExactCover minMatch base target pieces) (hbase : base.size < lengthLimit) :
    (pieces.map Piece.narrow).map Piece.ofOp = pieces := by
  rw [List.map_map]
  refine (List.map_congr_left fun piece hpiece => ?_).trans (List.map_id pieces)
  cases piece with
  | insert bytes => rfl
  | copy offset length =>
    obtain ⟨hinside, -⟩ : offset + length ≤ base.size ∧ minMatch ≤ length :=
      h.admissible _ hpiece
    have hlimit : lengthLimit = UInt32.size := rfl
    simp only [Function.comp_apply, Piece.narrow, Piece.ofOp, id_eq,
      UInt32.toNat_ofNat_of_lt' (show offset < UInt32.size by omega),
      UInt32.toNat_ofNat_of_lt' (show length < UInt32.size by omega)]

/-- The greedy walk is over, without a fault, after finitely many rounds, in all of which the
cursor stays in the base, and what it has written is an exact cover of the target. The codec
writes these steps. On a base of admissible length it loses nothing of their numbers and they
rebuild the target; on a longer one it writes none. -/
theorem greedy_exact (coder : DiffCoder) (base target : Bytes) :
    ∃ states pieces, Finds coder.minMatch base target states pieces ∧
      (∀ s ∈ states, s.cursor ≤ base.size) ∧
      states.length ≤ target.size + 1 ∧
      ExactCover coder.minMatch base target pieces ∧
      greedy coder base target = pieces.map Piece.narrow ∧
      (base.size < lengthLimit →
        (greedy coder base target).map Piece.ofOp = pieces ∧
        Op.applyAll base #[] (greedy coder base target) = .ok target) ∧
      (lengthLimit ≤ base.size → ∀ tag extraPass,
        coder.encode tag base target extraPass = .refused) := by
  obtain ⟨states, pieces, hfinds, hsound, hlength, hcover, hgreedy⟩ :=
    greedy_found coder base target
  refine ⟨states, pieces, hfinds, fun s hs => (hsound s hs).cursor_le, hlength, hcover, hgreedy,
    fun hbase => ⟨?_, ?_⟩, fun hbase tag extraPass => ?_⟩
  · rw [hgreedy]
    exact hcover.map_ofOp hbase
  · have hcovers := greedy_covers coder target hbase
    rwa [Covers, Array.extract_size] at hcovers
  · exact if_neg fun h => Nat.not_lt.mpr hbase h.2

/-- A target of nine bytes that differs from its base in the fifth. -/
theorem greedy_exact_changed_byte :
    (#[1, 2, 3, 4, 5, 6, 7, 8, 9] : Bytes).size < lengthLimit ∧
      ∃ pieces, ExactCover 4 #[1, 2, 3, 4, 5, 6, 7, 8, 9] #[1, 2, 3, 4, 0, 6, 7, 8, 9] pieces ∧
        (greedy (.withMinMatch 4) #[1, 2, 3, 4, 5, 6, 7, 8, 9]
          #[1, 2, 3, 4, 0, 6, 7, 8, 9]).map Piece.ofOp = pieces ∧
        Op.applyAll #[1, 2, 3, 4, 5, 6, 7, 8, 9] #[] (greedy (.withMinMatch 4)
          #[1, 2, 3, 4, 5, 6, 7, 8, 9] #[1, 2, 3, 4, 0, 6, 7, 8, 9]) =
            .ok #[1, 2, 3, 4, 0, 6, 7, 8, 9] := by
  have hbase : (#[1, 2, 3, 4, 5, 6, 7, 8, 9] : Bytes).size < lengthLimit := by decide
  obtain ⟨_, pieces, -, -, -, hcover, -, hwritten, -⟩ :=
    greedy_exact (.withMinMatch 4) #[1, 2, 3, 4, 5, 6, 7, 8, 9] #[1, 2, 3, 4, 0, 6, 7, 8, 9]
  obtain ⟨hops, hout⟩ := hwritten hbase
  exact ⟨hbase, pieces, hcover, hops, hout⟩

end Diff

end VersionChain
