import Mathlib.Logic.Function.Basic
import VersionChain.Proofs.Cache.Allocator

/-!
# One writer and many readers

A group has one writer at a time and any number of readers, and all of them use the sequence
allocator. Each of its operations is one atomic step, and so is asking the rows; what others do
in between can make the allocator give the group up at any moment. A run is a list of such steps
in any order.

The number that the writer gets is never beyond the next one. It is the next one as long as no
reader brings an old number to a group that is not cached: nothing would tell the allocator then
that later numbers have been given out.

* `Race`, `Race.step` — who stands where, and one atomic step;
* `Race.Timely` — no reader brings an old number to a group that is not cached;
* `Race.Bounded.step`, `Race.Bounded.run` — one step, and a whole run;
* `Race.holds_next` — the number that the writer holds.
-/

namespace VersionChain

/-! ## Steps -/

/-- Where the writer of a group stands. -/
inductive Writer where
  | idle
  /-- The group was not cached. -/
  | missed
  /-- The rows gave this number as the largest. -/
  | informed (largest : Nat)
  /-- This number is for a row that is not stored yet. -/
  | holds (seq : Nat)
  deriving DecidableEq, Repr

/-- Where a reader of a group stands. -/
inductive Reader where
  | idle
  /-- The group was not cached. -/
  | missed
  /-- The rows gave this number as the largest. -/
  | informed (largest : Nat)
  deriving DecidableEq, Repr

/-- The allocator, the largest stored number of a group, and those who work on the group. -/
structure Race where
  allocator : SequenceAllocator
  stored : Nat
  writer : Writer := .idle
  reader : Nat → Reader := fun _ => .idle

/-- An atomic step around a group. -/
inductive Move (g : GroupId) where
  /-- The writer wants the next number. -/
  | next
  /-- The writer asks the rows. -/
  | ask
  /-- The writer wants the number after the one that the rows gave. -/
  | allocate
  /-- The writer stores the row. -/
  | store
  /-- The writer gives its number back. -/
  | rollback
  /-- A reader looks the group up. -/
  | look (reader : Nat)
  /-- A reader asks the rows. -/
  | inquire (reader : Nat)
  /-- A reader brings what the rows gave. -/
  | bring (reader : Nat)
  /-- A call for another group. -/
  | elsewhere (other : GroupId) (hother : other ≠ g) (call : AllocatorCall)
  /-- A table is forgotten. -/
  | forget (table : TableId)

namespace Race

variable {g : GroupId}

/-- One step. A step of someone whose turn is another one does nothing. -/
def step (σ : Race) : Move g → Race
  | .next =>
    match σ.writer with
    | .idle =>
      let (seq, allocator) := σ.allocator.next g
      { σ with allocator, writer := if seq = 0 then .missed else .holds seq }
    | _ => σ
  | .ask =>
    match σ.writer with
    | .missed => { σ with writer := .informed σ.stored }
    | _ => σ
  | .allocate =>
    match σ.writer with
    | .informed largest =>
      let (seq, allocator) := σ.allocator.allocateAfter g largest
      { σ with allocator, writer := .holds seq }
    | _ => σ
  | .store =>
    match σ.writer with
    | .holds seq => { σ with stored := max σ.stored seq, writer := .idle }
    | _ => σ
  | .rollback =>
    match σ.writer with
    | .holds seq => { σ with allocator := (σ.allocator.rollback g seq).2, writer := .idle }
    | _ => σ
  | .look i =>
    match σ.reader i with
    | .idle =>
      let (cached, allocator) := σ.allocator.get g
      let reader := if cached.isSome then .idle else .missed
      { σ with allocator, reader := Function.update σ.reader i reader }
    | _ => σ
  | .inquire i =>
    match σ.reader i with
    | .missed => { σ with reader := Function.update σ.reader i (.informed σ.stored) }
    | _ => σ
  | .bring i =>
    match σ.reader i with
    | .informed largest =>
      { σ with
        allocator := σ.allocator.raise g largest
        reader := Function.update σ.reader i .idle }
    | _ => σ
  | .elsewhere other _ call => { σ with allocator := σ.allocator.perform other call }
  | .forget table => { σ with allocator := (σ.allocator.invalidate table).2 }

/-- Nothing is cached, and nobody has begun. -/
def start (capacity stored : Nat) : Race := { allocator := .new capacity, stored }

/-- The steps one after the other. -/
def run (σ : Race) (moves : List (Move g)) : Race := moves.foldl step σ

/-- The largest number that has been given out. -/
def issued (σ : Race) : Nat :=
  match σ.writer with
  | .holds seq => max σ.stored seq
  | _ => σ.stored

/-- A reader that brings a number to a group that is not cached brings the largest one that has been
given out. -/
def TimelyMove (σ : Race) : Move g → Prop
  | .bring i => ∀ largest, σ.reader i = .informed largest →
      σ.allocator.map.contains g = false → largest = σ.issued
  | _ => True

/-- All steps are timely. -/
def Timely (σ : Race) : List (Move g) → Prop
  | [] => True
  | move :: rest => σ.TimelyMove move ∧ (σ.step move).Timely rest

/-! ## Numbers in a race -/

variable {σ : Race} {timely : Prop}

/-- A number that is not beyond another one and, if all was timely, is that one. -/
def Near (timely : Prop) (bound seq : Nat) : Prop := seq ≤ bound ∧ (timely → seq = bound)

/-- Nothing that is known of the group is beyond what has been given out, and if all was timely
nothing that is cached is behind it. -/
structure Bounded (timely : Prop) (g : GroupId) (σ : Race) : Prop where
  cached : σ.allocator.Caches g (Near timely σ.issued)
  holds : ∀ seq, σ.writer = .holds seq → Near timely (σ.stored + 1) seq
  informed : ∀ largest, σ.writer = .informed largest → largest = σ.stored
  reader : ∀ i largest, σ.reader i = .informed largest → largest ≤ σ.stored

theorem Near.imp {timely' : Prop} {bound seq : Nat} (h : Near timely bound seq)
    (htimely : timely' → timely) : Near timely' bound seq :=
  ⟨h.1, fun ht => h.2 (htimely ht)⟩

theorem Near.succ {bound seq : Nat} (h : Near timely bound seq) :
    Near timely (bound + 1) (seq + 1) :=
  ⟨Nat.succ_le_succ h.1, fun ht => congrArg (· + 1) (h.2 ht)⟩

theorem Near.max {bound seq largest : Nat} (h : Near timely bound seq) (hle : largest ≤ bound) :
    Near timely bound (max seq largest) :=
  ⟨Nat.max_le.mpr ⟨h.1, hle⟩, fun ht => by rw [h.2 ht]; exact Nat.max_eq_left hle⟩

theorem Bounded.imp {timely' : Prop} (h : Bounded timely g σ) (htimely : timely' → timely) :
    Bounded timely' g σ where
  cached := h.cached.imp fun _ hseq => hseq.imp htimely
  holds seq hseq := (h.holds seq hseq).imp htimely
  informed := h.informed
  reader := h.reader

theorem stored_le_issued (σ : Race) : σ.stored ≤ σ.issued := by
  unfold issued
  split <;> omega

theorem issued_of_holds {seq : Nat} (h : σ.writer = .holds seq) :
    σ.issued = max σ.stored seq := by
  unfold issued
  rw [h]

theorem issued_of_free (h : ∀ seq, σ.writer ≠ .holds seq) : σ.issued = σ.stored := by
  unfold issued
  split
  · rename_i seq hseq
    exact absurd hseq (h seq)
  · rfl

theorem Bounded.free (h : Bounded timely g σ) (hfree : ∀ seq, σ.writer ≠ .holds seq) :
    σ.allocator.Caches g (Near timely σ.stored) := by
  rw [← issued_of_free hfree]
  exact h.cached

section Make

variable {a : SequenceAllocator} {stored : Nat} {writer : Writer} {reader : Nat → Reader}
  (hreader : ∀ i largest, reader i = .informed largest → largest ≤ stored)

include hreader

/-- The writer has been given a number, which is cached as well if the group is. -/
theorem bounded_holding {seq : Nat} (hnear : Near timely (stored + 1) seq)
    (hcached : a.Caches g (· = seq)) : Bounded timely g ⟨a, stored, .holds seq, reader⟩ := by
  refine ⟨hcached.imp ?_, ?_, ?_, hreader⟩
  · rintro cached rfl
    refine ⟨Nat.le_max_right stored cached, fun ht => ?_⟩
    rw [hnear.2 ht]
    exact (Nat.max_eq_right (Nat.le_succ stored)).symm
  · rintro other ⟨⟩
    exact hnear
  · rintro largest ⟨⟩

/-- The writer holds no number. -/
theorem bounded_free (hfree : ∀ seq, writer ≠ .holds seq)
    (hinformed : ∀ largest, writer = .informed largest → largest = stored)
    (hcached : a.Caches g (Near timely stored)) :
    Bounded timely g ⟨a, stored, writer, reader⟩ := by
  refine ⟨?_, ?_, hinformed, hreader⟩
  · rw [issued_of_free hfree]
    exact hcached
  · exact fun seq hseq => absurd hseq (hfree seq)

end Make

/-- Readers may be somewhere else, as long as they know no number that is not stored. -/
theorem Bounded.with_reader (h : Bounded timely g σ) (i : Nat) {reader : Reader}
    (hreader : ∀ largest, reader = .informed largest → largest ≤ σ.stored)
    {a : SequenceAllocator} (ha : a.Caches g (Near timely σ.issued)) :
    Bounded timely g { σ with allocator := a, reader := Function.update σ.reader i reader } where
  cached := ha
  holds := h.holds
  informed := h.informed
  reader j largest hj := by
    have hj' : Function.update σ.reader i reader j = .informed largest := hj
    by_cases hji : j = i
    · rw [hji, Function.update_self] at hj'
      exact hreader largest hj'
    · rw [Function.update_of_ne hji] at hj'
      exact h.reader j largest hj'

/-! ## One step -/

/-- Taking the next number. -/
theorem Bounded.next (h : Bounded timely g σ) : Bounded timely g (σ.step (.next : Move g)) := by
  unfold step
  simp only
  split
  · rename_i hidle
    have hcached := h.free fun seq hseq => by
      rw [hidle] at hseq
      cases hseq
    rcases hcached.next with ⟨cached, hnear, hseq, hcached⟩ | ⟨hseq, hcached⟩
    · rw [hseq, if_neg (Nat.succ_ne_zero cached)]
      exact bounded_holding h.reader hnear.succ hcached
    · rw [hseq, if_pos rfl]
      exact bounded_free h.reader (by simp) (by simp) hcached
  · exact h

/-- Taking the number after the one that the rows gave: it is still the largest stored one. -/
theorem Bounded.allocate (h : Bounded timely g σ) :
    Bounded timely g (σ.step (.allocate : Move g)) := by
  unfold step
  simp only
  split
  · rename_i largest hinformed
    obtain rfl := h.informed largest hinformed
    have hcached := h.free fun seq hseq => by
      rw [hinformed] at hseq
      cases hseq
    obtain ⟨hseq, hafter⟩ := hcached.allocateAfter σ.stored
    refine bounded_holding h.reader ?_ hafter
    rcases hseq with hseq | ⟨cached, hnear, hseq⟩
    · rw [hseq]
      exact ⟨Nat.le_refl _, fun _ => rfl⟩
    · rw [hseq]
      exact (hnear.max (Nat.le_refl _)).succ
  · exact h

/-- Storing the row. -/
theorem Bounded.store (h : Bounded timely g σ) : Bounded timely g (σ.step (.store : Move g)) := by
  unfold step
  simp only
  split
  · rename_i seq hholds
    refine bounded_free (fun i largest hi => ?_) (by simp) (by simp) ?_
    · exact Nat.le_trans (h.reader i largest hi) (Nat.le_max_left _ _)
    · rw [← issued_of_holds hholds]
      exact h.cached
  · exact h

/-- Giving the number back. -/
theorem Bounded.rollback (h : Bounded timely g σ) :
    Bounded timely g (σ.step (.rollback : Move g)) := by
  unfold step
  simp only
  split
  · rename_i seq hholds
    obtain ⟨hle, heq⟩ := h.holds seq hholds
    have hcached := h.cached
    rw [issued_of_holds hholds] at hcached
    refine bounded_free h.reader (by simp) (by simp) (hcached.rollback fun cached hnear => ?_)
    -- what is cached is the number that goes back, or is not beyond what is stored
    obtain ⟨hbound, hexact⟩ := hnear
    refine ⟨?_, fun ht => ?_⟩
    · split <;> omega
    · have := heq ht
      have := hexact ht
      rw [if_pos (by omega)]
      omega
  · exact h

/-- Bringing a number that a reader got from the rows. -/
theorem Bounded.bring (h : Bounded timely g σ) (i : Nat) :
    Bounded (timely ∧ σ.TimelyMove (.bring i : Move g)) g (σ.step (.bring i : Move g)) := by
  unfold step
  simp only
  split
  · rename_i largest hinformed
    have hle : largest ≤ σ.issued := Nat.le_trans (h.reader i largest hinformed) σ.stored_le_issued
    refine (h.imp And.left).with_reader i (by simp)
      (h.cached.raise (fun cached hnear => ?_) fun hnone => ?_)
    · exact (hnear.max hle).imp And.left
    · exact ⟨hle, fun ht => ht.2 largest hinformed hnone⟩
  · exact h.imp And.left

/-- One step. If it is timely as well, all is. -/
theorem Bounded.step (h : Bounded timely g σ) (move : Move g) :
    Bounded (timely ∧ σ.TimelyMove move) g (σ.step move) := by
  cases move with
  | next => exact h.next.imp And.left
  | allocate => exact h.allocate.imp And.left
  | store => exact h.store.imp And.left
  | rollback => exact h.rollback.imp And.left
  | bring i => exact h.bring i
  | ask =>
    refine Bounded.imp ?_ And.left
    unfold Race.step
    simp only
    split
    · rename_i hmissed
      exact bounded_free h.reader (by simp) (by simp) (h.free (by simp [hmissed]))
    · exact h
  | look i =>
    refine Bounded.imp ?_ And.left
    unfold Race.step
    simp only
    split
    · refine h.with_reader i (fun largest hreader => ?_) h.cached.get
      split at hreader <;> cases hreader
    · exact h
  | inquire i =>
    refine Bounded.imp ?_ And.left
    unfold Race.step
    simp only
    split
    · refine h.with_reader i (fun largest hreader => ?_) h.cached
      cases hreader
      exact Nat.le_refl _
    · exact h
  | elsewhere other hother call =>
    exact ⟨(h.cached.perform hother call).imp fun _ hnear => hnear.imp And.left,
      (h.imp And.left).holds, h.informed, h.reader⟩
  | forget table =>
    exact ⟨(h.cached.invalidate table).imp fun _ hnear => hnear.imp And.left,
      (h.imp And.left).holds, h.informed, h.reader⟩

/-! ## Runs -/

theorem bounded_start (capacity stored : Nat) : Bounded True g (start capacity stored) :=
  bounded_free (by simp) (by simp) (by simp) (SequenceAllocator.caches_new capacity g _)

theorem Bounded.run (h : Bounded timely g σ) (moves : List (Move g)) :
    Bounded (timely ∧ σ.Timely moves) g (σ.run moves) := by
  induction moves generalizing σ timely with
  | nil => exact h.imp And.left
  | cons move rest ih =>
    refine (ih (h.step move)).imp fun ht => ?_
    exact ⟨⟨ht.1, ht.2.1⟩, ht.2.2⟩

/-- Whatever the capacity and the order of the steps, the number that the writer holds is not beyond
the one after the largest that is stored; and it is that one if no reader has brought an old number
to a group that was not cached. -/
theorem holds_next (g : GroupId) (capacity stored : Nat) (moves : List (Move g)) :
    let σ := (start capacity stored).run moves
    ∀ seq, σ.writer = .holds seq →
      seq ≤ σ.stored + 1 ∧ ((start capacity stored).Timely moves → seq = σ.stored + 1) := by
  intro σ seq hholds
  obtain ⟨hle, heq⟩ := ((bounded_start capacity stored).run moves).holds seq hholds
  exact ⟨hle, fun htimely => heq ⟨trivial, htimely⟩⟩

/-- Here the group was not cached when a reader brought its number, and no other number had been
given out in the meantime. -/
theorem holds_next_largest_brought :
    let g : GroupId := ⟨1, .zero⟩
    let evict : Move g := .elsewhere ⟨2, .zero⟩ (by decide) (.set 5)
    let moves : List (Move g) :=
      [.next, .ask, .allocate, .store, evict, .look 0, .inquire 0, .bring 0, .next]
    let σ := (start 1 0).run moves
    σ.writer = .holds 2 ∧ (start 1 0).Timely moves ∧ 2 ≤ σ.stored + 1 ∧ 2 = σ.stored + 1 := by
  intro g evict moves σ
  have hholds : σ.writer = .holds 2 := by decide +kernel
  have hreader : ((start 1 0).run [.next, .ask, .allocate, .store, evict, .look 0,
      .inquire 0]).reader 0 = .informed 1 := by decide +kernel
  have htimely : (start 1 0).Timely moves := by
    refine ⟨trivial, trivial, trivial, trivial, trivial, trivial, trivial, ?_, trivial, trivial⟩
    intro largest hlargest _
    obtain rfl : largest = 1 := by
      cases hlargest.symm.trans hreader
      rfl
    decide +kernel
  obtain ⟨hle, heq⟩ := holds_next g 1 0 moves 2 hholds
  exact ⟨hholds, htimely, hle, heq htimely⟩

/-- A reader brings the number 1 when 2 has been given out and stored, and the group is not cached
any more: the writer gets 2 once more. -/
theorem holds_stored_number :
    let g : GroupId := ⟨1, .zero⟩
    let evict : Move g := .elsewhere ⟨2, .zero⟩ (by decide) (.set 5)
    let σ := (start 1 0).run [.next, .ask, .allocate, .store, evict, .look 0, .inquire 0,
      .next, .ask, .allocate, .store, evict, .bring 0, .next]
    σ.writer = .holds 2 ∧ σ.stored = 2 := by
  decide +kernel

end Race

end VersionChain
