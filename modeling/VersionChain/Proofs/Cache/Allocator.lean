import VersionChain.Cache.Sequence
import VersionChain.Proofs.Cache.Contents

/-!
# What is cached for a group

The number that is cached for a group is changed by the calls for the group, each in its own way.
Calls for other groups may make the group go, and do nothing else to it.

* `Caches` — every number that is cached for a group has a property;
* `Caches.next`, `Caches.allocateAfter` — the number that is given out, and what is cached then;
* `Caches.perform` — calls for other groups.
-/

namespace VersionChain

open BoundedCache

/-- A call of the allocator for a group. -/
inductive AllocatorCall where
  | get
  | set (seq : Nat)
  | raise (seq : Nat)
  | allocateAfter (stored : Nat)
  | next
  | rollback (expected : Nat)
  deriving DecidableEq, Repr

namespace SequenceAllocator

/-- Carries out a call for a group. -/
def perform (a : SequenceAllocator) (g : GroupId) : AllocatorCall → SequenceAllocator
  | .get => (a.get g).2
  | .set seq => a.set g seq
  | .raise seq => a.raise g seq
  | .allocateAfter stored => (a.allocateAfter g stored).2
  | .next => (a.next g).2
  | .rollback expected => (a.rollback g expected).2

/-! ## The operations by their lookups -/

theorem next_eq (a : SequenceAllocator) (g : GroupId) :
    a.next g = (((a.map.update g (· + 1)).1.map (· + 1)).getD 0, ⟨(a.map.update g (· + 1)).2⟩) := by
  unfold next
  split
  all_goals
    rename_i heq
    rw [heq]
    rfl

theorem raise_eq (a : SequenceAllocator) (g : GroupId) (seq : Nat) :
    a.raise g seq = if (a.map.update g (max · seq)).1.isSome then ⟨(a.map.update g (max · seq)).2⟩
      else set ⟨(a.map.update g (max · seq)).2⟩ g seq := by
  unfold raise
  split
  all_goals
    rename_i heq
    rw [heq]
    rfl

theorem allocateAfter_eq (a : SequenceAllocator) (g : GroupId) (stored : Nat) :
    a.allocateAfter g stored =
      match (a.map.update g (max · stored + 1)).1 with
      | some cached => (max cached stored + 1, ⟨(a.map.update g (max · stored + 1)).2⟩)
      | none => (stored + 1, set ⟨(a.map.update g (max · stored + 1)).2⟩ g (stored + 1)) := by
  unfold allocateAfter
  split
  all_goals
    rename_i heq
    rw [heq]

theorem rollback_eq (a : SequenceAllocator) (g : GroupId) (expected : Nat) :
    (a.rollback g expected).2 =
      ⟨(a.map.update g fun cached => if cached = expected then cached - 1 else cached).2⟩ := by
  unfold rollback
  split
  all_goals
    rename_i heq
    rw [heq]

/-! ## What is cached -/

/-- Every number that is cached for a group has a property. -/
structure Caches (a : SequenceAllocator) (g : GroupId) (P : Nat → Prop) : Prop where
  wellFormed : WellFormed a.map
  holds : ∀ seq, a.map.Holds g seq → P seq

variable {a : SequenceAllocator} {g : GroupId} {P Q : Nat → Prop}

theorem caches_new (capacity : Nat) (g : GroupId) (P : Nat → Prop) : Caches (new capacity) g P where
  wellFormed := wellFormed_new _ _
  holds seq h := absurd h (not_holds_new _ _ g seq)

theorem Caches.imp (h : Caches a g P) (hPQ : ∀ seq, P seq → Q seq) : Caches a g Q :=
  ⟨h.wellFormed, fun seq hseq => hPQ seq (h.holds seq hseq)⟩

theorem Caches.of_update (h : Caches a g P) {f : Nat → Nat} {cached : Nat}
    (hfound : (a.map.update g f).1 = some cached) : P cached :=
  h.holds cached (h.wellFormed.holds_of_update hfound)

/-- Changing the number of the group. -/
theorem Caches.update (h : Caches a g P) {f : Nat → Nat}
    (hf : ∀ cached, (a.map.update g f).1 = some cached → Q (f cached)) :
    Caches ⟨(a.map.update g f).2⟩ g Q where
  wellFormed := (h.wellFormed.update g f).wellFormed
  holds seq hseq := by
    rcases h.wellFormed.of_holds_update hseq with ⟨-, hne⟩ | ⟨-, old, hold, rfl⟩
    · exact absurd rfl hne
    · exact hf old hold

theorem Caches.set (h : Caches a g P) {seq : Nat} (hseq : Q seq) : Caches (a.set g seq) g Q where
  wellFormed := (h.wellFormed.insert g seq).wellFormed
  holds k hk := by
    rcases h.wellFormed.of_holds_insert hk with ⟨-, rfl⟩ | ⟨-, hne⟩
    · exact hseq
    · exact absurd rfl hne

/-- The number that is given out, if the group is cached. -/
theorem Caches.next (h : Caches a g P) :
    (∃ cached, P cached ∧ (a.next g).1 = cached + 1 ∧ Caches (a.next g).2 g (· = cached + 1)) ∨
      (a.next g).1 = 0 ∧ Caches (a.next g).2 g P := by
  rw [next_eq]
  cases hfound : (a.map.update g (· + 1)).1 with
  | some cached =>
    refine .inl ⟨cached, h.of_update hfound, rfl, h.update fun other hother => ?_⟩
    rw [hfound] at hother
    rw [Option.some.inj hother]
  | none =>
    refine .inr ⟨rfl, h.update fun other hother => ?_⟩
    rw [hfound] at hother
    cases hother

/-- The number that is given out goes on from what the rows gave, or from what is cached. -/
theorem Caches.allocateAfter (h : Caches a g P) (stored : Nat) :
    ((a.allocateAfter g stored).1 = stored + 1 ∨
      ∃ cached, P cached ∧ (a.allocateAfter g stored).1 = max cached stored + 1) ∧
    Caches (a.allocateAfter g stored).2 g (· = (a.allocateAfter g stored).1) := by
  rw [allocateAfter_eq]
  cases hfound : (a.map.update g (max · stored + 1)).1 with
  | some cached =>
    refine ⟨.inr ⟨cached, h.of_update hfound, rfl⟩, h.update fun other hother => ?_⟩
    rw [hfound] at hother
    rw [Option.some.inj hother]
  | none =>
    have hmissed : Caches ⟨(a.map.update g (max · stored + 1)).2⟩ g P :=
      h.update fun other hother => by
        rw [hfound] at hother
        cases hother
    exact ⟨.inl rfl, hmissed.set rfl⟩

theorem Caches.rollback (h : Caches a g P) {expected : Nat}
    (hP : ∀ cached, P cached → Q (if cached = expected then cached - 1 else cached)) :
    Caches (a.rollback g expected).2 g Q := by
  rw [rollback_eq]
  exact h.update fun cached hfound => hP cached (h.of_update hfound)

theorem Caches.raise (h : Caches a g P) {seq : Nat} (hP : ∀ cached, P cached → Q (max cached seq))
    (hmissing : a.map.contains g = false → Q seq) : Caches (a.raise g seq) g Q := by
  have hupdate : Caches ⟨(a.map.update g (max · seq)).2⟩ g Q :=
    h.update fun cached hfound => hP cached (h.of_update hfound)
  rw [raise_eq]
  split
  · exact hupdate
  · rename_i hnone
    refine hupdate.set (hmissing ?_)
    -- a key that is not there is not found
    rw [(h.wellFormed.update g _).answer] at hnone
    rw [h.wellFormed.contains]
    unfold Lru.contains
    unfold Lru.update at hnone
    cases hpeek : a.map.toLru.peek? g with
    | none => rfl
    | some cached =>
      rw [hpeek] at hnone
      exact absurd rfl hnone

/-- Looking the group up. -/
theorem Caches.get (h : Caches a g P) : Caches (a.get g).2 g P :=
  h.update fun _ hfound => h.of_update hfound

theorem Caches.of_get (h : Caches a g P) {seq : Nat} (hseq : (a.get g).1 = some seq) : P seq :=
  h.of_update (f := id) hseq

/-! ## Calls for other groups -/

variable {other : GroupId}

theorem Caches.update_other (h : Caches a g P) (hother : other ≠ g) (f : Nat → Nat) :
    Caches ⟨(a.map.update other f).2⟩ g P where
  wellFormed := (h.wellFormed.update other f).wellFormed
  holds seq hseq := by
    rcases h.wellFormed.of_holds_update hseq with ⟨hold, -⟩ | ⟨heq, -⟩
    · exact h.holds seq hold
    · exact absurd heq.symm hother

theorem Caches.set_other (h : Caches a g P) (hother : other ≠ g) (seq : Nat) :
    Caches (a.set other seq) g P where
  wellFormed := (h.wellFormed.insert other seq).wellFormed
  holds k hk := by
    rcases h.wellFormed.of_holds_insert hk with ⟨heq, -⟩ | ⟨hold, -⟩
    · exact absurd heq.symm hother
    · exact h.holds k hold

/-- A call for another group may make the group go, and does nothing else to it. -/
theorem Caches.perform (h : Caches a g P) (hother : other ≠ g) (call : AllocatorCall) :
    Caches (a.perform other call) g P := by
  cases call with
  | get => exact h.update_other hother id
  | set seq => exact h.set_other hother seq
  | raise seq =>
    show Caches (a.raise other seq) g P
    rw [raise_eq]
    split
    · exact h.update_other hother _
    · exact (h.update_other hother _).set_other hother seq
  | allocateAfter stored =>
    show Caches (a.allocateAfter other stored).2 g P
    rw [allocateAfter_eq]
    split
    · exact h.update_other hother _
    · exact (h.update_other hother _).set_other hother _
  | next =>
    show Caches (a.next other).2 g P
    rw [next_eq]
    exact h.update_other hother _
  | rollback expected =>
    show Caches (a.rollback other expected).2 g P
    rw [rollback_eq]
    exact h.update_other hother _

theorem Caches.invalidate (h : Caches a g P) (table : TableId) :
    Caches (a.invalidate table).2 g P where
  wellFormed := (h.wellFormed.retain fun g _ => g.table ≠ table).wellFormed
  holds seq hseq := by
    have hretained : (a.map.retain fun g _ => g.table ≠ table).2.Holds g seq := hseq
    exact h.holds seq (h.wellFormed.holds_retain_iff.mp hretained).1

/-- When its table is forgotten, nothing is cached for a group. -/
theorem Caches.invalidated (h : Caches a g P) : Caches (a.invalidate g.table).2 g Q where
  wellFormed := (h.invalidate g.table).wellFormed
  holds seq hseq := by
    have hretained : (a.map.retain fun k _ => k.table ≠ g.table).2.Holds g seq := hseq
    have hkept := (h.wellFormed.holds_retain_iff.mp hretained).2
    simp at hkept

end SequenceAllocator

end VersionChain
