import VersionChain.Cache.Content
import VersionChain.Proofs.Cache.Contents

/-!
# What the caches of a service say

The sequence allocator, the location index and the content cache are bounded caches with a
meaning. Each is right as long as all its pairs are: a cached number is that of the latest
version, a cached content is that of its version. Locations mean nothing until they are
looked up.

* `SequenceAllocator.Advises` — every cached number is the latest one;
* `ContentCache.Serves` — every cached content has a property;
* `LocationIndex.Sound` — both directions are well-formed.
-/

namespace VersionChain

open BoundedCache

namespace SequenceAllocator

/-- Every cached number is that of the latest version. -/
structure Advises (a : SequenceAllocator) (latest : GroupId → Nat) : Prop where
  wellFormed : WellFormed a.map
  holds : ∀ g seq, a.map.Holds g seq → seq = latest g

variable {a : SequenceAllocator} {latest latest' : GroupId → Nat}

theorem advises_ofBudget (mb : Nat) (latest : GroupId → Nat) : Advises (ofBudget mb) latest where
  wellFormed := wellFormed_new _ _
  holds g seq h := absurd h (not_holds_new _ _ g seq)

/-- Changing the cached number of one group. -/
theorem Advises.update (h : Advises a latest) (g : GroupId) {f : Nat → Nat}
    (hsame : ∀ k, k ≠ g → latest' k = latest k)
    (hg : (∃ old, (a.map.update g f).1 = some old) → latest' g = f (latest g)) :
    Advises ⟨(a.map.update g f).2⟩ latest' where
  wellFormed := (h.wellFormed.update g f).wellFormed
  holds k v hk := by
    rcases h.wellFormed.of_holds_update hk with ⟨hold, hne⟩ | ⟨rfl, old, hold, rfl⟩
    · rw [hsame k hne]
      exact h.holds k v hold
    · rw [hg ⟨old, hold⟩, ← h.holds k old (h.wellFormed.holds_of_update hold)]

/-- Taking back a number that was given out. -/
theorem Advises.rollback (h : Advises a latest') (g : GroupId)
    (hsame : ∀ k, k ≠ g → latest' k = latest k) (hg : latest' g = latest g + 1) :
    Advises (a.rollback g (latest g + 1)).2 latest := by
  have hupdate : Advises ⟨(a.map.update g fun cached =>
      if cached = latest g + 1 then cached - 1 else cached).2⟩ latest :=
    h.update g (fun k hk => (hsame k hk).symm) fun _ => by
      rw [hg, if_pos rfl, Nat.add_sub_cancel]
  unfold SequenceAllocator.rollback
  split
  all_goals
    rename_i heq
    rw [heq] at hupdate
    exact hupdate

theorem Advises.invalidate (h : Advises a latest) (table : TableId)
    (hsame : ∀ g, g.table ≠ table → latest' g = latest g) :
    Advises (a.invalidate table).2 latest' where
  wellFormed := (h.wellFormed.retain fun g _ => g.table ≠ table).wellFormed
  holds g seq hg := by
    have hretained : (a.map.retain fun g _ => g.table ≠ table).2.Holds g seq := hg
    obtain ⟨hold, hkeep⟩ := h.wellFormed.holds_retain_iff.mp hretained
    rw [hsame g (by simpa using hkeep)]
    exact h.holds g seq hold

end SequenceAllocator

namespace LocationIndex

/-- Both directions are well-formed. What they hold is not trusted. -/
structure Sound (x : LocationIndex) : Prop where
  forward : WellFormed x.forward
  reverse : WellFormed x.reverse

theorem sound_ofBudget (mb : Nat) : Sound (ofBudget mb) :=
  ⟨wellFormed_new _ _, wellFormed_new _ _⟩

variable {x : LocationIndex}

theorem Sound.record (h : Sound x) (location : Location) (v : VersionId) :
    Sound (x.record location v) :=
  ⟨(h.forward.insert _ _).wellFormed, (h.reverse.insert _ _).wellFormed⟩

theorem Sound.seqAt (h : Sound x) (p : PlaceId) : Sound (x.seqAt p).2 :=
  ⟨(h.forward.update p id).wellFormed, h.reverse⟩

theorem Sound.locationOf (h : Sound x) (v : VersionId) : Sound (x.locationOf v).2 :=
  ⟨h.forward, (h.reverse.update v id).wellFormed⟩

theorem Sound.forgetReverse (h : Sound x) (v : VersionId) : Sound (x.forgetReverse v) :=
  ⟨h.forward, (h.reverse.remove v).wellFormed⟩

theorem Sound.forgetForward (h : Sound x) (p : PlaceId) : Sound (x.forgetForward p) :=
  ⟨(h.forward.remove p).wellFormed, h.reverse⟩

theorem Sound.invalidate (h : Sound x) (table : TableId) : Sound (x.invalidate table).2 :=
  ⟨(h.forward.retain fun p _ => p.table ≠ table).wellFormed,
    (h.reverse.retain fun v _ => v.table ≠ table).wellFormed⟩

end LocationIndex

namespace ContentCache

/-- Every cached content has a property. -/
structure Serves (x : ContentCache) (P : ContentKey → Bytes → Prop) : Prop where
  wellFormed : WellFormed x.map
  holds : ∀ key value, x.map.Holds key value → P key value

variable {x : ContentCache} {P Q : ContentKey → Bytes → Prop}

theorem serves_ofBudget (mb maxEntry : Nat) (P : ContentKey → Bytes → Prop) :
    Serves (ofBudget mb maxEntry) P where
  wellFormed := wellFormed_new _ _
  holds key value h := absurd h (not_holds_new _ _ key value)

theorem Serves.imp (h : Serves x P) (hPQ : ∀ key value, P key value → Q key value) :
    Serves x Q :=
  ⟨h.wellFormed, fun key value hk => hPQ key value (h.holds key value hk)⟩

theorem Serves.get (h : Serves x P) (key : ContentKey) :
    (∀ value, (x.get key).1 = some value → P key value) ∧ Serves (x.get key).2 P :=
  ⟨fun value hvalue => h.holds key value (h.wellFormed.holds_of_update hvalue),
    (h.wellFormed.update key id).wellFormed,
    fun k v hk => h.holds k v (h.wellFormed.of_holds_get hk)⟩

theorem Serves.not_holds_of_get (h : Serves x P) {key : ContentKey} (hnone : (x.get key).1 = none)
    (value : Bytes) : ¬ x.map.Holds key value := h.wellFormed.not_holds_of_update hnone value

theorem Serves.forget (h : Serves x P) (key : ContentKey) : Serves (x.forget key) P :=
  ⟨(h.wellFormed.remove key).wellFormed,
    fun k v hk => h.holds k v (h.wellFormed.of_holds_remove hk).1⟩

theorem Serves.makeRoom (h : Serves x P) (length steps : Nat) :
    Serves (x.makeRoom length steps) P := by
  induction steps generalizing x with
  | zero => exact h
  | succ steps ih =>
    have hpopped : Serves { x with map := x.map.popOldest.2 } P :=
      ⟨h.wellFormed.popOldest.wellFormed,
        fun k v hk => h.holds k v (h.wellFormed.of_holds_popOldest hk)⟩
    unfold ContentCache.makeRoom
    split
    · exact h
    · split
      all_goals
        rename_i heq
        rw [heq] at hpopped
      · exact ih ⟨hpopped.wellFormed, hpopped.holds⟩
      · exact hpopped

theorem Serves.store (h : Serves x P) {key : ContentKey} {value : Bytes} (hP : P key value) :
    Serves (x.store key value).2 P := by
  have hinserted : Serves { x with map := (x.map.insert key value).2 } P := by
    refine ⟨(h.wellFormed.insert key value).wellFormed, fun k v hk => ?_⟩
    rcases h.wellFormed.of_holds_insert hk with ⟨rfl, rfl⟩ | ⟨hold, -⟩
    · exact hP
    · exact h.holds k v hold
  unfold ContentCache.store
  split
  all_goals
    rename_i heq
    rw [heq] at hinserted
    exact ⟨hinserted.wellFormed, hinserted.holds⟩

/-- Whether a content is taken or not, nothing but the right content is cached. -/
theorem Serves.put (h : Serves x P) {key : ContentKey} {value : Bytes} (hP : P key value) :
    Serves (x.put key value).2 P := by
  unfold ContentCache.put
  split
  · exact h
  · split
    · exact ⟨h.wellFormed, h.holds⟩
    · exact ((h.forget key).makeRoom _ _).store hP

theorem Serves.invalidate (h : Serves x P) (table : TableId)
    (hPQ : ∀ key value, key.table ≠ table → P key value → Q key value) :
    Serves (x.invalidate table).2 Q where
  wellFormed := (h.wellFormed.retain fun key _ => key.table ≠ table).wellFormed
  holds key value hk := by
    have hretained : (x.map.retain fun key _ => key.table ≠ table).2.Holds key value := hk
    obtain ⟨hold, hkeep⟩ := h.wellFormed.holds_retain_iff.mp hretained
    exact hPQ key value (by simpa using hkeep) (h.holds key value hold)

end ContentCache

end VersionChain
