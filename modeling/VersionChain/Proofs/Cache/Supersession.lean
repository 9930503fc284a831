import VersionChain.Proofs.Cache.Budget

/-!
# Which value of a key is served

A key may be given one value after the other. A value that is taken takes the place of the one that
is cached. One that is refused for its length leaves it where it is, so a cache may go on to serve
a value when there is a newer one.

* `ContentCache.lastGiven`, `ContentCache.lastTaken` — the newest value of a key, and the newest
  that was not refused;
* `ContentCache.serves_step` — what a command does to the values that may be served;
* `ContentCache.serves_lastTaken` — every run: nothing is served but the newest value taken;
* `ContentCache.serves_superseded` — which need not be the newest value.
-/

namespace VersionChain

open BoundedCache

namespace ContentCache

/-! ## The values that a key was given -/

/-- Whether a cache with these bounds takes a value. -/
def Admits (capacity byteBudget maxEntry : Nat) (value : Bytes) : Prop :=
  0 < capacity ∧ value.size ≤ min maxEntry byteBudget

instance (capacity byteBudget maxEntry : Nat) (value : Bytes) :
    Decidable (Admits capacity byteBudget maxEntry value) := inferInstanceAs (Decidable (_ ∧ _))

/-- The value that a command gives to a key, if it does. -/
def ContentCommand.given? (key : ContentKey) : ContentCommand → Option Bytes
  | .put k value => if k = key then some value else none
  | _ => none

/-- The value that a key was given last. -/
def lastGiven (commands : List ContentCommand) (key : ContentKey) : Option Bytes :=
  commands.reverse.findSome? (·.given? key)

/-- The last value given to a key that is taken. -/
def lastTaken (capacity byteBudget maxEntry : Nat) (commands : List ContentCommand)
    (key : ContentKey) : Option Bytes :=
  commands.reverse.findSome? fun command =>
    (command.given? key).filter (Admits capacity byteBudget maxEntry ·)

variable {capacity byteBudget maxEntry : Nat} {commands : List ContentCommand} {key : ContentKey}

theorem lastGiven_concat (commands : List ContentCommand) (last : ContentCommand)
    (key : ContentKey) :
    lastGiven (commands ++ [last]) key = (last.given? key).or (lastGiven commands key) := by
  unfold lastGiven
  rw [List.reverse_concat, List.findSome?_cons]
  cases last.given? key <;> rfl

theorem lastTaken_concat (capacity byteBudget maxEntry : Nat) (commands : List ContentCommand)
    (last : ContentCommand) (key : ContentKey) :
    lastTaken capacity byteBudget maxEntry (commands ++ [last]) key =
      ((last.given? key).filter (Admits capacity byteBudget maxEntry ·)).or
        (lastTaken capacity byteBudget maxEntry commands key) := by
  unfold lastTaken
  rw [List.reverse_concat, List.findSome?_cons]
  cases (last.given? key).filter (Admits capacity byteBudget maxEntry ·) <;> rfl

/-- Only a value that the cache admits is taken. -/
theorem admits_of_lastTaken {value : Bytes}
    (h : lastTaken capacity byteBudget maxEntry commands key = some value) :
    Admits capacity byteBudget maxEntry value := by
  obtain ⟨command, -, hcommand⟩ := List.exists_of_findSome?_eq_some h
  exact of_decide_eq_true (Option.filter_eq_some_iff.mp hcommand).2

/-- The last value that is taken is the last one given, unless that one is refused. -/
theorem lastTaken_eq (capacity byteBudget maxEntry : Nat) (commands : List ContentCommand)
    (key : ContentKey) :
    lastTaken capacity byteBudget maxEntry commands key = lastGiven commands key ∨
      ∃ refused, lastGiven commands key = some refused ∧
        ¬ Admits capacity byteBudget maxEntry refused := by
  induction commands using List.reverseRecOn with
  | nil => exact .inl rfl
  | append_singleton earlier last ih =>
    rw [lastTaken_concat, lastGiven_concat]
    cases hgiven : last.given? key with
    | none => exact ih
    | some value =>
      by_cases hadmits : Admits capacity byteBudget maxEntry value
      · exact .inl (by simp [hadmits])
      · exact .inr ⟨value, rfl, hadmits⟩

/-! ## What is served -/

section Serves

variable {x : ContentCache} {P Q : ContentKey → Bytes → Prop}

/-- Nothing is served for a key that was dropped. -/
theorem Serves.forget_key (h : Serves x P) (key : ContentKey) :
    Serves (x.forget key) fun k v => P k v ∧ k ≠ key where
  wellFormed := (h.wellFormed.remove key).wellFormed
  holds k v hk := by
    obtain ⟨hold, hne⟩ := h.wellFormed.of_holds_remove hk
    exact ⟨h.holds k v hold, hne⟩

/-- A value that is short enough takes the place of the others of its key. -/
theorem Serves.put_short (h : Serves x P) {key : ContentKey} {value : Bytes}
    (hcapacity : x.map.capacity ≠ 0) (hmax : value.size ≤ x.maxEntry)
    (hbudget : value.size ≤ x.byteBudget) (hnew : Q key value)
    (hothers : ∀ k v, k ≠ key → P k v → Q k v) : Serves (x.put key value).2 Q := by
  have hforgotten : Serves (x.forget key) Q :=
    (h.forget_key key).imp fun k v hold => hothers k v hold.2 hold.1
  have hshort : ¬ (x.maxEntry < value.size ∨ x.byteBudget < value.size) := by omega
  rw [ContentCache.put, if_neg hcapacity, if_neg hshort]
  exact (hforgotten.makeRoom _ _).store hnew

/-- What may be served after a command: a value that is taken takes the place of the others of its
key, and one that is refused does not. -/
theorem serves_step (haccounted : Accounted capacity byteBudget maxEntry x)
    (hserves : Serves x fun key value =>
      lastTaken capacity byteBudget maxEntry commands key = some value)
    (command : ContentCommand) :
    Serves (x.perform command) fun key value =>
      lastTaken capacity byteBudget maxEntry (commands ++ [command]) key = some value := by
  simp only [lastTaken_concat]
  cases command with
  | get k => exact (hserves.get k).2
  | invalidate table => exact hserves.invalidate table fun _ _ _ => id
  | put k new =>
    unfold ContentCache.perform ContentCommand.given?
    rcases haccounted.put_cases k new with
      ⟨hsome, hfits, hcapacity, hmax, hbudget⟩ | ⟨hnot, hput, -⟩
    · have hadmits : Admits capacity byteBudget maxEntry new := ⟨hsome, hfits⟩
      refine hserves.put_short hcapacity hmax hbudget ?_ fun other v hne hold => ?_
      · simp [hadmits]
      · simpa [Ne.symm hne] using hold
    · have hrefused : ¬ Admits capacity byteBudget maxEntry new := hnot
      have hnone : ∀ other, (if k = other then some new else none).filter
          (Admits capacity byteBudget maxEntry ·) = none := fun other => by
        by_cases hkey : k = other <;> simp [hkey, hrefused]
      simp only [hput, hnone, Option.none_or]
      exact ⟨hserves.wellFormed, hserves.holds⟩

end Serves

/-- What is served in the course of a run. -/
theorem serves_run (capacity byteBudget maxEntry : Nat) (commands : List ContentCommand) :
    Serves (commands.foldl perform (new capacity byteBudget maxEntry)) fun key value =>
      lastTaken capacity byteBudget maxEntry commands key = some value := by
  induction commands using List.reverseRecOn with
  | nil => exact ⟨wellFormed_new _ _, fun key value h => absurd h (not_holds_new _ _ key value)⟩
  | append_singleton earlier last ih =>
    rw [List.foldl_concat]
    have hrun := (Accounted.init capacity byteBudget maxEntry).run earlier
    exact serves_step hrun.2 ih last

/-- A value that was just taken is served. -/
theorem Accounted.get_put {x : ContentCache} (h : Accounted capacity byteBudget maxEntry x)
    (key : ContentKey) {value : Bytes} (hadmits : Admits capacity byteBudget maxEntry value) :
    ((x.put key value).2.get key).1 = some value := by
  have htaken := (h.account.takes key value).mpr hadmits
  obtain ⟨kept, hlongest, hlist, -⟩ := (h.account.taken key value htaken).entries
  have hkept : ∀ p ∈ kept, p.1 ≠ key := fun p hp =>
    (Lru.mem_without.mp (hlongest.isEnd.subset hp)).2
  have hpairs : (x.put key value).2.map.toLru.pairs = kept ++ [(key, value)] := hlist
  have hpeek : (x.put key value).2.map.toLru.peek? key = some value := by
    have hnone : kept.find? (·.1 = key) = none := List.find?_eq_none.mpr (by simpa using hkept)
    unfold Lru.peek?
    rw [hpairs, List.find?_append, hnone]
    simp
  refine (((h.put key value).2.weighed.wellFormed.update key id).answer).trans ?_
  unfold Lru.update
  rw [hpeek]

/-- Whatever is looked up, cached and forgotten, a key is served nothing but the last value that was
taken for it. That is the last value it was given, unless that one was refused for its length. A
value is taken exactly if the cache admits it, and then it is served. -/
theorem serves_lastTaken (capacity byteBudget maxEntry : Nat) (commands : List ContentCommand)
    (key : ContentKey) :
    let x := commands.foldl perform (new capacity byteBudget maxEntry)
    let served := (x.get key).1
    (served = none ∨ served = lastTaken capacity byteBudget maxEntry commands key) ∧
    (served = none ∨ served = lastGiven commands key ∨
      ∃ refused, lastGiven commands key = some refused ∧ min maxEntry byteBudget < refused.size) ∧
    ∀ value, ((x.put key value).1 = true ↔ Admits capacity byteBudget maxEntry value) ∧
      (Admits capacity byteBudget maxEntry value → ((x.put key value).2.get key).1 = some value) := by
  intro x served
  have hserves : Serves x _ := serves_run capacity byteBudget maxEntry commands
  have haccounted : Accounted capacity byteBudget maxEntry x :=
    ((Accounted.init capacity byteBudget maxEntry).run commands).2
  have hputs : ∀ value, ((x.put key value).1 = true ↔ Admits capacity byteBudget maxEntry value) ∧
      (Admits capacity byteBudget maxEntry value → ((x.put key value).2.get key).1 = some value) :=
    fun value => ⟨haccounted.account.takes key value, fun hadmits => haccounted.get_put key hadmits⟩
  cases hget : served with
  | none => exact ⟨.inl rfl, .inl rfl, hputs⟩
  | some value =>
    have hlast : lastTaken capacity byteBudget maxEntry commands key = some value :=
      (hserves.get key).1 value hget
    refine ⟨.inr hlast.symm, .inr ?_, hputs⟩
    rcases lastTaken_eq capacity byteBudget maxEntry commands key with
      hsame | ⟨refused, hgiven, hnot⟩
    · exact .inl (hlast.symm.trans hsame)
    · -- a value was taken, so there is room for some
      have hcapacity := (admits_of_lastTaken hlast).1
      exact .inr ⟨refused, hgiven, not_le.mp fun hle => hnot ⟨hcapacity, hle⟩⟩

/-- A value that is too long is refused, and the one before it goes on to be served. -/
theorem serves_superseded :
    let key : ContentKey := ⟨⟨⟨1, .zero⟩, 1⟩, 0⟩
    let commands : List ContentCommand := [.put key #[1, 2, 3], .put key #[4, 5, 6, 7]]
    let x := commands.foldl perform (new 1 3 3)
    lastGiven commands key = some #[4, 5, 6, 7] ∧ (x.get key).1 = some #[1, 2, 3] := by
  decide +kernel

end ContentCache

end VersionChain
