import VersionChain.Proofs.Cache.Refinement

/-!
# Runs of a bounded cache

A run is a list of commands. After each of them one sees its answer, the keys in their order of
use and the counters. A bounded cache and the plain list of its pairs cannot be told apart in
this way.

* `WellFormed.perform` — one command;
* `observe_new` — every run from a new cache, and what only the capacity zero does.
-/

namespace VersionChain

variable {κ ν : Type}

/-- One use of a cache. Looking up with `update` also overwrites. -/
inductive CacheCommand (κ ν : Type) where
  | get (key : κ)
  | update (key : κ) (f : ν → ν)
  | peek (key : κ)
  | contains (key : κ)
  | insert (key : κ) (value : ν)
  | remove (key : κ)
  | popOldest
  | retain (keep : κ → ν → Bool)
  | clear

/-- What a command gives. -/
inductive CacheAnswer (κ ν : Type) where
  | value (found : Option ν)
  | present (found : Bool)
  | insertion (became : Insertion κ ν)
  | oldest (pair : Option (κ × ν))
  | gone (pairs : List (κ × ν))
  | done

/-- What shows of a cache after a command. -/
structure CacheSight (κ ν : Type) where
  answer : CacheAnswer κ ν
  keys : List κ
  stats : CacheStats

/-- What shows of a cache in the course of a run. -/
def observe {σ : Type} (perform : σ → CacheCommand κ ν → CacheAnswer κ ν × σ)
    (look : σ → List κ × CacheStats) : σ → List (CacheCommand κ ν) → List (CacheSight κ ν)
  | _, [] => []
  | c, command :: rest =>
    let (answer, c) := perform c command
    ⟨answer, (look c).1, (look c).2⟩ :: observe perform look c rest

variable [DecidableEq κ]

namespace Lru

def perform (l : Lru κ ν) : CacheCommand κ ν → CacheAnswer κ ν × Lru κ ν
  | .get key => (.value (l.get key).1, (l.get key).2)
  | .update key f => (.value (l.update key f).1, (l.update key f).2)
  | .peek key => (.value (l.peek? key), l)
  | .contains key => (.present (l.contains key), l)
  | .insert key value => (.insertion (l.insert key value).1, (l.insert key value).2)
  | .remove key => (.value (l.remove key).1, (l.remove key).2)
  | .popOldest => (.oldest l.popOldest.1, l.popOldest.2)
  | .retain keep => (.gone (l.retain keep).1, (l.retain keep).2)
  | .clear => (.done, l.clear)

def look (l : Lru κ ν) : List κ × CacheStats := (l.keys, l.stats)

theorem capacity_update (l : Lru κ ν) (key : κ) (f : ν → ν) :
    (l.update key f).2.capacity = l.capacity := by
  unfold update
  split <;> rfl

omit [DecidableEq κ] in
theorem capacity_popOldest (l : Lru κ ν) : l.popOldest.2.capacity = l.capacity := by
  unfold popOldest
  split <;> rfl

theorem capacity_insert (l : Lru κ ν) (key : κ) (value : ν) :
    (l.insert key value).2.capacity = l.capacity := by
  unfold insert
  split
  · rfl
  · split
    · rfl
    · split
      · rfl
      · have hpop := capacity_popOldest l
        split <;> (rename_i heq; rw [heq] at hpop; exact hpop)

theorem capacity_perform (l : Lru κ ν) (command : CacheCommand κ ν) :
    (l.perform command).2.capacity = l.capacity := by
  cases command with
  | get key => exact capacity_update l key id
  | update key f => exact capacity_update l key f
  | insert key value => exact capacity_insert l key value
  | popOldest => exact capacity_popOldest l
  | peek | contains | remove | retain | clear => rfl

/-- Nothing is refused where there is room for anything. -/
theorem capacity_eq_zero_of_rejected {l : Lru κ ν} {key : κ} {value : ν}
    (h : (l.insert key value).1 = .rejected) : l.capacity = 0 := by
  unfold insert at h
  split at h
  · assumption
  · split at h
    · cases h
    · split at h
      · cases h
      · split at h <;> cases h

theorem capacity_eq_zero_of_observe {l : Lru κ ν} {commands : List (CacheCommand κ ν)}
    {sight : CacheSight κ ν} (hmem : sight ∈ observe perform look l commands)
    (hrejected : sight.answer = .insertion .rejected) : l.capacity = 0 := by
  induction commands generalizing l with
  | nil => cases hmem
  | cons command rest ih =>
    rcases List.mem_cons.mp hmem with rfl | hrest
    · cases command with
      | insert key value =>
        exact capacity_eq_zero_of_rejected (CacheAnswer.insertion.inj hrejected)
      | get | update | peek | contains | remove | popOldest | retain | clear => cases hrejected
    · rw [← capacity_perform l command]
      exact ih hrest

end Lru

namespace BoundedCache

def perform (c : BoundedCache κ ν) : CacheCommand κ ν → CacheAnswer κ ν × BoundedCache κ ν
  | .get key => (.value (c.get key).1, (c.get key).2)
  | .update key f => (.value (c.update key f).1, (c.update key f).2)
  | .peek key => (.value (c.peek? key), c)
  | .contains key => (.present (c.contains key), c)
  | .insert key value => (.insertion (c.insert key value).1, (c.insert key value).2)
  | .remove key => (.value (c.remove key).1, (c.remove key).2)
  | .popOldest => (.oldest c.popOldest.1, c.popOldest.2)
  | .retain keep => (.gone (c.retain keep).1, (c.retain keep).2)
  | .clear => (.done, c.clear)

def look (c : BoundedCache κ ν) : List κ × CacheStats := (c.keys, c.stats)

omit [DecidableEq κ] in
theorem Simulates.map {α β : Type} {r : α × BoundedCache κ ν} {s : α × Lru κ ν}
    (h : Simulates r s) (f : α → β) : Simulates (f r.1, r.2) (f s.1, s.2) :=
  ⟨congrArg f h.answer, h.contents, h.wellFormed⟩

omit [DecidableEq κ] in
theorem WellFormed.look {c : BoundedCache κ ν} (h : WellFormed c) : c.look = c.toLru.look := by
  obtain ⟨order, vacant, h⟩ := h
  have hlen : c.len = c.toLru.pairs.length := by
    rw [h.linked.toLru_eq, h.len]
    exact (Linked.length_pairsAt fun i hi => h.linked.live hi).symm
  unfold BoundedCache.look Lru.look stats Lru.stats
  rw [keys_eq, hlen]
  rfl

/-- Each command does to the cache what it does to the list. -/
theorem WellFormed.perform {c : BoundedCache κ ν} (h : WellFormed c) (command : CacheCommand κ ν) :
    Simulates (c.perform command) (c.toLru.perform command) := by
  cases command with
  | get key => exact (h.update key id).map CacheAnswer.value
  | update key f => exact (h.update key f).map CacheAnswer.value
  | peek key => exact ⟨congrArg CacheAnswer.value (h.peek? key), rfl, h⟩
  | contains key => exact ⟨congrArg CacheAnswer.present (h.contains key), rfl, h⟩
  | insert key value => exact (h.insert key value).map CacheAnswer.insertion
  | remove key => exact (h.remove key).map CacheAnswer.value
  | popOldest => exact h.popOldest.map CacheAnswer.oldest
  | retain keep => exact (h.retain keep).map CacheAnswer.gone
  | clear => exact ⟨rfl, h.clear.2, h.clear.1⟩

theorem WellFormed.observe {c : BoundedCache κ ν} (h : WellFormed c)
    (commands : List (CacheCommand κ ν)) :
    VersionChain.observe BoundedCache.perform BoundedCache.look c commands =
      VersionChain.observe Lru.perform Lru.look c.toLru commands := by
  induction commands generalizing c with
  | nil => rfl
  | cons command rest ih =>
    have hstep := h.perform command
    have htail := ih hstep.wellFormed
    have hlook := hstep.wellFormed.look
    rw [hstep.contents] at htail hlook
    simp only [VersionChain.observe, hstep.answer, hlook, htail]

/-- Whatever the hash function, a new cache shows in every run what the plain list of its
capacity shows, and only with the capacity zero does it ever refuse an entry. -/
theorem observe_new (hash : κ → UInt64) (capacity : Nat) (commands : List (CacheCommand κ ν)) :
    observe perform look (new hash capacity) commands =
      observe Lru.perform Lru.look { capacity := min capacity maxCapacity } commands ∧
    ∀ sight ∈ observe perform look (new hash capacity) commands,
      sight.answer = .insertion .rejected → capacity = 0 := by
  have hruns := (wellFormed_new hash capacity).observe commands
  rw [toLru_new] at hruns
  refine ⟨hruns, ?_⟩
  intro sight hmem hrejected
  rw [hruns] at hmem
  have hzero : min capacity maxCapacity = 0 := Lru.capacity_eq_zero_of_observe hmem hrejected
  unfold maxCapacity at hzero
  omega

end BoundedCache

end VersionChain
