import VersionChain.Proofs.Cache.Refinement

/-!
# What a cache holds

Whoever relies on a cache has to know one thing about it: which pairs can be in it after an
operation, given those that were in it before. Eviction only ever takes pairs away, so all the
statements go in this direction.

* `Holds` — a pair is cached;
* `WellFormed.of_holds_update`, `WellFormed.of_holds_insert`, … — where a pair that is cached
  after an operation comes from.
-/

namespace VersionChain

variable {κ ν : Type} [DecidableEq κ]

namespace Lru

theorem mem_of_peek? {l : Lru κ ν} {key : κ} {value : ν} (h : l.peek? key = some value) :
    (key, value) ∈ l.pairs := by
  unfold peek? at h
  obtain ⟨p, hp, rfl⟩ := Option.map_eq_some_iff.mp h
  have hfound := List.find?_some hp
  have hkey : p.1 = key := of_decide_eq_true hfound
  rw [← hkey]
  exact List.mem_of_find?_eq_some hp

theorem ne_of_peek?_none {l : Lru κ ν} {key : κ} (h : l.peek? key = none) {p : κ × ν}
    (hp : p ∈ l.pairs) : p.1 ≠ key := by
  unfold peek? at h
  have hnone := List.find?_eq_none.mp (Option.map_eq_none_iff.mp h) p hp
  simpa using hnone

theorem mem_without {l : Lru κ ν} {key : κ} {p : κ × ν} :
    p ∈ l.without key ↔ p ∈ l.pairs ∧ p.1 ≠ key := by
  unfold without
  rw [List.mem_filter]
  simp

omit [DecidableEq κ] in
theorem mem_of_mem_popOldest {l : Lru κ ν} {p : κ × ν} (hp : p ∈ l.popOldest.2.pairs) :
    p ∈ l.pairs := by
  unfold popOldest at hp
  split at hp
  · exact hp
  · rename_i hpairs
    rw [hpairs]
    exact List.mem_cons_of_mem _ hp

/-- Only a new key makes the list longer, and a full list gives up a pair for it. -/
theorem mem_insert {l : Lru κ ν} {key : κ} {value : ν} (hcapacity : l.capacity ≠ 0) {p : κ × ν}
    (hp : p ∈ (l.insert key value).2.pairs) : p = (key, value) ∨ p ∈ l.pairs ∧ p.1 ≠ key := by
  unfold insert at hp
  rw [if_neg hcapacity] at hp
  cases hpeek : l.peek? key with
  | some old =>
    rw [hpeek] at hp
    rcases List.mem_append.mp hp with hp | hp
    · exact .inr (mem_without.mp hp)
    · exact .inl (List.mem_singleton.mp hp)
  | none =>
    rw [hpeek] at hp
    simp only at hp
    split at hp
    · rcases List.mem_append.mp hp with hp | hp
      · exact .inr ⟨hp, ne_of_peek?_none hpeek hp⟩
      · exact .inl (List.mem_singleton.mp hp)
    · have hrest : ∀ q ∈ l.popOldest.2.pairs, q ∈ l.pairs := fun _ => mem_of_mem_popOldest
      -- whether a pair was dropped or there was none, the rest was there before
      split at hp
      all_goals
        rename_i heq
        rw [heq] at hrest
        rcases List.mem_append.mp hp with hp | hp
        · exact .inr ⟨hrest p hp, ne_of_peek?_none hpeek (hrest p hp)⟩
        · exact .inl (List.mem_singleton.mp hp)

end Lru

namespace BoundedCache

/-- A pair is cached. -/
def Holds (c : BoundedCache κ ν) (key : κ) (value : ν) : Prop := (key, value) ∈ c.toLru.pairs

omit [DecidableEq κ] in
theorem not_holds_new (hash : κ → UInt64) (capacity : Nat) (key : κ) (value : ν) :
    ¬ Holds (new hash capacity) key value := by
  unfold Holds
  rw [toLru_new]
  exact List.not_mem_nil

theorem WellFormed.holds_of_update {c : BoundedCache κ ν} (h : WellFormed c) {key : κ} {value : ν}
    {f : ν → ν} (hvalue : (c.update key f).1 = some value) : c.Holds key value := by
  rw [(h.update key f).answer] at hvalue
  unfold Lru.update at hvalue
  split at hvalue
  · rename_i hpeek
    cases hvalue
    exact Lru.mem_of_peek? hpeek
  · cases hvalue

theorem WellFormed.not_holds_of_update {c : BoundedCache κ ν} (h : WellFormed c) {key : κ}
    {f : ν → ν} (hnone : (c.update key f).1 = none) (value : ν) : ¬ c.Holds key value := by
  rw [(h.update key f).answer] at hnone
  unfold Lru.update at hnone
  split at hnone
  · cases hnone
  · rename_i hpeek
    exact fun hholds => Lru.ne_of_peek?_none hpeek hholds rfl

theorem WellFormed.of_holds_update {c : BoundedCache κ ν} (h : WellFormed c) {key k : κ}
    {f : ν → ν} {v : ν} (hv : (c.update key f).2.Holds k v) :
    c.Holds k v ∧ k ≠ key ∨ k = key ∧ ∃ old, (c.update key f).1 = some old ∧ v = f old := by
  unfold Holds at hv
  rw [(h.update key f).contents] at hv
  rw [(h.update key f).answer]
  unfold Lru.update at hv ⊢
  cases hpeek : c.toLru.peek? key with
  | none =>
    rw [hpeek] at hv
    exact .inl ⟨hv, Lru.ne_of_peek?_none hpeek hv⟩
  | some old =>
    rw [hpeek] at hv
    rcases List.mem_append.mp hv with hv | hv
    · exact .inl (Lru.mem_without.mp hv)
    · obtain ⟨rfl, rfl⟩ := Prod.mk.inj (List.mem_singleton.mp hv)
      exact .inr ⟨rfl, old, rfl, rfl⟩

theorem WellFormed.of_holds_get {c : BoundedCache κ ν} (h : WellFormed c) {key k : κ} {v : ν}
    (hv : (c.get key).2.Holds k v) : c.Holds k v := by
  rcases h.of_holds_update hv with ⟨hold, -⟩ | ⟨rfl, old, hold, rfl⟩
  · exact hold
  · exact h.holds_of_update hold

omit [DecidableEq κ] in
/-- A cache of the capacity zero holds nothing. -/
theorem WellFormed.not_holds_of_capacity {c : BoundedCache κ ν} (h : WellFormed c)
    (hcapacity : c.capacity = 0) (key : κ) (value : ν) : ¬ c.Holds key value := by
  obtain ⟨order, vacant, h⟩ := h
  have hlen := h.len_le
  rw [hcapacity, Nat.le_zero, List.length_eq_zero_iff] at hlen
  subst hlen
  unfold Holds
  rw [h.linked.toLru_eq]
  exact List.not_mem_nil

theorem WellFormed.of_holds_insert {c : BoundedCache κ ν} (h : WellFormed c) {key k : κ}
    {value v : ν} (hv : (c.insert key value).2.Holds k v) :
    (k = key ∧ v = value) ∨ c.Holds k v ∧ k ≠ key := by
  by_cases hcapacity : c.capacity = 0
  · have hsame : (c.insert key value).2 = c := by
      unfold BoundedCache.insert
      rw [if_pos hcapacity]
    rw [hsame] at hv
    exact absurd hv (h.not_holds_of_capacity hcapacity k v)
  · unfold Holds at hv
    rw [(h.insert key value).contents] at hv
    rcases Lru.mem_insert hcapacity hv with heq | hold
    · exact .inl (Prod.mk.inj heq)
    · exact .inr hold

theorem WellFormed.of_holds_remove {c : BoundedCache κ ν} (h : WellFormed c) {key k : κ} {v : ν}
    (hv : (c.remove key).2.Holds k v) : c.Holds k v ∧ k ≠ key := by
  unfold Holds at hv
  rw [(h.remove key).contents] at hv
  exact Lru.mem_without.mp hv

omit [DecidableEq κ] in
theorem WellFormed.of_holds_popOldest {c : BoundedCache κ ν} (h : WellFormed c) {k : κ} {v : ν}
    (hv : c.popOldest.2.Holds k v) : c.Holds k v := by
  unfold Holds at hv ⊢
  rw [h.popOldest.contents] at hv
  exact Lru.mem_of_mem_popOldest hv

omit [DecidableEq κ] in
theorem WellFormed.holds_retain_iff {c : BoundedCache κ ν} (h : WellFormed c) {keep : κ → ν → Bool}
    {k : κ} {v : ν} : (c.retain keep).2.Holds k v ↔ c.Holds k v ∧ keep k v = true := by
  unfold Holds
  rw [(h.retain keep).contents]
  exact List.mem_filter

end BoundedCache

end VersionChain
