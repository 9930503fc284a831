import VersionChain.Proofs.Cache.Clients

/-!
# The bytes that are resident

A content cache keeps count of the bytes of its values without looking at them again. The count is
the sum of their lengths after every operation, so nothing is ever subtracted from it that was not
added before.

* `Lru.Distinct` — every key once;
* `Lru.weight_without`, `Lru.weight_insert` — what removing and storing do to the sum;
* `ContentCache.Weighed` — the count is the sum;
* `Weighed.get`, `Weighed.put`, `Weighed.invalidate` — one operation.
-/

namespace VersionChain

theorem totalSize_append (xs ys : List Bytes) :
    totalSize (xs ++ ys) = totalSize xs + totalSize ys := by
  induction xs with
  | nil => exact (Nat.zero_add _).symm
  | cons x rest ih =>
    show x.size + totalSize (rest ++ ys) = x.size + totalSize rest + totalSize ys
    rw [ih, Nat.add_assoc]

/-! ## Sums over a list of pairs -/

/-- The sum of the lengths of the values. -/
def weight {κ : Type} (pairs : List (κ × Bytes)) : Nat := totalSize (pairs.map (·.2))

section Lists

variable {κ ν : Type} {pairs : List (κ × Bytes)} {key : κ} {value : Bytes}

theorem weight_append (xs ys : List (κ × Bytes)) : weight (xs ++ ys) = weight xs + weight ys := by
  unfold weight
  rw [List.map_append, totalSize_append]

theorem weight_concat (xs : List (κ × Bytes)) (key : κ) (value : Bytes) :
    weight (xs ++ [(key, value)]) = weight xs + value.size :=
  weight_append xs [(key, value)]

/-- The values that are kept and the others. -/
theorem weight_filter (keep : κ × Bytes → Bool) (pairs : List (κ × Bytes)) :
    weight (pairs.filter keep) + weight (pairs.filter fun p => !keep p) = weight pairs := by
  induction pairs with
  | nil => rfl
  | cons p rest ih =>
    have hcons : ∀ xs : List (κ × Bytes), weight (p :: xs) = p.2.size + weight xs := fun _ => rfl
    rw [List.filter_cons, List.filter_cons, hcons, ← ih]
    cases hp : keep p with
    | true =>
      rw [if_pos rfl, hcons, if_neg (by decide)]
      omega
    | false =>
      rw [if_neg Bool.false_ne_true, if_pos (by decide), hcons]
      omega

end Lists

/-- The bytes that went with an insertion. -/
def Insertion.lost {κ : Type} : Insertion κ Bytes → Nat
  | .replaced old | .evicted _ old => old.size
  | .inserted | .rejected => 0

/-- The bytes that came with an insertion. -/
def Insertion.gained {κ : Type} (value : Bytes) : Insertion κ Bytes → Nat
  | .rejected => 0
  | .inserted | .replaced _ | .evicted _ _ => value.size

namespace Lru

variable {κ ν : Type} [DecidableEq κ]

/-- Every key has one pair at most. -/
def Distinct (l : Lru κ ν) : Prop := l.pairs.Pairwise fun p q => p.1 ≠ q.1

/-- Without a key, its value is missing from the sum. -/
theorem weight_without {l : Lru κ Bytes} (h : l.Distinct) (key : κ) :
    weight (l.without key) + ((l.peek? key).getD #[]).size = weight l.pairs := by
  unfold Distinct at h
  unfold without peek?
  have hcons : ∀ (p : κ × Bytes) xs, weight (p :: xs) = p.2.size + weight xs := fun _ _ => rfl
  generalize l.pairs = pairs at h ⊢
  induction pairs with
  | nil => rfl
  | cons p rest ih =>
    obtain ⟨hfirst, hrest⟩ := List.pairwise_cons.mp h
    rw [List.filter_cons, List.find?_cons, hcons]
    by_cases hkey : p.1 = key
    · -- no later pair has the key
      have hothers : rest.filter (·.1 ≠ key) = rest := by
        refine List.filter_eq_self.mpr fun q hq => decide_eq_true ?_
        rw [← hkey]
        exact (hfirst q hq).symm
      rw [decide_eq_true hkey, if_neg (by simpa using hkey), hothers]
      exact Nat.add_comm _ _
    · rw [decide_eq_false hkey, if_pos (by simpa using hkey), hcons, ← ih hrest, Nat.add_assoc]

/-- What storing a value does to the sum: the value comes unless it is rejected, and another one
may go for it. -/
theorem weight_insert {l : Lru κ Bytes} (h : l.Distinct) (key : κ) (value : Bytes) :
    ∃ kept, weight l.pairs = kept + (l.insert key value).1.lost ∧
      weight (l.insert key value).2.pairs = kept + (l.insert key value).1.gained value := by
  have hwithout := weight_without h key
  unfold insert
  by_cases hcapacity : l.capacity = 0
  · rw [if_pos hcapacity]
    exact ⟨weight l.pairs, rfl, rfl⟩
  · rw [if_neg hcapacity]
    cases hpeek : l.peek? key with
    | some old =>
      rw [hpeek] at hwithout
      exact ⟨weight (l.without key), hwithout.symm, weight_concat _ key value⟩
    | none =>
      simp only
      by_cases hroom : l.pairs.length < l.capacity
      · rw [if_pos hroom]
        exact ⟨weight l.pairs, rfl, weight_concat _ key value⟩
      · rw [if_neg hroom]
        unfold popOldest
        cases hpairs : l.pairs with
        | nil =>
          refine ⟨0, rfl, ?_⟩
          show weight (l.pairs ++ [(key, value)]) = _
          rw [hpairs]
          exact weight_concat [] key value
        | cons oldest rest => exact ⟨weight rest, Nat.add_comm _ _, weight_concat _ key value⟩

end Lru

namespace BoundedCache

variable {κ ν : Type} [DecidableEq κ] {c : BoundedCache κ ν}

omit [DecidableEq κ] in
theorem WellFormed.length_pairs (h : WellFormed c) : c.toLru.pairs.length = c.len := by
  obtain ⟨order, vacant, h⟩ := h
  rw [h.linked.toLru_eq, h.len]
  exact Linked.length_pairsAt fun i hi => h.linked.live hi

omit [DecidableEq κ] in
/-- Keys are in one slot each, and slots in the order of use once. -/
theorem WellFormed.distinct (h : WellFormed c) : c.toLru.Distinct := by
  obtain ⟨order, vacant, h⟩ := h
  unfold Lru.Distinct
  rw [h.linked.toLru_eq]
  unfold pairsAt
  refine List.Pairwise.filterMap _ (fun i j hij p hp q hq => ?_) h.linked.nodup
  obtain ⟨e, he, rfl⟩ := Option.map_eq_some_iff.mp hp
  obtain ⟨x, hx, rfl⟩ := Option.map_eq_some_iff.mp hq
  exact fun hkey => hij ((h.key_eq_iff hx he).mp hkey)

end BoundedCache

namespace ContentCache

/-- The count of resident bytes is the sum of the lengths of the cached values. -/
structure Weighed (x : ContentCache) : Prop where
  wellFormed : BoundedCache.WellFormed x.map
  resident : x.residentBytes = weight x.map.toLru.pairs

variable {x : ContentCache}

theorem weighed_new (capacity byteBudget maxEntry : Nat) :
    Weighed (new capacity byteBudget maxEntry) where
  wellFormed := BoundedCache.wellFormed_new _ _
  resident := by
    show 0 = weight (BoundedCache.toLru (.new _ _)).pairs
    rw [BoundedCache.toLru_new]
    rfl

theorem weighed_ofBudget (mb maxEntry : Nat) : Weighed (ofBudget mb maxEntry) := weighed_new _ _ _

namespace Weighed

/-- A value that was looked up is the last now. -/
theorem get (h : Weighed x) (key : ContentKey) : Weighed (x.get key).2 := by
  have hsim := h.wellFormed.update key id
  refine ⟨hsim.wellFormed, h.resident.trans ?_⟩
  show _ = weight (x.map.update key id).2.toLru.pairs
  have hwithout := Lru.weight_without h.wellFormed.distinct key
  rw [hsim.contents]
  unfold Lru.update
  cases hpeek : x.map.toLru.peek? key with
  | some value =>
    rw [hpeek] at hwithout
    exact hwithout.symm.trans (weight_concat _ key value).symm
  | none => rfl

theorem forget (h : Weighed x) (key : ContentKey) : Weighed (x.forget key) := by
  have hsim := h.wellFormed.remove key
  have hwithout := Lru.weight_without h.wellFormed.distinct key
  refine ⟨hsim.wellFormed, ?_⟩
  show x.residentBytes - ((x.map.remove key).1.getD #[]).size =
    weight (x.map.remove key).2.toLru.pairs
  rw [hsim.contents, hsim.answer, h.resident, ← hwithout]
  exact Nat.add_sub_cancel _ _

/-- Giving up the oldest value. Its bytes are among those that are counted. -/
theorem popOldest (h : Weighed x) :
    (x.map.toLru.pairs = [] ∧ x.map.popOldest.1 = none ∧
      Weighed { x with map := x.map.popOldest.2 }) ∨
    ∃ p rest, x.map.toLru.pairs = p :: rest ∧ x.map.popOldest.1 = some p ∧
      x.map.popOldest.2.toLru =
        { x.map.toLru with pairs := rest, evictions := x.map.toLru.evictions + 1 } ∧
      p.2.size ≤ x.residentBytes ∧
      Weighed { x with
        map := x.map.popOldest.2, residentBytes := x.residentBytes - p.2.size } := by
  have hsim := h.wellFormed.popOldest
  have hanswer := hsim.answer
  have hcontents := hsim.contents
  have hresident := h.resident
  unfold Lru.popOldest at hanswer hcontents
  cases hpairs : x.map.toLru.pairs with
  | nil =>
    rw [hpairs] at hanswer hcontents
    refine .inl ⟨rfl, hanswer, hsim.wellFormed, ?_⟩
    show x.residentBytes = weight x.map.popOldest.2.toLru.pairs
    rw [hcontents]
    exact hresident
  | cons p rest =>
    rw [hpairs] at hanswer hcontents hresident
    have hsum : x.residentBytes = p.2.size + weight rest := hresident
    refine .inr ⟨p, rest, rfl, hanswer, hcontents, ?_, hsim.wellFormed, ?_⟩
    · exact hsum ▸ Nat.le_add_right _ _
    · show x.residentBytes - p.2.size = weight x.map.popOldest.2.toLru.pairs
      rw [hcontents, hsum]
      exact Nat.add_sub_cancel_left _ _

theorem makeRoom (h : Weighed x) (length steps : Nat) : Weighed (x.makeRoom length steps) := by
  induction steps generalizing x with
  | zero => exact h
  | succ steps ih =>
    unfold ContentCache.makeRoom
    split
    · exact h
    · rcases h.popOldest with ⟨-, hnone, hempty⟩ | ⟨p, rest, -, hsome, -, -, hless⟩
      · split
        all_goals
          rename_i heq
          rw [heq] at hnone hempty
        · cases hnone
        · exact hempty
      · split
        all_goals
          rename_i heq
          rw [heq] at hsome hless
        · cases hsome
          exact ih hless
        · cases hsome

theorem store (h : Weighed x) (key : ContentKey) (value : Bytes) :
    Weighed (x.store key value).2 := by
  have hsim := h.wellFormed.insert key value
  obtain ⟨kept, hbefore, hafter⟩ := Lru.weight_insert h.wellFormed.distinct key value
  rw [← hsim.answer, ← h.resident] at hbefore
  rw [← hsim.answer, ← hsim.contents] at hafter
  have hreplaced : ∀ old new : Nat, x.residentBytes = kept + old →
      x.residentBytes - old + new = kept + new := by
    intro old new hold
    rw [hold, Nat.add_sub_cancel]
  unfold ContentCache.store
  cases hinsert : x.map.insert key value with
  | mk became map =>
    rw [hinsert] at hsim hbefore hafter
    cases became with
    | inserted => exact ⟨hsim.wellFormed, (congrArg (· + _) hbefore).trans hafter.symm⟩
    | replaced old => exact ⟨hsim.wellFormed, (hreplaced _ _ hbefore).trans hafter.symm⟩
    | evicted _ old => exact ⟨hsim.wellFormed, (hreplaced _ _ hbefore).trans hafter.symm⟩
    | rejected => exact ⟨hsim.wellFormed, hbefore.trans hafter.symm⟩

theorem put (h : Weighed x) (key : ContentKey) (value : Bytes) :
    Weighed (x.put key value).2 := by
  unfold ContentCache.put
  split
  · exact h
  · split
    · exact ⟨h.wellFormed, h.resident⟩
    · exact ((h.forget key).makeRoom _ _).store key value

/-- The bytes of the values of a table, and only they, are given back. -/
theorem invalidate (h : Weighed x) (table : TableId) : Weighed (x.invalidate table).2 ∧
    (x.invalidate table).2.residentBytes +
      weight (x.map.toLru.pairs.filter (·.1.table = table)) = x.residentBytes := by
  let keep : ContentKey × Bytes → Bool := fun p => p.1.table ≠ table
  have hsim := h.wellFormed.retain fun key _ => key.table ≠ table
  have hsum := weight_filter keep x.map.toLru.pairs
  have hgone : (x.map.toLru.pairs.filter fun p => !keep p) =
      x.map.toLru.pairs.filter (·.1.table = table) := by
    refine List.filter_congr fun p _ => ?_
    simp [keep]
  have hresident : (x.invalidate table).2.residentBytes =
      weight (x.map.toLru.pairs.filter keep) := by
    show x.residentBytes - weight (x.map.retain fun key _ => key.table ≠ table).1 = _
    rw [hsim.answer, h.resident, ← hsum]
    exact Nat.add_sub_cancel _ _
  refine ⟨⟨hsim.wellFormed, hresident.trans ?_⟩, ?_⟩
  · show _ = weight (x.map.retain fun key _ => key.table ≠ table).2.toLru.pairs
    rw [hsim.contents]
    rfl
  · rw [hresident, ← hgone, h.resident]
    exact hsum

end Weighed

end ContentCache

end VersionChain
