import VersionChain.Proofs.Cache.Weight

/-!
# Forgetting a table

The caches of a service forget a table by keeping the entries of all others. No entry of the table
is left, and the others stay in the order in which they were used.

* `Purged` — a cache without the entries of a table;
* `Lru.peek?_retain` — what is found among the entries that are kept;
* `WellFormed.purged` — keeping the entries of all other tables.
-/

namespace VersionChain

open BoundedCache

variable {κ ν : Type} [DecidableEq κ]

/-- Of the entries of one cache, another has all but those of a table. Nothing else is different,
and `count` entries are gone. -/
structure Purged (tableOf : κ → TableId) (table : TableId) (count : Nat)
    (c c' : BoundedCache κ ν) : Prop where
  wellFormed : WellFormed c'
  gone : ∀ key, tableOf key = table → c'.peek? key = none
  others : ∀ key, tableOf key ≠ table → c'.peek? key = c.peek? key
  order : c'.toLru = { c.toLru with pairs := c.toLru.pairs.filter (tableOf ·.1 ≠ table) }
  counted : count + c'.len = c.len

/-- Looking up among the entries that are kept. -/
theorem Lru.peek?_retain (l : Lru κ ν) (keep : κ → Bool) (key : κ) :
    (l.retain fun k _ => keep k).2.peek? key = if keep key then l.peek? key else none := by
  unfold Lru.peek? Lru.retain
  simp only
  rw [List.find?_filter]
  simp only [decide_eq_true_eq]
  split
  · rename_i hkeep
    have hsame : (fun p : κ × ν => decide (keep p.1 = true ∧ p.1 = key)) =
        fun p => decide (p.1 = key) := by
      refine funext fun p => decide_eq_decide.mpr ⟨And.right, fun hkey => ⟨?_, hkey⟩⟩
      rw [hkey]
      exact hkeep
    rw [hsame]
  · rename_i hdrop
    rw [List.find?_eq_none.mpr fun p _ hp => ?_]
    · rfl
    · obtain ⟨hkeep, hkey⟩ := of_decide_eq_true hp
      exact hdrop (hkey ▸ hkeep)

theorem BoundedCache.WellFormed.purged {c : BoundedCache κ ν} (h : WellFormed c)
    (tableOf : κ → TableId) (table : TableId) :
    Purged tableOf table (c.retain fun k _ => tableOf k ≠ table).1.length c
      (c.retain fun k _ => tableOf k ≠ table).2 := by
  have hsim := h.retain fun k _ => tableOf k ≠ table
  have hpeek : ∀ key, (c.retain fun k _ => tableOf k ≠ table).2.peek? key =
      if tableOf key ≠ table then c.peek? key else none := by
    intro key
    rw [hsim.wellFormed.peek?, hsim.contents, h.peek?,
      Lru.peek?_retain c.toLru (fun k => tableOf k ≠ table) key]
    simp only [decide_eq_true_eq]
  refine ⟨hsim.wellFormed, fun key hkey => ?_, fun key hkey => ?_, hsim.contents, ?_⟩
  · rw [hpeek, if_neg fun hne => hne hkey]
  · rw [hpeek, if_pos hkey]
  · rw [← hsim.wellFormed.length_pairs, ← h.length_pairs, hsim.contents, hsim.answer]
    unfold Lru.retain
    rw [Nat.add_comm]
    exact (List.length_eq_length_filter_add _).symm

end VersionChain
