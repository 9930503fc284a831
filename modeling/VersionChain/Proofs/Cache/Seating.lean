import Mathlib.Data.Finset.Card
import VersionChain.Proofs.Cache.Slots

/-!
# Seats of keys

Every live slot is seated in a bucket that the search for its key reaches before any empty
bucket. That is all the search needs: it does not matter how keys are hashed, nor where
tombstones have been left.

* `SeatedOn` — the slots with a property are seated, and no bucket leads elsewhere;
* `find?_eq_some_iff` — the search finds exactly the live slot with the key;
* `SeatedOn.occupy`, `SeatedOn.leave` — a slot takes a seat on the way of its key, and leaves it;
* `SeatedOn.exists_vacantBucket?` — with more buckets than slots a seat is found for every key.
-/

namespace VersionChain.BoundedCache

variable {κ ν : Type}

/-! ## The way of a key -/

/-- The bucket at which the search for a key arrives after `d` steps. -/
def place (c : BoundedCache κ ν) (key : κ) (d : Nat) : Nat := (c.home key + d) % c.buckets.size

theorem bucketAfter_place (c : BoundedCache κ ν) (key : κ) (d : Nat) :
    c.bucketAfter (c.place key d) = c.place key (d + 1) := by
  unfold bucketAfter place
  rw [Nat.mod_add_mod, Nat.add_assoc]

theorem home_lt (c : BoundedCache κ ν) (key : κ) (h : 0 < c.buckets.size) :
    c.home key < c.buckets.size :=
  Nat.mod_lt _ h

theorem place_zero (c : BoundedCache κ ν) (key : κ) : c.place key 0 = c.home key := by
  unfold place home
  rw [Nat.add_zero, Nat.mod_mod]

theorem place_lt (c : BoundedCache κ ν) (key : κ) (d : Nat) (h : 0 < c.buckets.size) :
    c.place key d < c.buckets.size :=
  Nat.mod_lt _ h

/-- The way of a key passes every bucket. -/
theorem exists_place_eq (c : BoundedCache κ ν) (key : κ) {pos : Nat} (h : pos < c.buckets.size) :
    ∃ d < c.buckets.size, c.place key d = pos := by
  have hhome : c.home key < c.buckets.size := home_lt c key (by omega)
  unfold place
  by_cases hle : c.home key ≤ pos
  · refine ⟨pos - c.home key, by omega, ?_⟩
    rw [Nat.add_sub_cancel' hle, Nat.mod_eq_of_lt h]
  · refine ⟨c.buckets.size + pos - c.home key, by omega, ?_⟩
    rw [Nat.add_sub_cancel' (by omega), Nat.add_mod_left, Nat.mod_eq_of_lt h]

/-- The search for a key comes to bucket `pos` without meeting an empty one before. -/
def Reaches (c : BoundedCache κ ν) (key : κ) (pos : Nat) : Prop :=
  ∃ d < c.buckets.size, c.place key d = pos ∧
    ∀ d' < d, c.buckets[c.place key d']? ≠ some .empty

/-- A key reaches a bucket as long as no bucket becomes empty. -/
theorem Reaches.mono {c d : BoundedCache κ ν} {key : κ} {pos : Nat} (h : c.Reaches key pos)
    (hhash : d.hash = c.hash) (hsize : d.buckets.size = c.buckets.size)
    (hempty : ∀ p : Nat, d.buckets[p]? = some Bucket.empty → c.buckets[p]? = some Bucket.empty) :
    d.Reaches key pos := by
  obtain ⟨n, hn, hpos, hway⟩ := h
  have hplace : ∀ m, d.place key m = c.place key m := by
    intro m
    unfold place home
    rw [hhash, hsize]
  refine ⟨n, by rw [hsize]; exact hn, by rw [hplace]; exact hpos, ?_⟩
  intro m hm hp
  rw [hplace] at hp
  exact hway m hm (hempty _ hp)

/-! ## Seated slots -/

/-- The live slots with property `P` are seated where their keys reach them, and every occupied
bucket is the seat of one of them. -/
structure SeatedOn (c : BoundedCache κ ν) (P : Nat → Prop) : Prop where
  occupied : ∀ pos i, c.buckets[pos]? = some (.occupied i) →
    P i ∧ ∃ e, c.entry? i = some e ∧ e.bucket = pos
  seat : ∀ i e, P i → c.entry? i = some e → c.buckets[e.bucket]? = some (.occupied i)
  reach : ∀ i e, P i → c.entry? i = some e → c.Reaches e.key e.bucket

/-- No key is in two live slots. -/
def DistinctKeys (c : BoundedCache κ ν) : Prop :=
  ∀ i j e e', c.entry? i = some e → c.entry? j = some e' → e.key = e'.key → i = j

/-- Every live slot is seated, and no key is in two of them. -/
structure Seated (c : BoundedCache κ ν) : Prop where
  on : SeatedOn c fun _ => True
  distinct : DistinctKeys c

/-- An entry whose key and bucket are as before was there before. -/
theorem entry_of_seat {c d : BoundedCache κ ν} {i : Nat} {e : Entry κ ν}
    (h : (d.entry? i).map Entry.seat = (c.entry? i).map Entry.seat) (he : d.entry? i = some e) :
    ∃ e', c.entry? i = some e' ∧ e'.key = e.key ∧ e'.bucket = e.bucket := by
  rw [he] at h
  obtain ⟨e', he', heq⟩ := Option.map_eq_some_iff.mp h.symm
  simp only [Entry.seat, Prod.mk.injEq] at heq
  exact ⟨e', he', heq⟩

/-- Being seated depends on the hash, the buckets, and the key and bucket of each entry. -/
theorem SeatedOn.congr {c d : BoundedCache κ ν} {P : Nat → Prop} (h : SeatedOn c P)
    (hhash : d.hash = c.hash) (hbuckets : d.buckets = c.buckets)
    (hseat : ∀ i, (d.entry? i).map Entry.seat = (c.entry? i).map Entry.seat) : SeatedOn d P := by
  refine ⟨?_, ?_, ?_⟩
  · intro pos i hpos
    rw [hbuckets] at hpos
    obtain ⟨hP, e, he, hbucket⟩ := h.occupied pos i hpos
    obtain ⟨e', he', -, hbucket'⟩ := entry_of_seat (hseat i).symm he
    exact ⟨hP, e', he', hbucket'.trans hbucket⟩
  · intro i e hP he
    obtain ⟨e', he', -, hbucket⟩ := entry_of_seat (hseat i) he
    rw [hbuckets, ← hbucket]
    exact h.seat i e' hP he'
  · intro i e hP he
    obtain ⟨e', he', hkey, hbucket⟩ := entry_of_seat (hseat i) he
    rw [← hkey, ← hbucket]
    exact (h.reach i e' hP he').mono hhash (by rw [hbuckets]) fun p hp => by rwa [hbuckets] at hp

theorem DistinctKeys.congr {c d : BoundedCache κ ν} (h : DistinctKeys c)
    (hseat : ∀ i, (d.entry? i).map Entry.seat = (c.entry? i).map Entry.seat) : DistinctKeys d := by
  intro i j e e' he he' hkey
  obtain ⟨x, hx, hxkey, -⟩ := entry_of_seat (hseat i) he
  obtain ⟨y, hy, hykey, -⟩ := entry_of_seat (hseat j) he'
  exact h i j x y hx hy (by rw [hxkey, hykey, hkey])

theorem Seated.congr {c d : BoundedCache κ ν} (h : Seated c) (hhash : d.hash = c.hash)
    (hbuckets : d.buckets = c.buckets)
    (hseat : ∀ i, (d.entry? i).map Entry.seat = (c.entry? i).map Entry.seat) : Seated d :=
  ⟨h.on.congr hhash hbuckets hseat, h.distinct.congr hseat⟩

/-- Only live slots count. -/
theorem SeatedOn.imp {c : BoundedCache κ ν} {P Q : Nat → Prop} (h : SeatedOn c P)
    (hPQ : ∀ i e, c.entry? i = some e → (P i ↔ Q i)) : SeatedOn c Q where
  occupied pos i hpos := by
    obtain ⟨hP, e, he, hbucket⟩ := h.occupied pos i hpos
    exact ⟨(hPQ i e he).mp hP, e, he, hbucket⟩
  seat i e hQ he := h.seat i e ((hPQ i e he).mpr hQ) he
  reach i e hQ he := h.reach i e ((hPQ i e he).mpr hQ) he

/-! ## Taking and leaving a seat -/

/-- A bucket that is written with anything else does not become empty. -/
theorem empty_of_written {buckets : Array Bucket} {written p : Nat} {b : Bucket}
    (hb : b ≠ .empty) (h : (buckets.setIfInBounds written b)[p]? = some .empty) :
    buckets[p]? = some .empty := by
  rw [Array.getElem?_setIfInBounds] at h
  split at h
  · split at h
    · exact absurd (Option.some.inj h) hb
    · cases h
  · exact h

/-- A slot that had no seat takes one that its key reaches and that led nowhere. -/
theorem SeatedOn.occupy {c d : BoundedCache κ ν} {P : Nat → Prop} {i : Nat} {e : Entry κ ν}
    (h : SeatedOn c P) (hi : ¬ P i) (hreach : c.Reaches e.key e.bucket)
    (hvacant : ∃ b, c.buckets[e.bucket]? = some b ∧ ∀ j, b ≠ .occupied j)
    (hhash : d.hash = c.hash)
    (hbuckets : d.buckets = c.buckets.setIfInBounds e.bucket (.occupied i))
    (he : d.entry? i = some e)
    (hothers : ∀ j, j ≠ i → (d.entry? j).map Entry.seat = (c.entry? j).map Entry.seat) :
    SeatedOn d fun j => P j ∨ j = i := by
  obtain ⟨b, hb, hnot⟩ := hvacant
  have hlt : e.bucket < c.buckets.size := (Array.getElem?_eq_some_iff.mp hb).1
  have hself : d.buckets[e.bucket]? = some (.occupied i) := by
    rw [hbuckets, Array.getElem?_setIfInBounds_self_of_lt hlt]
  have hother : ∀ p, p ≠ e.bucket → d.buckets[p]? = c.buckets[p]? := by
    intro p hp
    rw [hbuckets, Array.getElem?_setIfInBounds_ne (Ne.symm hp)]
  have hsize : d.buckets.size = c.buckets.size := by rw [hbuckets, Array.size_setIfInBounds]
  have hempty : ∀ p : Nat, d.buckets[p]? = some Bucket.empty →
      c.buckets[p]? = some Bucket.empty := by
    intro p hp
    rw [hbuckets] at hp
    exact empty_of_written (by simp) hp
  refine ⟨?_, ?_, ?_⟩
  · intro pos j hpos
    by_cases heq : pos = e.bucket
    · rw [heq, hself] at hpos
      cases hpos
      exact ⟨.inr rfl, e, he, heq.symm⟩
    · rw [hother pos heq] at hpos
      obtain ⟨hP, x, hx, hbucket⟩ := h.occupied pos j hpos
      have hji : j ≠ i := fun hji => hi (hji ▸ hP)
      obtain ⟨x', hx', -, hbucket'⟩ := entry_of_seat (hothers j hji).symm hx
      exact ⟨.inl hP, x', hx', hbucket'.trans hbucket⟩
  · intro j x hj hx
    by_cases hji : j = i
    · subst hji
      rw [he] at hx
      cases hx
      exact hself
    · obtain ⟨y, hy, -, hbucket⟩ := entry_of_seat (hothers j hji) hx
      have hseat := h.seat j y (hj.resolve_right hji) hy
      -- the bucket that was taken led nowhere, so it was nobody's seat
      have hne : y.bucket ≠ e.bucket := by
        intro heq
        rw [heq, hb] at hseat
        exact hnot j (Option.some.inj hseat)
      rw [← hbucket, hother _ hne]
      exact hseat
  · intro j x hj hx
    by_cases hji : j = i
    · subst hji
      rw [he] at hx
      cases hx
      exact hreach.mono hhash hsize hempty
    · obtain ⟨y, hy, hkey, hbucket⟩ := entry_of_seat (hothers j hji) hx
      rw [← hkey, ← hbucket]
      exact (h.reach j y (hj.resolve_right hji) hy).mono hhash hsize hempty

/-- A slot that leaves its seat puts a tombstone there. No bucket becomes empty, so every other
key still reaches its seat. -/
theorem SeatedOn.leave {c d : BoundedCache κ ν} {P : Nat → Prop} {i : Nat} {e : Entry κ ν}
    (h : SeatedOn c P) (hi : P i) (he : c.entry? i = some e) (hhash : d.hash = c.hash)
    (hbuckets : d.buckets = c.buckets.setIfInBounds e.bucket .tombstone)
    (hgone : d.entry? i = none)
    (hothers : ∀ j, j ≠ i → (d.entry? j).map Entry.seat = (c.entry? j).map Entry.seat) :
    SeatedOn d P := by
  have hseat := h.seat i e hi he
  have hlt : e.bucket < c.buckets.size := (Array.getElem?_eq_some_iff.mp hseat).1
  have hself : d.buckets[e.bucket]? = some .tombstone := by
    rw [hbuckets, Array.getElem?_setIfInBounds_self_of_lt hlt]
  have hother : ∀ p, p ≠ e.bucket → d.buckets[p]? = c.buckets[p]? := by
    intro p hp
    rw [hbuckets, Array.getElem?_setIfInBounds_ne (Ne.symm hp)]
  have hlive : ∀ {j x}, d.entry? j = some x → j ≠ i := by
    intro j x hx hji
    rw [hji, hgone] at hx
    cases hx
  refine ⟨?_, ?_, ?_⟩
  · -- the bucket that was left leads nowhere now
    intro pos j hpos
    have hne : pos ≠ e.bucket := by
      intro heq
      rw [heq, hself] at hpos
      cases hpos
    rw [hother pos hne] at hpos
    obtain ⟨hP, x, hx, hbucket⟩ := h.occupied pos j hpos
    have hji : j ≠ i := by
      intro hji
      rw [hji, he] at hx
      cases hx
      exact hne hbucket.symm
    obtain ⟨x', hx', -, hbucket'⟩ := entry_of_seat (hothers j hji).symm hx
    exact ⟨hP, x', hx', hbucket'.trans hbucket⟩
  · intro j x hP hx
    have hji := hlive hx
    obtain ⟨y, hy, -, hbucket⟩ := entry_of_seat (hothers j hji) hx
    have hyseat := h.seat j y hP hy
    -- a bucket leads to one slot only
    have hne : y.bucket ≠ e.bucket := by
      intro heq
      rw [heq, hseat] at hyseat
      cases hyseat
      exact hji rfl
    rw [← hbucket, hother _ hne]
    exact hyseat
  · intro j x hP hx
    obtain ⟨y, hy, hkey, hbucket⟩ := entry_of_seat (hothers j (hlive hx)) hx
    rw [← hkey, ← hbucket]
    refine (h.reach j y hP hy).mono hhash (by rw [hbuckets, Array.size_setIfInBounds]) ?_
    intro p hp
    rw [hbuckets] at hp
    exact empty_of_written (by simp) hp

/-! ## Searching -/

variable [DecidableEq κ]

/-- What the search finds is a live slot with the key. -/
theorem probe_sound {c : BoundedCache κ ν} {key : κ} {steps pos i : Nat}
    (h : c.probe key steps pos = some i) : ∃ e, c.entry? i = some e ∧ e.key = key := by
  induction steps generalizing pos with
  | zero => cases h
  | succ steps ih =>
    simp only [probe] at h
    split at h
    · cases h
    · cases h
    · exact ih h
    · rename_i slot _
      split at h
      · rename_i hkey
        cases h
        rw [Option.any_eq_true] at hkey
        obtain ⟨e, he, hdec⟩ := hkey
        exact ⟨e, he, by simpa using hdec⟩
      · exact ih h

/-- The search goes on until it comes to the seat of the key. -/
theorem Seated.probe_place {c : BoundedCache κ ν} (h : Seated c) {i : Nat} {e : Entry κ ν}
    (he : c.entry? i = some e) {d : Nat} (hseat : c.place e.key d = e.bucket)
    (hway : ∀ d' < d, c.buckets[c.place e.key d']? ≠ some .empty) {n start steps : Nat}
    (hd : start + n = d) (hsteps : n < steps) :
    c.probe e.key steps (c.place e.key start) = some i := by
  induction n generalizing start steps with
  | zero =>
    obtain ⟨steps, rfl⟩ : ∃ m, steps = m + 1 := ⟨steps - 1, by omega⟩
    rw [Nat.add_zero] at hd
    subst hd
    have hbucket := h.on.seat i e trivial he
    simp only [probe, hseat, hbucket, he]
    simp
  | succ n ih =>
    obtain ⟨steps, rfl⟩ : ∃ m, steps = m + 1 := ⟨steps - 1, by omega⟩
    have hnext : c.probe e.key steps (c.bucketAfter (c.place e.key start)) = some i := by
      rw [bucketAfter_place]
      exact ih (by omega) (by omega)
    have hsize : 0 < c.buckets.size := by
      have := (Array.getElem?_eq_some_iff.mp (h.on.seat i e trivial he)).1
      omega
    have hplace := place_lt c e.key start hsize
    simp only [probe]
    cases hb : c.buckets[c.place e.key start]? with
    | none => exact absurd (Array.getElem?_eq_none_iff.mp hb) (by omega)
    | some b =>
      cases b with
      | empty => exact absurd hb (hway start (by omega))
      | tombstone => exact hnext
      | occupied slot =>
        simp only
        split
        · -- no other live slot has the key
          rename_i hkey
          rw [Option.any_eq_true] at hkey
          obtain ⟨x, hx, hdec⟩ := hkey
          rw [h.distinct slot i x e hx he (by simpa using hdec)]
        · exact hnext

/-- The search finds exactly the live slot with the key, however keys are hashed. -/
theorem Seated.find?_eq_some_iff {c : BoundedCache κ ν} (h : Seated c) {key : κ} {i : Nat} :
    c.find? key = some i ↔ ∃ e, c.entry? i = some e ∧ e.key = key := by
  constructor
  · exact probe_sound
  · rintro ⟨e, he, rfl⟩
    obtain ⟨d, hd, hseat, hway⟩ := h.on.reach i e trivial he
    unfold find?
    rw [← place_zero]
    exact h.probe_place he hseat hway (Nat.zero_add d) hd

theorem Seated.find?_eq_none_iff {c : BoundedCache κ ν} (h : Seated c) {key : κ} :
    c.find? key = none ↔ ∀ i e, c.entry? i = some e → e.key ≠ key := by
  constructor
  · intro hnone i e he hkey
    rw [h.find?_eq_some_iff.mpr ⟨e, he, hkey⟩] at hnone
    cases hnone
  · intro hall
    cases hfind : c.find? key with
    | none => rfl
    | some i =>
      obtain ⟨e, he, hkey⟩ := probe_sound hfind
      exact absurd hkey (hall i e he)

/-! ## Finding a bucket that leads nowhere -/

omit [DecidableEq κ]

/-- A search that ends in a bucket passed only occupied ones before. -/
theorem probeVacant_eq_some {c : BoundedCache κ ν} {key : κ} {steps start pos : Nat}
    (h : c.probeVacant steps (c.place key start) = some pos) :
    ∃ d, start ≤ d ∧ d < start + steps ∧ c.place key d = pos ∧
      (∃ b, c.buckets[pos]? = some b ∧ ∀ i, b ≠ .occupied i) ∧
      ∀ d', start ≤ d' → d' < d → c.buckets[c.place key d']? ≠ some .empty := by
  induction steps generalizing start with
  | zero => cases h
  | succ steps ih =>
    simp only [probeVacant] at h
    split at h
    · cases h
    · rename_i hb
      rw [bucketAfter_place] at h
      obtain ⟨d, hle, hlt, hpos, hvacant, hway⟩ := ih h
      refine ⟨d, by omega, by omega, hpos, hvacant, ?_⟩
      intro d' hstart hd'
      by_cases heq : d' = start
      · subst heq
        rw [hb]
        simp
      · exact hway d' (by omega) hd'
    · rename_i b hoccupied hb
      cases h
      refine ⟨start, Nat.le_refl _, by omega, rfl, ⟨b, hb, fun i hi => hoccupied i hi⟩, ?_⟩
      intro d' hstart hd'
      omega

/-- The bucket that is offered to a key lies on its way and leads nowhere. -/
theorem vacantBucket?_eq_some {c : BoundedCache κ ν} {key : κ} {pos : Nat}
    (h : c.vacantBucket? key = some pos) :
    c.Reaches key pos ∧ ∃ b, c.buckets[pos]? = some b ∧ ∀ i, b ≠ .occupied i := by
  unfold vacantBucket? at h
  rw [← place_zero] at h
  obtain ⟨d, -, hlt, hpos, hvacant, hway⟩ := probeVacant_eq_some h
  exact ⟨⟨d, by omega, hpos, fun d' hd' => hway d' (Nat.zero_le _) hd'⟩, hvacant⟩

/-- A search that ends nowhere has met occupied buckets only. -/
theorem probeVacant_eq_none {c : BoundedCache κ ν} {key : κ} {steps start : Nat}
    (h : c.probeVacant steps (c.place key start) = none) (hsize : 0 < c.buckets.size) :
    ∀ d, start ≤ d → d < start + steps →
      ∃ i, c.buckets[c.place key d]? = some (.occupied i) := by
  induction steps generalizing start with
  | zero =>
    intro d h₁ h₂
    omega
  | succ steps ih =>
    intro d h₁ h₂
    have hplace := place_lt c key start hsize
    simp only [probeVacant] at h
    split at h
    · rename_i hb
      exact absurd (Array.getElem?_eq_none_iff.mp hb) (by omega)
    · rename_i i hb
      by_cases heq : d = start
      · subst heq
        exact ⟨i, hb⟩
      · rw [bucketAfter_place] at h
        exact ih h d (by omega) (by omega)
    · cases h

/-- As long as there are more buckets than seated slots, some bucket leads nowhere: distinct
occupied buckets lead to distinct slots. -/
theorem SeatedOn.exists_vacant_of_card {c : BoundedCache κ ν} {P : Nat → Prop} (h : SeatedOn c P)
    {taken : Finset Nat} (htaken : ∀ i e, P i → c.entry? i = some e → i ∈ taken)
    (hcard : taken.card < c.buckets.size) :
    ∃ pos < c.buckets.size, ∀ i, c.buckets[pos]? ≠ some (.occupied i) := by
  by_contra hnone
  have hall : ∀ pos, pos < c.buckets.size → ∃ i, c.buckets[pos]? = some (.occupied i) := by
    intro pos hpos
    by_contra hne
    exact hnone ⟨pos, hpos, fun i hi => hne ⟨i, hi⟩⟩
  choose! slot hslot using hall
  have hmaps : ∀ pos ∈ Finset.range c.buckets.size, slot pos ∈ taken := by
    intro pos hpos
    obtain ⟨hP, e, he, -⟩ := h.occupied pos _ (hslot pos (Finset.mem_range.mp hpos))
    exact htaken _ e hP he
  obtain ⟨p, hp, q, hq, hne, heq⟩ := Finset.exists_ne_map_eq_of_card_lt_of_maps_to
    (by rw [Finset.card_range]; exact hcard) hmaps
  obtain ⟨-, e, he, hpb⟩ := h.occupied p _ (hslot p (Finset.mem_range.mp hp))
  obtain ⟨-, e', he', hqb⟩ := h.occupied q _ (hslot q (Finset.mem_range.mp hq))
  rw [heq, he'] at he
  cases he
  exact hne (hpb.symm.trans hqb)

theorem SeatedOn.exists_vacant {c : BoundedCache κ ν} {P : Nat → Prop} (h : SeatedOn c P)
    (hsize : c.slots.size < c.buckets.size) :
    ∃ pos < c.buckets.size, ∀ i, c.buckets[pos]? ≠ some (.occupied i) :=
  h.exists_vacant_of_card (fun _ _ _ he => Finset.mem_range.mpr (lt_of_entry he))
    (by rwa [Finset.card_range])

/-- A bucket that leads nowhere is found on the way of every key, this one or one before it. -/
theorem exists_vacantBucket?_of_vacant {c : BoundedCache κ ν}
    (h : ∃ pos < c.buckets.size, ∀ i, c.buckets[pos]? ≠ some (.occupied i)) (key : κ) :
    ∃ pos, c.vacantBucket? key = some pos := by
  obtain ⟨pos, hpos, hvacant⟩ := h
  cases hfound : c.vacantBucket? key with
  | some found => exact ⟨found, rfl⟩
  | none =>
    obtain ⟨d, hd, rfl⟩ := exists_place_eq c key hpos
    unfold vacantBucket? at hfound
    rw [← place_zero] at hfound
    obtain ⟨i, hi⟩ := probeVacant_eq_none hfound (by omega) d (Nat.zero_le _) (by omega)
    exact absurd hi (hvacant i)

theorem SeatedOn.exists_vacantBucket? {c : BoundedCache κ ν} {P : Nat → Prop} (h : SeatedOn c P)
    (hsize : c.slots.size < c.buckets.size) (key : κ) : ∃ pos, c.vacantBucket? key = some pos :=
  exists_vacantBucket?_of_vacant (h.exists_vacant hsize) key

end VersionChain.BoundedCache
