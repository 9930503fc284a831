import VersionChain.Proofs.Staging.Tokens

/-!
# All rings of a staging buffer

A staging buffer is right if all its rings are. While a version is being inserted, the ring of its
group may still have to be filled; the rings of the other groups stay right, or are given up.

* `Minds` — a current token leads to a right ring, and no other ring was changed;
* `Minds.push`, `Minds.commit`, `Minds.populate` — one call;
* `Rings` — all rings have right contents;
* `Tends` — so they have, and a current token leads to one of them;
* `Minds.tends` — with a slot for a group, its ring is tended;
* `Tends.rings` — once the ring is filled, all is as before.
-/

namespace VersionChain.StagingBuffer

variable {b c d : StagingBuffer} {t : Token} {held held' depth : Nat}

/-! ## The ring of a token -/

/-- The rings of other groups stay what they are, or are given up. -/
def OthersLeft (b c : StagingBuffer) (owner : GroupId) : Prop :=
  ∀ g, g ≠ owner → c.ringFor g = none ∨ c.ringFor g = b.ringFor g

/-- A current token leads to a ring with right contents, in which none but the first `held` versions
of its group are sealed. The rings of other groups are left from another buffer. -/
structure Minds (b c : StagingBuffer) (t : Token) (contentAt : Nat → Nat → Option Bytes)
    (held depth : Nat) : Prop where
  tracks : c.Tracks t contentAt held depth
  others : OthersLeft b c t.owner

section Minds

variable {contentAt : Nat → Nat → Option Bytes}

/-- A slot that is claimed anew is empty, and one that is kept holds what it held. -/
theorem Acquired.minds {isNew : Bool} {owner : GroupId} {columns bound : Nat}
    (h : Acquired b c t isNew owner depth columns) (hdepth : 0 < depth)
    (hrecords : ∀ ring, b.ringFor owner = some ring → ring.Records contentAt bound) :
    Minds b c t contentAt (if isNew then 0 else bound) depth where
  tracks := by
    obtain ⟨ring, hring, hringDepth, -, hnew, hold⟩ := h.ring
    refine ⟨ring, ⟨h.valid, h.current, ?_⟩, ?_, hringDepth⟩
    · rw [h.holder]
      exact hring
    · cases isNew with
      | true =>
        rw [hnew rfl]
        exact Ring.records_new hdepth _ _ _
      | false => exact hrecords ring (hold rfl)
  others := by
    rw [h.holder]
    exact h.others

/-- Changing the ring of the token alone. -/
theorem Minds.with_ring (h : Minds b c t contentAt held depth)
    (htracks : d.Tracks t contentAt held' depth) (hothers : OthersKeep c d t.owner) :
    Minds b d t contentAt held' depth where
  tracks := htracks
  others g hg := by
    rw [hothers g hg]
    exact h.others g hg

theorem Minds.mono (h : Minds b c t contentAt held depth) (hheld : held ≤ held') :
    Minds b c t contentAt held' depth :=
  h.with_ring (h.tracks.mono hheld fun _ _ _ hvalue => hvalue) (.refl c t.owner)

theorem Minds.push (h : Minds b c t contentAt held depth) {seq column : Nat} {value : Bytes}
    (hvalue : contentAt seq column = some value) :
    Minds b (c.push t seq column value).2 t contentAt held depth := by
  obtain ⟨htracks, hothers⟩ := h.tracks.push hvalue
  exact h.with_ring htracks hothers

theorem Minds.commit (h : Minds b c t contentAt held depth) {seq : Nat} (hseq : held < seq) :
    Minds b (c.commit t seq).2 t contentAt seq depth := by
  obtain ⟨-, htracks, hothers⟩ := h.tracks.commit hseq
  exact h.with_ring htracks hothers

theorem Minds.populate (h : Minds b c t contentAt 0 depth) {rows : List StagedRow}
    (hascending : rows.Pairwise fun x y => x.seq < y.seq)
    (hbound : ∀ row ∈ rows, 1 ≤ row.seq ∧ row.seq ≤ held)
    (htrue : ∀ row ∈ rows, Truthful contentAt row.seq 0 row.columns) :
    Minds b (c.populate t rows).2 t contentAt held depth := by
  obtain ⟨htracks, hothers⟩ := h.tracks.populate hascending hbound htrue
  exact h.with_ring htracks hothers

end Minds

/-! ## The rings of all groups -/

variable {content content' : GroupId → Nat → Nat → Option Bytes} {bound bound' : GroupId → Nat}

/-- The contents in all rings are right, and the versions sealed in the ring of a group are among its
first ones. -/
structure Rings (b : StagingBuffer) (content : GroupId → Nat → Nat → Option Bytes)
    (bound : GroupId → Nat) : Prop where
  valid : Valid b
  records : ∀ g ring, b.ringFor g = some ring → ring.Records (content g) (bound g)

/-- A current token leads to a ring in which none but the first `held` versions of its group are
sealed, and the rings of the other groups are right. -/
structure Tends (b : StagingBuffer) (t : Token) (content : GroupId → Nat → Nat → Option Bytes)
    (bound : GroupId → Nat) (held depth : Nat) : Prop where
  tracks : b.Tracks t (content t.owner) held depth
  others : ∀ g, g ≠ t.owner → ∀ ring, b.ringFor g = some ring → ring.Records (content g) (bound g)

theorem Rings.mono (h : Rings b content bound) (hbound : ∀ g, bound g ≤ bound' g)
    (hcontent : ∀ g seq column value, content g seq column = some value →
      content' g seq column = some value) : Rings b content' bound' where
  valid := h.valid
  records g ring hring := (h.records g ring hring).mono (hbound g) (hcontent g)

/-- While the ring of the token is minded, the others stay right. -/
theorem Minds.tends (h : Minds b c t (content t.owner) held depth)
    (hothers : ∀ g, g ≠ t.owner → ∀ ring, b.ringFor g = some ring →
      ring.Records (content g) (bound g)) : Tends c t content bound held depth where
  tracks := h.tracks
  others g hg ring hring := by
    rcases h.others g hg with hgone | hsame
    · rw [hgone] at hring
      cases hring
    · exact hothers g hg ring (hsame.symm.trans hring)

theorem Tends.self (h : Tends b t content bound held depth) :
    Minds b b t (content t.owner) held depth := ⟨h.tracks, fun _ _ => .inr rfl⟩

/-- The group of the token may get contents, as long as it keeps those that it has. -/
theorem Tends.imp (h : Tends b t content bound held depth)
    (hcontent : ∀ seq column value, content t.owner seq column = some value →
      content' t.owner seq column = some value)
    (hothers : ∀ g, g ≠ t.owner → content' g = content g ∧ bound' g = bound g) :
    Tends b t content' bound' held depth where
  tracks := h.tracks.mono (Nat.le_refl held) hcontent
  others g hg ring hring := by
    rw [(hothers g hg).1, (hothers g hg).2]
    exact h.others g hg ring hring

/-- With as many versions as the group has, or fewer, the ring is one of the right ones. -/
theorem Tends.rings (h : Tends b t content bound held depth) (hheld : held ≤ bound t.owner) :
    Rings b content bound where
  valid := h.tracks.valid
  records g ring hring := by
    by_cases hg : g = t.owner
    · subst hg
      exact (h.tracks.records hring).mono hheld fun _ _ _ hvalue => hvalue
    · exact h.others g hg ring hring

theorem Rings.invalidate (h : Rings b content bound) (table : TableId)
    (hsame : ∀ g, g.table ≠ table → content' g = content g ∧ bound' g = bound g) :
    Rings (b.invalidate table).2 content' bound' := by
  obtain ⟨hvalid, hrings⟩ := h.valid.invalidate table
  refine ⟨hvalid, fun g ring hring => ?_⟩
  rw [hrings] at hring
  split at hring
  · cases hring
  · rename_i htable
    rw [(hsame g htable).1, (hsame g htable).2]
    exact h.records g ring hring

theorem rings_new (slots : Nat) (content : GroupId → Nat → Nat → Option Bytes)
    (bound : GroupId → Nat) : Rings (.new slots) content bound where
  valid := valid_new slots
  records g ring hring := by
    rw [ringFor_new] at hring
    cases hring

end VersionChain.StagingBuffer
