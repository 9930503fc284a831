import VersionChain.Proofs.Store.Quiet

/-!
# Chains lead to answers

What rebuilding a version may answer is settled along its chain: by the record of the version and,
unless it stands on its own, by what its base may answer. The way back gathers the records of a
chain, and the way forwards passes an answer from one record to the next. So if the answers fit the
rows, and every content that is cached is one of them, rebuilding gives an answer, and what it
caches on the way is right again.

* `relink` — the answer for a version by its record, from the answer for its base;
* `Fits` — answers that fit the rows and the records in them;
* `Continues` — records that pass answers on;
* `ends_ascend`, `ends_descend` — the way forwards and the way back;
* `ends_resolve` — what rebuilding gives.
-/

namespace VersionChain.StoreM

/-- What is said of a column of a version: its content, that there is none, or a failure. -/
abbrev Answer := Except StoreError (Option Bytes)

variable (codec : Codec) (g : GroupId) (column : Nat)

/-- The answer for a version by its record, from the content of its base. -/
def decodeOn (seq : Nat) (record base : Bytes) : Answer :=
  match codec.decode base record with
  | .ok content => .ok (some content)
  | .error cause => .error (.corrupt ⟨g, seq⟩ column cause)

/-- The answer for a version by its record, from the answer for its base. Without a content of the
base there is none. -/
def relink (seq : Nat) (record : Bytes) : Answer → Answer
  | .ok (some base) => decodeOn codec g column seq record base
  | answer => answer

/-- Answers for the versions of a group that fit its rows: each of them is settled by the record of
the version and the answer for its base. -/
structure Fits (lookup : Nat → Option StoredRow) (answers : Nat → Answer → Prop) : Prop where
  /-- There is no version 0. -/
  zero : answers 0 (.ok none)
  missing : ∀ seq, 0 < seq → (lookup seq).bind (·.columns[column]?) = none →
    answers seq (.ok none)
  untagged : ∀ seq record cause, 0 < seq →
    (lookup seq).bind (·.columns[column]?) = some record → codec.tagOf record = .error cause →
      answers seq (.error (.corrupt ⟨g, seq⟩ column cause))
  whole : ∀ seq record tag, 0 < seq → (lookup seq).bind (·.columns[column]?) = some record →
    codec.tagOf record = .ok tag → tag.isKeyframe = true →
      answers seq (decodeOn codec g column seq record #[])
  baseless : ∀ seq record tag, 0 < seq → (lookup seq).bind (·.columns[column]?) = some record →
    codec.tagOf record = .ok tag → tag.isKeyframe = false → tag.baseSeq seq = none →
      answers seq (.ok none)
  back : ∀ seq record tag base answer, 0 < seq →
    (lookup seq).bind (·.columns[column]?) = some record → codec.tagOf record = .ok tag →
      tag.isKeyframe = false → tag.baseSeq seq = some base → answers base answer →
        answers seq (relink codec g column seq record answer)

/-- The records pass each answer for version `seq` on to an answer for version `target`. -/
def Continues (answers : Nat → Answer → Prop) : (seq : Nat) → List (Nat × Bytes) →
    (target : Nat) → Prop
  | seq, [], target => seq = target
  | seq, (next, record) :: later, target =>
    (∀ answer, answers seq answer → answers next (relink codec g column next record answer)) ∧
      Continues answers next later target

variable {codec g column} {answers : Nat → Answer → Prop} {lookup : Nat → Option StoredRow}
  {seq target : Nat} {record : Bytes} {later : List (Nat × Bytes)}

/-- Where there is no content, there is none later on. -/
theorem Continues.answers_of_stuck (h : Continues codec g column answers seq later target)
    (answer : Answer) (hstuck : ∀ value, answer ≠ .ok (some value)) (hanswer : answers seq answer) :
    answers target answer := by
  induction later generalizing seq with
  | nil => exact h ▸ hanswer
  | cons first rest ih =>
    obtain ⟨hpass, hrest⟩ := h
    have hsame : relink codec g column first.1 first.2 answer = answer := by
      unfold relink
      split
      · rename_i value
        exact absurd rfl (hstuck value)
      · rfl
    refine ih hrest ?_
    have hnext := hpass answer hanswer
    rw [hsame] at hnext
    exact hnext

theorem Continues.answers_error (h : Continues codec g column answers seq later target)
    {cause : StoreError} (hanswer : answers seq (.error cause)) : answers target (.error cause) :=
  h.answers_of_stuck (.error cause) (fun _ => nofun) hanswer

theorem Continues.answers_none (h : Continues codec g column answers seq later target)
    (hanswer : answers seq (.ok none)) : answers target (.ok none) :=
  h.answers_of_stuck (.ok none) (fun _ => nofun) hanswer

/-- What the records of a chain are carried out on. -/
inductive Opens (codec : Codec) (g : GroupId) (column : Nat) (answers : Nat → Answer → Prop)
    (target : Nat) : Chain → Prop where
  /-- The content itself was cached. -/
  | done {value : Bytes} (hvalue : answers target (.ok (some value))) :
    Opens codec g column answers target ⟨some value, []⟩
  | link {base : Option Bytes} {seq : Nat} {record : Bytes} {later : List (Nat × Bytes)}
    (hfirst : answers seq (decodeOn codec g column seq record (base.getD #[])))
    (hlater : Continues codec g column answers seq later target) :
    Opens codec g column answers target ⟨base, (seq, record) :: later⟩

/-- A content that was cached, with the records behind it. -/
theorem Continues.opens (h : Continues codec g column answers seq later target) {value : Bytes}
    (hvalue : answers seq (.ok (some value))) :
    Opens codec g column answers target ⟨some value, later⟩ := by
  cases later with
  | nil => exact .done (h ▸ hvalue)
  | cons first rest => exact .link (h.1 _ hvalue) h.2

/-! ## There and back -/

section Walk

variable {P : ContentKey → Bytes → Prop} {s : Store MemoryRows} (hcodec : s.codec = codec)
  (hserves : s.service.content.Serves P)
  (hright : ∀ seq value, P (contentKey ⟨g, seq⟩ column) value ↔ answers seq (.ok (some value)))

include hcodec hserves hright

/-- A record is carried out, and what comes of it is cached before the way goes on. -/
theorem ends_ascend_cons {base : Option Bytes}
    (hfirst : answers seq (decodeOn codec g column seq record (base.getD #[])))
    (hlater : Continues codec g column answers seq later target)
    (hrest : ∀ decoded s₁, answers seq (.ok (some decoded)) → Quiet P s s₁ →
      Ends (ascend g column (some decoded) later) s₁ fun answer s' =>
        answers target answer ∧ Quiet P s₁ s') :
    Ends (ascend g column base ((seq, record) :: later)) s fun answer s' =>
      answers target answer ∧ Quiet P s s' := by
  refine Ends.bind_of_eq (get_eq s) ?_
  rw [hcodec]
  unfold decodeOn at hfirst
  cases hdecode : codec.decode (base.getD #[]) record with
  | error cause =>
    rw [hdecode] at hfirst
    exact ⟨hlater.answers_error hfirst, quiet_refl hserves⟩
  | ok decoded =>
    rw [hdecode] at hfirst
    obtain ⟨s₁, hput, hs₁⟩ := runs_content_put hserves ((hright seq decoded).mpr hfirst)
    refine Ends.bind_of_eq hput ((hrest decoded s₁ hfirst hs₁).imp ?_)
    exact fun answer s₂ h => ⟨h.1, hs₁.trans h.2⟩

/-- The way forwards along a chain ends with an answer for its last version. -/
theorem ends_ascend {base : Option Bytes}
    (hfirst : answers seq (decodeOn codec g column seq record (base.getD #[])))
    (hlater : Continues codec g column answers seq later target) :
    Ends (ascend g column base ((seq, record) :: later)) s fun answer s' =>
      answers target answer ∧ Quiet P s s' := by
  induction later generalizing s seq record base with
  | nil =>
    refine ends_ascend_cons hcodec hserves hright hfirst hlater fun decoded s₁ hdecoded hs₁ => ?_
    exact ⟨hlater ▸ hdecoded, quiet_refl hs₁.serves⟩
  | cons next rest ih =>
    refine ends_ascend_cons hcodec hserves hright hfirst hlater fun decoded s₁ hdecoded hs₁ => ?_
    -- what was decoded is the base of the next record
    exact ih (hs₁.codec.trans hcodec) hs₁.serves (hlater.1 _ hdecoded) hlater.2

/-- What the way back leads to: an answer, or a chain that has one. -/
def LeadsTo (codec : Codec) (g : GroupId) (column : Nat) (answers : Nat → Answer → Prop)
    (target : Nat) : Except StoreError (Option Chain) → Prop
  | .error cause => answers target (.error cause)
  | .ok none => answers target (.ok none)
  | .ok (some chain) => Opens codec g column answers target chain

/-- The way back along a chain leads to an answer for its last version. -/
theorem ends_descend (hfits : Fits codec g column lookup answers)
    (hfinds : Finds s.rows g lookup) (hseq : 0 < seq)
    (hlater : Continues codec g column answers seq later target) :
    Ends (descend g column seq later) s fun r s' =>
      LeadsTo codec g column answers target r ∧ Quiet P s s' := by
  -- bases are earlier versions
  induction seq using Nat.strongRecOn generalizing s later with
  | ind seq ih =>
    obtain ⟨s₁, hread, hs₁⟩ := runs_content_get hserves (contentKey ⟨g, seq⟩ column)
    rw [descend]
    refine Ends.bind_of_eq hread ?_
    cases hcached : (s.service.content.get (contentKey ⟨g, seq⟩ column)).1 with
    | some cached =>
      have hanswer := (hright seq cached).mp ((hserves.get _).1 cached hcached)
      exact ⟨hlater.opens hanswer, hs₁⟩
    | none =>
      obtain ⟨s₂, hlocate, hs₂⟩ := runs_locate (v := ⟨g, seq⟩) hs₁.serves (hfinds.congr hs₁.rows)
      have hquiet := hs₁.trans hs₂
      have hcodec₂ := hquiet.codec.trans hcodec
      refine Ends.bind_of_eq hlocate ?_
      dsimp only
      cases hrecord : (lookup seq).bind (·.columns[column]?) with
      | none =>
        have hanswer := hfits.missing seq hseq hrecord
        exact ⟨hlater.answers_none hanswer, hquiet⟩
      | some record =>
        refine Ends.bind_of_eq (get_eq s₂) ?_
        rw [hcodec₂]
        cases htag : codec.tagOf record with
        | error cause =>
          have hanswer := hfits.untagged seq record cause hseq hrecord htag
          exact ⟨hlater.answers_error hanswer, hquiet⟩
        | ok tag =>
          simp only
          split
          · rename_i hkeyframe
            exact ⟨.link (hfits.whole seq record tag hseq hrecord htag hkeyframe) hlater, hquiet⟩
          · rename_i hback
            rw [Bool.not_eq_true] at hback
            split
            · rename_i base hbase
              have hlt := Tag.baseSeq_lt hbase
              have hpass : Continues codec g column answers base ((seq, record) :: later) target :=
                ⟨fun answer => hfits.back seq record tag base answer hseq hrecord htag hback hbase,
                  hlater⟩
              refine (ih base hlt.1 hcodec₂ hquiet.serves (hfinds.congr hquiet.rows) hlt.2
                hpass).imp ?_
              exact fun r s₃ h => ⟨h.1, hquiet.trans h.2⟩
            · rename_i hbaseless
              have hanswer := hfits.baseless seq record tag hseq hrecord htag hback hbaseless
              exact ⟨hlater.answers_none hanswer, hquiet⟩

/-- Rebuilding a column of a version ends with an answer for it, and all that is cached is right
again. -/
theorem ends_resolve (hfits : Fits codec g column lookup answers)
    (hfinds : Finds s.rows g lookup) (seq : Nat) :
    Ends (resolve ⟨g, seq⟩ column) s fun answer s' => answers seq answer ∧ Quiet P s s' := by
  unfold resolve
  by_cases hzero : seq = 0
  · rw [if_pos hzero, hzero]
    exact ⟨hfits.zero, quiet_refl hserves⟩
  · rw [if_neg hzero]
    have hdescend : Ends (descend g column seq []) s fun r s' =>
        LeadsTo codec g column answers seq r ∧ Quiet P s s' :=
      ends_descend hcodec hserves hright hfits hfinds (Nat.pos_of_ne_zero hzero) rfl
    refine Ends.bind hdescend (fun chain s₁ h => ?_) fun e s₁ h => h
    obtain ⟨hleads, hs₁⟩ := h
    cases chain with
    | none => exact ⟨hleads, hs₁⟩
    | some chain =>
      refine Ends.imp (R := fun answer s' => answers seq answer ∧ Quiet P s₁ s') ?_
        fun answer s₂ h => ⟨h.1, hs₁.trans h.2⟩
      cases hleads with
      | done hvalue => exact ⟨hvalue, quiet_refl hs₁.serves⟩
      | link hfirst hlater =>
        exact ends_ascend (hs₁.codec.trans hcodec) hs₁.serves hright hfirst hlater

end Walk

end VersionChain.StoreM
