import VersionChain.Proofs.Store.Chains
import VersionChain.Proofs.Store.History

/-!
# Contents are rebuilt

Where every record leads back to the content of its version, rebuilding gives that content or
nothing, whatever is cached and wherever the caches say the rows are. Over rows that stand for the
histories of their groups it gives nothing only for a version that is not there. It changes nothing
but caches and counters.

* `Restored` — a version is absent, or this is its content;
* `fits_of_restores`, `exists_resolve` — rebuilding gives nothing else;
* `LegibleFor` — the rows stand for the history of a group, and the contents cached are its own;
* `LegibleFor.runs_resolve` — the content of a column of a version;
* `Legible` — the same for the histories of all groups;
* `Calm` — nothing differs but caches, the scheduler and the counters of the rows.
-/

namespace VersionChain.StoreM

open MemoryRows

/-! ## Records that restore contents -/

/-- A version is absent, or this is its content. -/
def Restored (content : Nat → Option Bytes) (absent : Nat → Prop) (seq : Nat) (answer : Answer) :
    Prop :=
  (answer = .ok none ∧ absent seq) ∨ ∃ value, answer = .ok (some value) ∧ content seq = some value

variable {codec : Codec} {g : GroupId} {column : Nat} {lookup : Nat → Option StoredRow}
  {content : Nat → Option Bytes} {absent : Nat → Prop}

theorem restored_some {seq : Nat} {value : Bytes} :
    Restored content absent seq (.ok (some value)) ↔ content seq = some value := by
  unfold Restored
  simp

/-- If every record leads back to the content of its version, nothing but that and absence fits the
rows; and a version is absent without a record, or with its base. -/
theorem fits_of_restores (hdecode : codec.decode = Record.decode)
    (htagOf : codec.tagOf = Record.tagOf) (hzero : absent 0)
    (hmissing : ∀ seq, (lookup seq).bind (·.columns[column]?) = none → absent seq)
    (hrestores : ∀ seq record, (lookup seq).bind (·.columns[column]?) = some record →
      ∃ value, content seq = some value ∧ Restores content seq record value)
    (hbroken : ∀ seq base value, content base = some value → absent base → absent seq) :
    Fits codec g column lookup (Restored content absent) := by
  have hdecodeOn : ∀ {seq record base value}, content seq = some value →
      Record.decode base record = .ok value →
        Restored content absent seq (decodeOn codec g column seq record base) := by
    intro seq record base value hvalue hresult
    unfold decodeOn
    rw [hdecode, hresult]
    exact restored_some.mpr hvalue
  refine ⟨.inl ⟨rfl, hzero⟩, fun seq _ hrecord => .inl ⟨rfl, hmissing seq hrecord⟩,
    fun seq record cause _ hrecord htag => ?_, fun seq record tag _ hrecord htag hkeyframe => ?_,
    fun seq record tag _ hrecord htag hback hbaseless => ?_,
    fun seq record tag base answer _ hrecord htag hback hbase hanswer => ?_⟩
  all_goals
    obtain ⟨value, hvalue, known, hknown, hcases⟩ := hrestores seq record hrecord
    rw [htagOf, hknown] at htag
    cases htag
  · rcases hcases with ⟨-, hresult⟩ | ⟨hnot, -⟩
    · exact hdecodeOn hvalue (hresult #[])
    · rw [hkeyframe] at hnot
      cases hnot
  · rcases hcases with ⟨hkeyframe, -⟩ | ⟨-, baseSeq, -, hbaseSeq, -⟩
    · rw [hback] at hkeyframe
      cases hkeyframe
    · rw [hbaseless] at hbaseSeq
      cases hbaseSeq
  · rcases hcases with ⟨hkeyframe, -⟩ | ⟨-, baseSeq, known, hbaseSeq, hknown, hresult⟩
    · rw [hback] at hkeyframe
      cases hkeyframe
    · rw [hbase] at hbaseSeq
      cases hbaseSeq
      rcases hanswer with ⟨rfl, habsent⟩ | ⟨found, rfl, hfound⟩
      · exact .inl ⟨rfl, hbroken seq base known hknown habsent⟩
      · rw [hknown] at hfound
        cases hfound
        exact hdecodeOn hvalue hresult

/-- Where nothing but contents and absence fits the rows, rebuilding does not fail. -/
theorem exists_resolve {P : ContentKey → Bytes → Prop} {s : Store MemoryRows}
    (hserves : s.service.content.Serves P)
    (hright : ∀ seq value, P (contentKey ⟨g, seq⟩ column) value ↔ content seq = some value)
    (hfits : Fits s.codec g column lookup (Restored content absent))
    (hfinds : Finds s.rows g lookup) (seq : Nat) :
    ∃ found, Runs (resolve ⟨g, seq⟩ column) s (.ok found) (Quiet P s) ∧
      (found = none → absent seq) ∧ ∀ value, found = some value → content seq = some value := by
  obtain ⟨hanswer, hquiet⟩ := ends_resolve rfl hserves
    (fun seq value => (hright seq value).trans restored_some.symm) hfits hfinds seq
  rcases hanswer with ⟨hnone, habsent⟩ | ⟨value, hvalue, hcontent⟩
  · exact ⟨none, ⟨_, Prod.ext hnone rfl, hquiet⟩, fun _ => habsent, nofun⟩
  · refine ⟨some value, ⟨_, Prod.ext hvalue rfl, hquiet⟩, nofun, ?_⟩
    rintro _ ⟨⟩
    exact hcontent

/-! ## Rows that stand for a history -/

/-- The rows stand for the history of a group, and its contents that are cached are right. -/
structure LegibleFor (P : ContentKey → Bytes → Prop) (s : Store MemoryRows) (g : GroupId)
    (history : List (List Bytes)) : Prop where
  decode : s.codec.decode = Record.decode
  tagOf : s.codec.tagOf = Record.tagOf
  valid : s.rows.Valid
  filed : Filed s.rows g history
  serves : s.service.content.Serves P
  right : ∀ seq column value, column < 65536 →
    (P (contentKey ⟨g, seq⟩ column) value ↔ contentAt history seq column = some value)

variable {P : ContentKey → Bytes → Prop} {history : List (List Bytes)} {s s' : Store MemoryRows}

theorem LegibleFor.quiet (h : LegibleFor P s g history) (hs' : Quiet P s s') :
    LegibleFor P s' g history where
  decode := by
    rw [hs'.codec]
    exact h.decode
  tagOf := by
    rw [hs'.codec]
    exact h.tagOf
  valid := hs'.rows.valid h.valid
  filed := h.filed.congr fun seq => hs'.rows.stored ⟨g, seq⟩
  serves := hs'.serves
  right := h.right

/-- Rebuilding gives the content of the version, and nothing for a version that is not there. -/
theorem LegibleFor.runs_resolve (h : LegibleFor P s g history) (seq : Nat) {column : Nat}
    (hcolumn : column < 65536) :
    Runs (resolve ⟨g, seq⟩ column) s (.ok (contentAt history seq column)) (Quiet P s) := by
  let content (seq : Nat) := contentAt history seq column
  have hfits : Fits s.codec g column (fun seq => s.rows.stored ⟨g, seq⟩)
      (Restored content fun seq => content seq = none) := by
    refine fits_of_restores h.decode h.tagOf rfl ?_ ?_ ?_
    · exact fun seq hrecord => h.filed.contentAt_eq_none hrecord
    · intro seq record hrecord
      obtain ⟨row, hrow, hcolumn⟩ := Option.bind_eq_some_iff.mp hrecord
      exact rebuilds_iff.mp (((h.filed.row seq row hrow) column).2 record hcolumn)
    · intro seq base value hvalue hnone
      rw [hvalue] at hnone
      cases hnone
  obtain ⟨found, hruns, hnone, hsome⟩ := exists_resolve h.serves
    (fun seq value => h.right seq column value hcolumn) hfits (finds_stored h.valid g) seq
  have hfound : found = contentAt history seq column := by
    cases found with
    | none => exact (hnone rfl).symm
    | some value => exact (hsome value rfl).symm
  rw [← hfound]
  exact hruns

/-! ## Rows that stand for histories -/

/-- The histories of all groups. -/
abbrev Histories := GroupId → List (List Bytes)

/-- The content that a key of the content cache stands for. -/
def Says (contents : Histories) (key : ContentKey) (value : Bytes) : Prop :=
  contentAt (contents key.toGroupId) key.seq key.column.toNat = some value

theorem says_contentKey {contents : Histories} {g : GroupId} {seq column : Nat} {value : Bytes}
    (hcolumn : column < 65536) : Says contents (contentKey ⟨g, seq⟩ column) value ↔
      contentAt (contents g) seq column = some value := by
  unfold Says contentKey
  simp only
  rw [UInt16.toNat_ofNat_of_lt' hcolumn]

/-- The rows stand for the histories, and the contents cached are theirs. -/
structure Legible (s : Store MemoryRows) (contents : Histories) : Prop where
  decode : s.codec.decode = Record.decode
  tagOf : s.codec.tagOf = Record.tagOf
  valid : s.rows.Valid
  filed : ∀ g, Filed s.rows g (contents g)
  serves : s.service.content.Serves (Says contents)
  sound : s.service.locations.Sound

/-- Nothing differs but the caches of contents and locations, the scheduler and the counters of the
rows, and the contents cached are those of the histories. -/
abbrev Calm (contents : Histories) : Store MemoryRows → Store MemoryRows → Prop :=
  Quiet (Says contents)

variable {contents : Histories}

theorem Legible.forGroup (h : Legible s contents) (g : GroupId) :
    LegibleFor (Says contents) s g (contents g) where
  decode := h.decode
  tagOf := h.tagOf
  valid := h.valid
  filed := h.filed g
  serves := h.serves
  right _ _ _ hcolumn := says_contentKey hcolumn

theorem Quiet.legible (h : Calm contents s s') (hs : Legible s contents) : Legible s' contents where
  decode := by
    rw [h.codec]
    exact hs.decode
  tagOf := by
    rw [h.codec]
    exact hs.tagOf
  valid := h.rows.valid hs.valid
  filed g := (hs.filed g).congr fun seq => h.rows.stored ⟨g, seq⟩
  serves := h.serves
  sound := h.sound hs.sound

end VersionChain.StoreM
