import VersionChain.Proofs.Store.Rows
import VersionChain.Record.Diff

/-!
# Histories and their records

The history of a group is the list of the contents that were stored for it, the first version
first. A row of a version stands for it if each of its records leads back to the content of its
column, either by itself or from the content of an earlier version. What is appended to a
history later does not touch this.

* `contentAt` — the content of a column of a version;
* `Rebuilds` — a record leads back to a content;
* `Filed` — exactly the versions of a history are stored, with rows that stand for them.
-/

namespace VersionChain

/-- The content of a column of version `seq`. Versions count from 1. -/
def contentAt (history : List (List Bytes)) : (seq column : Nat) → Option Bytes
  | 0, _ => none
  | seq + 1, column => history[seq]?.bind (·[column]?)

variable {history : List (List Bytes)} {values : List Bytes} {seq column : Nat} {content : Bytes}

theorem contentAt_succ :
    contentAt history (seq + 1) column = history[seq]?.bind (·[column]?) := rfl

theorem seq_of_contentAt (h : contentAt history seq column = some content) :
    1 ≤ seq ∧ seq ≤ history.length := by
  cases seq with
  | zero => cases h
  | succ seq =>
    obtain ⟨row, hrow, -⟩ := Option.bind_eq_some_iff.mp h
    have hlt := (List.getElem?_eq_some_iff.mp hrow).1
    omega

theorem contentAt_append_of_le (h : seq ≤ history.length) :
    contentAt (history ++ [values]) seq column = contentAt history seq column := by
  cases seq with
  | zero => rfl
  | succ seq =>
    rw [contentAt_succ, contentAt_succ, List.getElem?_append_left h]

/-- Later versions leave the contents of earlier ones alone. -/
theorem contentAt_append (values : List Bytes) (h : contentAt history seq column = some content) :
    contentAt (history ++ [values]) seq column = some content := by
  rw [contentAt_append_of_le (seq_of_contentAt h).2]
  exact h

theorem contentAt_append_last :
    contentAt (history ++ [values]) (history.length + 1) column = values[column]? := by
  rw [contentAt_succ, List.getElem?_append_right (Nat.le_refl _), Nat.sub_self]
  rfl

/-- A record of version `seq` leads back to a value: by itself, or from the content of an earlier
version. -/
def Restores (content : Nat → Option Bytes) (seq : Nat) (record value : Bytes) : Prop :=
  ∃ tag, Record.tagOf record = .ok tag ∧
    ((tag.isKeyframe = true ∧ ∀ base, Record.decode base record = .ok value) ∨
    (tag.isKeyframe = false ∧ ∃ baseSeq base, tag.baseSeq seq = some baseSeq ∧
      content baseSeq = some base ∧ Record.decode base record = .ok value))

/-- Only the contents of earlier versions matter. -/
theorem Restores.imp {content content' : Nat → Option Bytes} {seq : Nat} {record value : Bytes}
    (h : Restores content seq record value)
    (himp : ∀ earlier base, earlier < seq → content earlier = some base →
      content' earlier = some base) : Restores content' seq record value := by
  obtain ⟨tag, htag, hkeyframe | ⟨hnot, baseSeq, base, hbaseSeq, hbase, hdecode⟩⟩ := h
  · exact ⟨tag, htag, .inl hkeyframe⟩
  · exact ⟨tag, htag, .inr ⟨hnot, baseSeq, base, hbaseSeq,
      himp baseSeq base (Tag.baseSeq_lt hbaseSeq).1 hbase, hdecode⟩⟩

/-- A record leads back to the content of its column: by itself, or from the content of an
earlier version. -/
def Rebuilds (history : List (List Bytes)) (seq column : Nat) (record : Bytes) : Prop :=
  ∃ tag content, Record.tagOf record = .ok tag ∧ contentAt history seq column = some content ∧
    ((tag.isKeyframe = true ∧ ∀ base, Record.decode base record = .ok content) ∨
    (tag.isKeyframe = false ∧ ∃ baseSeq base, tag.baseSeq seq = some baseSeq ∧
      contentAt history baseSeq column = some base ∧ Record.decode base record = .ok content))

theorem rebuilds_iff {record : Bytes} : Rebuilds history seq column record ↔
    ∃ value, contentAt history seq column = some value ∧
      Restores (contentAt history · column) seq record value := by
  constructor
  · rintro ⟨tag, value, htag, hvalue, hcases⟩
    exact ⟨value, hvalue, tag, htag, hcases⟩
  · rintro ⟨value, hvalue, tag, htag, hcases⟩
    exact ⟨tag, value, htag, hvalue, hcases⟩

theorem Rebuilds.append {record : Bytes} (h : Rebuilds history seq column record)
    (values : List Bytes) : Rebuilds (history ++ [values]) seq column record := by
  obtain ⟨value, hvalue, hrestores⟩ := rebuilds_iff.mp h
  exact rebuilds_iff.mpr ⟨value, contentAt_append values hvalue,
    hrestores.imp fun _ _ _ hbase => contentAt_append values hbase⟩

/-- A row stands for a version: it has a record for each column of it, and no more. -/
def Represented (history : List (List Bytes)) (seq : Nat) (row : StoredRow) : Prop :=
  ∀ column, (row.columns[column]? = none → contentAt history seq column = none) ∧
    ∀ record, row.columns[column]? = some record → Rebuilds history seq column record

theorem Represented.append {row : StoredRow} (h : Represented history seq row)
    (hseq : seq ≤ history.length) (values : List Bytes) :
    Represented (history ++ [values]) seq row := by
  intro column
  obtain ⟨hnone, hsome⟩ := h column
  refine ⟨fun hcolumn => ?_, fun record hrecord => (hsome record hrecord).append values⟩
  rw [contentAt_append_of_le hseq]
  exact hnone hcolumn

/-- Exactly the versions of a history are stored, with rows that stand for them. -/
structure Filed (m : MemoryRows) (g : GroupId) (history : List (List Bytes)) : Prop where
  stored : ∀ seq, (∃ row, m.stored ⟨g, seq⟩ = some row) ↔ 1 ≤ seq ∧ seq ≤ history.length
  row : ∀ seq row, m.stored ⟨g, seq⟩ = some row → Represented history seq row

/-- Without a row, or without a record in it, there is no content. -/
theorem Filed.contentAt_eq_none {m : MemoryRows} {g : GroupId} (h : Filed m g history)
    (hrecord : (m.stored ⟨g, seq⟩).bind (·.columns[column]?) = none) :
    contentAt history seq column = none := by
  cases hrow : m.stored ⟨g, seq⟩ with
  | some row =>
    rw [hrow] at hrecord
    exact ((h.row seq row hrow) column).1 hrecord
  | none =>
    cases hcontent : contentAt history seq column with
    | none => rfl
    | some content =>
      obtain ⟨row, hsome⟩ := (h.stored seq).mpr (seq_of_contentAt hcontent)
      rw [hrow] at hsome
      cases hsome

theorem Filed.congr {m m' : MemoryRows} {g : GroupId} (h : Filed m g history)
    (hstored : ∀ seq, m'.stored ⟨g, seq⟩ = m.stored ⟨g, seq⟩) : Filed m' g history where
  stored seq := by
    rw [hstored]
    exact h.stored seq
  row seq row hrow := by
    rw [hstored] at hrow
    exact h.row seq row hrow

theorem filed_nil {m : MemoryRows} {g : GroupId} (h : ∀ seq, m.stored ⟨g, seq⟩ = none) :
    Filed m g [] where
  stored seq := by
    rw [h seq]
    constructor
    · rintro ⟨row, hrow⟩
      cases hrow
    · rintro ⟨hle, hge⟩
      exact absurd (Nat.le_trans hle hge) (by simp)
  row seq row hrow := by
    rw [h seq] at hrow
    cases hrow

/-- Storing the next version. -/
theorem Filed.append {m m' : MemoryRows} {g : GroupId} {row : StoredRow} (h : Filed m g history)
    (values : List Bytes)
    (hstored : ∀ seq, m'.stored ⟨g, seq⟩ =
      if seq = history.length + 1 then some row else m.stored ⟨g, seq⟩)
    (hrow : Represented (history ++ [values]) (history.length + 1) row) :
    Filed m' g (history ++ [values]) where
  stored seq := by
    rw [hstored, List.length_append, List.length_singleton]
    split
    · rename_i heq
      constructor
      · intro _
        omega
      · exact fun _ => ⟨row, rfl⟩
    · rw [h.stored seq]
      omega
  row seq x hx := by
    rw [hstored] at hx
    split at hx
    · rename_i heq
      cases hx
      rw [heq]
      exact hrow
    · exact (h.row seq x hx).append ((h.stored seq).mp ⟨x, hx⟩).2 values

end VersionChain
