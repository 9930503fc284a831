import VersionChain.Proofs.Store.Insert

/-!
# Reading from a store

What is read from a store that agrees with a ledger is what the ledger says, whatever is cached;
and no read makes the store disagree.

* `versionAt` — the contents of a version;
* `Agrees.runs_getVersion`, `Agrees.runs_getColumn` — reading a version, or a column of one;
* `Agrees.runs_latestSeq` — reading the latest number;
* `readStable_agreeing`, `keeps_getVersion`, … — reads that may fail.
-/

namespace VersionChain

open StoreM MemoryRows

/-- The contents of a version, one a column. Versions count from 1. -/
def versionAt (history : List (List Bytes)) : (seq : Nat) → Option (Array Bytes)
  | 0 => none
  | seq + 1 => history[seq]?.map List.toArray

variable {history : List (List Bytes)} {columns column seq count : Nat}

theorem versionAt_succ (history : List (List Bytes)) (seq : Nat) :
    versionAt history (seq + 1) = history[seq]?.map List.toArray := rfl

/-- A version and its columns agree. -/
theorem contentAt_eq_versionAt (history : List (List Bytes)) (seq column : Nat) :
    contentAt history seq column = (versionAt history seq).bind (·[column]?) := by
  cases seq with
  | zero => rfl
  | succ seq =>
    rw [contentAt_succ, versionAt_succ]
    cases history[seq]? with
    | none => rfl
    | some values => exact List.getElem?_toArray.symm

/-- What is gathered from the columns from `column` on, `count` of them, behind `done`. -/
def gather (history : List (List Bytes)) (seq column : Nat) (done : Array Bytes) :
    (count : Nat) → Option (Array Bytes)
  | 0 => some done
  | count + 1 =>
    match contentAt history seq column with
    | some value => gather history seq (column + 1) (done.push value) count
    | none => none

theorem gather_drop {values : List Bytes} (hvalues : history[seq]? = some values)
    (hcount : column + count = values.length) (done : Array Bytes) :
    gather history (seq + 1) column done count =
      some (done ++ (values.drop column).toArray) := by
  induction count generalizing column done with
  | zero =>
    rw [List.drop_eq_nil_of_le (by omega)]
    simp [gather]
  | succ count ih =>
    have hcolumn : column < values.length := by omega
    have hcontent : contentAt history (seq + 1) column = some values[column] := by
      rw [contentAt_succ, hvalues, Option.bind_some, List.getElem?_eq_getElem hcolumn]
    unfold gather
    rw [hcontent]
    simp only
    rw [ih (by omega), List.drop_eq_getElem_cons hcolumn]
    simp

/-- Of a version with columns, either all of them are gathered or there is no such version. -/
theorem gather_eq_versionAt (hfull : Full history columns) (hcolumns : 0 < columns) (seq : Nat) :
    gather history seq 0 #[] columns = versionAt history seq := by
  obtain ⟨count, rfl⟩ : ∃ count, columns = count + 1 := ⟨columns - 1, by omega⟩
  cases seq with
  | zero => rfl
  | succ seq =>
    cases hvalues : history[seq]? with
    | none =>
      unfold gather
      rw [contentAt_succ, versionAt_succ, hvalues]
      rfl
    | some values =>
      have hlength := (hfull values (List.mem_of_getElem? hvalues)).1
      rw [gather_drop hvalues (by omega), versionAt_succ, hvalues]
      simp

variable {s : Store MemoryRows} {l : Ledger} {latest : GroupId → Nat} {table : TableId} {key : Key}
  {group : Fingerprint} {state : TableState}

theorem StoreM.LegibleFor.runs_readColumns {P : ContentKey → Bytes → Prop} {g : GroupId}
    (h : LegibleFor P s g history) (seq : Nat) (hcount : column + count ≤ 65536)
    (done : Array Bytes) :
    Runs (readColumns ⟨g, seq⟩ column done count) s (.ok (gather history seq column done count))
      (Quiet P s) := by
  induction count generalizing s column done with
  | zero => exact .pure (quiet_refl h.serves)
  | succ count ih =>
    have hresolve := h.runs_resolve seq (show column < 65536 by omega)
    unfold readColumns gather
    cases hcontent : contentAt history seq column with
    | none =>
      rw [hcontent] at hresolve
      refine Quiet.bind hresolve fun s₁ hs₁ => ?_
      exact .pure (quiet_refl hs₁.serves)
    | some value =>
      rw [hcontent] at hresolve
      refine Quiet.bind hresolve fun s₁ hs₁ => ?_
      exact ih (h.quiet hs₁) (by omega) (done.push value)

/-- A version is read as it was stored. -/
theorem Agrees.runs_getVersion (h : Agrees s l latest) (htable : s.tables[table]? = some state)
    (hkey : key.fingerprint s.unpacker = .ok group) (seq : Nat) :
    Runs (getVersion table key seq) s
      (.ok (gather (l.histories ⟨table, group⟩) seq 0 #[] state.columns))
      (Calm l.histories s) := by
  have hnarrow := h.mirrors.sound.narrow table state ((h.mirrors.tables table).symm.trans htable)
  refine Runs.bind (P := (· = s)) (runs_tableState htable rfl) ?_
  rintro s rfl
  refine Runs.bind (P := (· = s)) (runs_fingerprint hkey rfl) ?_
  rintro s rfl
  refine (h.mirrors.legible.forGroup ⟨table, group⟩).runs_readColumns seq ?_ #[]
  unfold maxColumns at hnarrow
  omega

/-- A column of a version is read as it was stored. -/
theorem Agrees.runs_getColumn (h : Agrees s l latest) (htable : s.tables[table]? = some state)
    (hkey : key.fingerprint s.unpacker = .ok group) (seq : Nat) (hcolumn : column < state.columns) :
    Runs (getColumn table key seq column) s
      (.ok (contentAt (l.histories ⟨table, group⟩) seq column)) (Calm l.histories s) := by
  have hnarrow := h.mirrors.sound.narrow table state ((h.mirrors.tables table).symm.trans htable)
  refine Runs.bind (P := (· = s)) (runs_tableState htable rfl) ?_
  rintro s rfl
  rw [if_pos hcolumn]
  refine Runs.bind (P := (· = s)) (runs_fingerprint hkey rfl) ?_
  rintro s rfl
  refine (h.mirrors.legible.forGroup ⟨table, group⟩).runs_resolve seq ?_
  unfold maxColumns at hnarrow
  omega

/-! ## Reads that may fail -/

section Keeps

variable (l table key)

/-- The store agrees with the ledger. -/
abbrev Agreeing (l : Ledger) (s : Store MemoryRows) : Prop := Agrees s l l.latest

theorem readStable_agreeing : ReadStable (Agreeing l) where
  with_locations _ _ hf hs :=
    hs.calm ⟨rfl, rfl, hs.mirrors.legible.serves, hf _⟩
  with_rows _ _ hrows hs :=
    hs.calm ⟨rfl, hrows, hs.mirrors.legible.serves, id⟩

theorem keeps_getVersion (seq : Nat) : Keeps (getVersion table key seq) (Agreeing l) := by
  refine fun s hs => ends_getVersion hs fun state group htable _ => ?_
  have hnarrow := hs.mirrors.sound.narrow table state ((hs.mirrors.tables table).symm.trans htable)
  unfold maxColumns at hnarrow
  exact hs.calm ((hs.mirrors.legible.forGroup ⟨table, group⟩).runs_readColumns seq (by omega) #[]).eq.2

theorem keeps_getColumn (seq column : Nat) :
    Keeps (getColumn table key seq column) (Agreeing l) := by
  refine fun s hs => ends_getColumn hs fun state group htable hcolumn _ => ?_
  have hnarrow := hs.mirrors.sound.narrow table state ((hs.mirrors.tables table).symm.trans htable)
  unfold maxColumns at hnarrow
  exact hs.calm ((hs.mirrors.legible.forGroup ⟨table, group⟩).runs_resolve seq (by omega)).eq.2

theorem keeps_latestSeq : Keeps (latestSeq table key) (Agreeing l) := by
  intro s hs
  obtain ⟨hnumbered, hmirrors, hstages⟩ := Numbered.keeps_latestSeq (numberStable_mirrors l) table key
    s ⟨hs.numbered.1, hs.mirrors, hs.stages⟩
  have hgapless : Gapless _ l.latest := fun g => (hmirrors.legible.filed g).stored
  exact ⟨hmirrors, ⟨(hnumbered.cached default).wellFormed, fun g seq hseq =>
    (hgapless.forGroup g).eq_of_current ((hnumbered.cached g).holds seq hseq)⟩, hstages⟩

end Keeps

/-- The latest number is read as the ledger has it. -/
theorem Agrees.runs_latestSeq (h : Agrees s l l.latest) (htable : s.tables[table]? = some state)
    (hkey : key.fingerprint s.unpacker = .ok group) :
    Runs (latestSeq table key) s
      (.ok (if l.latest ⟨table, group⟩ = 0 then none else some (l.latest ⟨table, group⟩)))
      (Agreeing l) := by
  obtain ⟨seq, hcurrent, hruns⟩ :=
    h.numbered.1.runs_latestSeq (numberStable_mirrors l) ⟨h.mirrors, h.stages⟩ htable hkey
  obtain rfl := (h.numbered.2.forGroup _).eq_of_current hcurrent
  exact ⟨_, Prod.ext hruns.eq.1 rfl, keeps_latestSeq l table key s h⟩

end VersionChain
