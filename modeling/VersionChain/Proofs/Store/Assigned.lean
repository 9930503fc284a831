import VersionChain.Proofs.Store.Bases
import VersionChain.Proofs.Store.Numbers
import VersionChain.Proofs.Store.Slots

/-!
# What numbers were assigned

Rows may be missing, and the number of a missing row may have been given out again. Each number
stands for the contents that it was last given out for; as long as the rows that are left and all
that is cached and staged go by that, nothing else is rebuilt, and the records of new versions lead
back to their contents.

* `Assigned`, `contentOf` — what each number was last given out for;
* `Honors` — the rows and the contents cached go by it;
* `Honors.recalls` — so does what is rebuilt;
* `Honors.ends_encodeColumns` — so do new records.
-/

namespace VersionChain

open StoreM MemoryRows

/-- The contents that each number was last given out for. -/
abbrev Assigned := VersionId → Option (List Bytes)

/-- The content of a column of a version, as its number was last given out. -/
def contentOf (assigned : Assigned) (g : GroupId) (seq column : Nat) : Option Bytes :=
  (assigned ⟨g, seq⟩).bind (·[column]?)

/-- The content that a key of the content cache stands for. -/
def Recorded (assigned : Assigned) (key : ContentKey) (value : Bytes) : Prop :=
  contentOf assigned key.toGroupId key.seq key.column.toNat = some value

/-- Each record of a row leads back to what its version was assigned. -/
def RestoresRow (assigned : Assigned) (v : VersionId) (row : StoredRow) : Prop :=
  ∀ column record, row.columns[column]? = some record →
    ∃ value, contentOf assigned v.toGroupId v.seq column = some value ∧
      Restores (contentOf assigned v.toGroupId · column) v.seq record value

/-- The rows and the contents cached go by what the numbers were assigned. -/
structure Honors (assigned : Assigned) (s : Store MemoryRows) : Prop where
  coder : ∃ coder : DiffCoder, s.codec = coder.codec
  valid : s.rows.Valid
  rows : ∀ v row, s.rows.stored v = some row → RestoresRow assigned v row
  serves : s.service.content.Serves (Recorded assigned)
  short : ∀ v values, assigned v = some values → ∀ value ∈ values, value.size < Diff.lengthLimit

variable {assigned assigned' : Assigned} {s s' : Store MemoryRows} {g : GroupId} {v : VersionId}
  {seq column : Nat} {token : Token} {bound : GroupId → Nat} {held : Nat}
  {settings : TableSettings} {value : Bytes}

theorem recorded_contentKey (hcolumn : column < 65536) :
    Recorded assigned (contentKey ⟨g, seq⟩ column) value ↔
      contentOf assigned g seq column = some value := by
  unfold Recorded contentKey
  simp only
  rw [UInt16.toNat_ofNat_of_lt' hcolumn]

theorem RestoresRow.imp {row : StoredRow} (h : RestoresRow assigned v row)
    (himp : ∀ seq column value, seq ≤ v.seq → contentOf assigned v.toGroupId seq column = some value →
      contentOf assigned' v.toGroupId seq column = some value) : RestoresRow assigned' v row := by
  intro column record hrecord
  obtain ⟨value, hvalue, hrestores⟩ := h column record hrecord
  refine ⟨value, himp v.seq column value (Nat.le_refl _) hvalue, hrestores.imp ?_⟩
  exact fun earlier base hearlier => himp earlier column base (Nat.le_of_lt hearlier)

theorem Honors.restages (h : Honors assigned s) (hs' : Restages (Recorded assigned) s s') :
    Honors assigned s' where
  coder := by
    rw [hs'.codec]
    exact h.coder
  valid := hs'.rows.valid h.valid
  rows v row hrow := h.rows v row ((hs'.rows.stored v).symm.trans hrow)
  serves := hs'.serves
  short := h.short

theorem Honors.exists_resolve (h : Honors assigned s) (g : GroupId) (seq : Nat)
    (hcolumn : column < 65536) :
    ∃ found, Runs (resolve ⟨g, seq⟩ column) s (.ok found) (Quiet (Recorded assigned) s) ∧
      ∀ value, found = some value → contentOf assigned g seq column = some value := by
  obtain ⟨coder, hcoder⟩ := h.coder
  -- any version may be absent
  have hfits : Fits s.codec g column (fun seq => s.rows.stored ⟨g, seq⟩)
      (Restored (contentOf assigned g · column) fun _ => True) := by
    rw [hcoder]
    refine fits_of_restores rfl rfl trivial (fun _ _ => trivial) ?_ fun _ _ _ _ _ => trivial
    intro seq record hrecord
    obtain ⟨row, hrow, hcolumn⟩ := Option.bind_eq_some_iff.mp hrecord
    exact h.rows ⟨g, seq⟩ row hrow column record hcolumn
  obtain ⟨found, hruns, -, hsome⟩ := StoreM.exists_resolve h.serves
    (fun seq value => recorded_contentKey hcolumn) hfits (finds_stored h.valid g) seq
  exact ⟨found, hruns, hsome⟩

/-- What is rebuilt is what was assigned. -/
theorem Honors.recalls (h : Honors assigned s) (g : GroupId) :
    Recalls (Recorded assigned) g (contentOf assigned g) s where
  serves := h.serves
  resolve _ hs' seq _ hcolumn := (h.restages hs').exists_resolve g seq hcolumn

/-! ## Records -/

theorem record?_eq_some {e : Encoded} {bytes : Bytes} :
    e.record? = some bytes ↔ e = .record bytes := by
  cases e <;> simp [Encoded.record?]

/-- A record against one of the bases that are offered leads back to the value. -/
theorem Honors.restores_candidate (h : Honors assigned s) {coder : DiffCoder} {extraPass : Bool}
    {depth : Nat} (hdepth : depth ≤ maxDepth) {base : RecentBase}
    (hoffers : Ring.Offers (contentOf assigned v.toGroupId) v.seq column depth base)
    (hvalue : value.size < Diff.lengthLimit) {record : TaggedRecord}
    (hrecord : Candidate.record? coder.codec value extraPass
      ⟨.back (.ofNat base.distance), base.content⟩ = some record) :
    Restores (contentOf assigned v.toGroupId · column) v.seq record.bytes value := by
  obtain ⟨bytes, hbytes, rfl⟩ := Option.map_eq_some_iff.mp hrecord
  obtain ⟨hpos, hbefore, hdistance, hnear, hcontent⟩ := hoffers
  have hshort : base.content.size < Diff.lengthLimit := by
    obtain ⟨values, hvalues, hmem⟩ := Option.bind_eq_some_iff.mp hcontent
    exact h.short _ values hvalues _ (List.mem_of_getElem? hmem)
  have hbase : contentOf assigned v.toGroupId (v.seq - base.distance) column =
      some base.content := by
    rw [show v.seq - base.distance = base.seq by omega]
    exact hcontent
  exact restores_back (record?_eq_some.mp hbytes) hshort hvalue (by omega) (by omega) (by omega)
    hbase

/-- The record of a value leads back to it. There is none if the value is too long. -/
theorem Honors.ends_encodeColumn (h : Honors assigned s)
    (htracks : s.service.staging.Tracks token (contentOf assigned v.toGroupId) held settings.depth)
    (hpos : 0 < v.seq) (hcolumn : column < 65536) (hdepth : settings.depth ≤ maxDepth) (value : Bytes) :
    Ends (encodeColumn v column settings token value) s fun r s' =>
      Quiet (Recorded assigned) s s' ∧ ∀ record, r = .ok record →
        value.size < Diff.lengthLimit ∧
          Restores (contentOf assigned v.toGroupId · column) v.seq record.bytes value := by
  obtain ⟨coder, hcoder⟩ := h.coder
  refine Ends.bind_of_eq (get_eq s) ?_
  by_cases hvalue : value.size < Diff.lengthLimit
  · have hwhole : Restores (contentOf assigned v.toGroupId · column) v.seq
        (taggedRecord coder settings value .keyframe #[]).bytes value :=
      restores_keyframe (encode_codec coder .keyframe settings.extraPass (by decide) hvalue) hvalue _
    simp only [hcoder, keyframe?_eq coder settings hvalue]
    split
    · refine ⟨quiet_refl h.serves, ?_⟩
      rintro _ ⟨⟩
      exact ⟨hvalue, hwhole⟩
    · obtain ⟨bases, ⟨s₁, hcollect, hs₁⟩, hoffers⟩ :=
        (h.recalls v.toGroupId).exists_collectBases hcolumn htracks hpos
      refine Ends.bind_of_eq hcollect ?_
      refine Runs.ends (P := Quiet (Recorded assigned) s) (runs_scheduler ?_) fun s' hs' => ⟨hs', ?_⟩
      · exact hs₁.trans ⟨rfl, rfl, hs₁.serves, id⟩
      · rintro _ ⟨⟩
        refine ⟨hvalue, ?_⟩
        rw [Scheduler.execute_eq]
        -- the record is that of the whole value, or was written against a base
        rcases List.mem_cons.mp (Scheduler.choose_least _ _).1 with heq | hmem
        · rw [heq]
          exact hwhole
        · obtain ⟨candidate, hcandidate, hrecord⟩ := List.mem_filterMap.mp hmem
          obtain ⟨base, hbase, rfl⟩ := List.mem_map.mp hcandidate
          exact h.restores_candidate hdepth (hoffers base hbase) hvalue hrecord
  · simp only [hcoder, keyframe?_eq_none coder settings.extraPass hvalue]
    exact ⟨quiet_refl h.serves, nofun⟩

/-- The records of a version lead back to its values. -/
theorem Honors.ends_encodeColumns (h : Honors assigned s)
    (htracks : s.service.staging.Tracks token (contentOf assigned v.toGroupId) held settings.depth)
    (hpos : 0 < v.seq) (hdepth : settings.depth ≤ maxDepth)
    {values : List Bytes} (hcolumns : column + values.length ≤ 65536) (done : Array TaggedRecord) :
    Ends (encodeColumns v column settings token done values) s fun r s' =>
      Quiet (Recorded assigned) s s' ∧ ∀ records, r = .ok records →
        (∀ value ∈ values, value.size < Diff.lengthLimit) ∧
        ∃ later : List TaggedRecord, records = done ++ later.toArray ∧
          ∀ (k : Nat) record, later[k]? = some record →
            ∃ value, values[k]? = some value ∧
              Restores (contentOf assigned v.toGroupId · (column + k)) v.seq record.bytes value := by
  induction values generalizing s column done with
  | nil =>
    refine ⟨quiet_refl h.serves, ?_⟩
    rintro _ ⟨⟩
    exact ⟨fun _ hvalue => (List.not_mem_nil hvalue).elim, [], by simp, nofun⟩
  | cons value rest ih =>
    rw [List.length_cons] at hcolumns
    refine Ends.bind (h.ends_encodeColumn htracks hpos (by omega) hdepth value)
      (fun record s₁ hs₁ => ?_) fun e s₁ hs₁ => ⟨hs₁.1, nofun⟩
    obtain ⟨hquiet, hrecord⟩ := hs₁
    obtain ⟨hshort, hrestores⟩ := hrecord record rfl
    have htracks₁ : s₁.service.staging.Tracks token (contentOf assigned v.toGroupId) held
        settings.depth := by
      rw [hquiet.staging]
      exact htracks
    have hlater : column + 1 + rest.length ≤ 65536 := by omega
    refine (ih (h.restages hquiet.restages) htracks₁ hlater (done.push record)).imp fun r s₂ hs₂ => ?_
    refine ⟨hquiet.trans hs₂.1, fun records hr => ?_⟩
    obtain ⟨hshorts, later, rfl, hvalues⟩ := hs₂.2 records hr
    refine ⟨List.forall_mem_cons.mpr ⟨hshort, hshorts⟩, record :: later, by simp, ?_⟩
    intro k other hother
    cases k with
    | zero =>
      cases hother
      exact ⟨value, rfl, hrestores⟩
    | succ k =>
      obtain ⟨found, hfound, hfoundRestores⟩ := hvalues k other hother
      refine ⟨found, hfound, ?_⟩
      rw [Nat.add_comm k 1, ← Nat.add_assoc]
      exact hfoundRestores

end VersionChain
