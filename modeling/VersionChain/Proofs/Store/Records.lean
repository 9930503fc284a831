import VersionChain.Proofs.Record.RoundTrip
import VersionChain.Proofs.Selection.Choice
import VersionChain.Proofs.Store.History
import VersionChain.Settings.Basic
import VersionChain.Staging.Ring

/-!
# The records that a history calls for

What is stored for the next version of a group is fixed by the versions before it: each value is
held by the least of its record as a whole and its records against the latest versions.

* `recordFor` — the record of a value;
* `leastRecord_recordFor` — it is the least of all that compete;
* `represented_next` — a row of such records stands for the version.
-/

namespace VersionChain

/-- Every version has a value in each column, and none of them is too long to be encoded. -/
def Full (history : List (List Bytes)) (columns : Nat) : Prop :=
  ∀ values ∈ history, values.length = columns ∧ ∀ value ∈ values, value.size < Diff.lengthLimit

variable {history : List (List Bytes)} {columns column seq : Nat} {value content : Bytes}

theorem Full.exists_content (h : Full history columns) (hseq : 1 ≤ seq ∧ seq ≤ history.length)
    (hcolumn : column < columns) : ∃ content, contentAt history seq column = some content := by
  obtain ⟨k, rfl⟩ : ∃ k, seq = k + 1 := ⟨seq - 1, by omega⟩
  have hk : k < history.length := by omega
  have hlength := (h history[k] (List.getElem_mem hk)).1
  have hvalue : column < history[k].length := by omega
  refine ⟨history[k][column], ?_⟩
  rw [contentAt_succ, List.getElem?_eq_getElem hk, Option.bind_some,
    List.getElem?_eq_getElem hvalue]

theorem Full.size_lt (h : Full history columns)
    (hcontent : contentAt history seq column = some content) :
    content.size < Diff.lengthLimit := by
  cases seq with
  | zero => cases hcontent
  | succ k =>
    obtain ⟨values, hvalues, hvalue⟩ := Option.bind_eq_some_iff.mp hcontent
    exact (h values (List.mem_of_getElem? hvalues)).2 content (List.mem_of_getElem? hvalue)

theorem Full.append (h : Full history columns) {values : List Bytes}
    (hlength : values.length = columns)
    (hshort : ∀ value ∈ values, value.size < Diff.lengthLimit) :
    Full (history ++ [values]) columns := by
  intro row hrow
  rcases List.mem_append.mp hrow with hold | hnew
  · exact h row hold
  · rw [List.mem_singleton.mp hnew]
    exact ⟨hlength, hshort⟩

/-! ## The choice -/

/-- The base for the next version at a distance. -/
def baseAt (history : List (List Bytes)) (column distance : Nat) : Option RecentBase :=
  (contentAt history (history.length + 1 - distance) column).map
    (⟨history.length + 1 - distance, distance, ·⟩)

/-- The bases for the next version at `count` distances from `distance` on. -/
def basesFrom (history : List (List Bytes)) (column distance count : Nat) : List RecentBase :=
  (List.range' distance count).filterMap (baseAt history column)

/-- The record of a value under a tag. -/
def taggedRecord (coder : DiffCoder) (settings : TableSettings) (value : Bytes) (tag : Tag)
    (base : Bytes) : TaggedRecord := ⟨tag, coder.recordOf tag base value settings.extraPass⟩

/-- The record of a value in the version after a history. -/
def recordFor (coder : DiffCoder) (settings : TableSettings) (history : List (List Bytes))
    (column : Nat) (value : Bytes) : TaggedRecord :=
  let whole := taggedRecord coder settings value .keyframe #[]
  if settings.forcesKeyframe (history.length + 1) then whole
  else
    let bases := basesFrom history column 1 (min settings.depth history.length)
    Scheduler.choose whole
      (bases.map fun b => taggedRecord coder settings value (.back (.ofNat b.distance)) b.content)

/-- The records of the values from `column` on. -/
def recordsFor (coder : DiffCoder) (settings : TableSettings) (history : List (List Bytes)) :
    (column : Nat) → List Bytes → List TaggedRecord
  | _, [] => []
  | column, value :: rest =>
    recordFor coder settings history column value ::
      recordsFor coder settings history (column + 1) rest

/-- The records that compete to hold a value in the version after a history. -/
inductive Contends (codec : Codec) (settings : TableSettings) (history : List (List Bytes))
    (column : Nat) (value : Bytes) : TaggedRecord → Prop where
  | whole (bytes : Bytes)
      (hencode : codec.encode .keyframe #[] value settings.extraPass = .record bytes) :
      Contends codec settings history column value ⟨.keyframe, bytes⟩
  | back (distance : Nat) (base bytes : Bytes)
      (hfree : settings.forcesKeyframe (history.length + 1) = false)
      (hnear : 1 ≤ distance ∧ distance ≤ min settings.depth history.length)
      (hbase : contentAt history (history.length + 1 - distance) column = some base)
      (hencode : codec.encode (.back (.ofNat distance)) base value settings.extraPass =
        .record bytes) :
      Contends codec settings history column value ⟨.back (.ofNat distance), bytes⟩

theorem encode_codec (coder : DiffCoder) (tag : Tag) {base target : Bytes} (extraPass : Bool)
    (hbase : base.size < Diff.lengthLimit) (htarget : target.size < Diff.lengthLimit) :
    coder.codec.encode tag base target extraPass =
      .record (coder.recordOf tag base target extraPass) :=
  coder.encode_eq_record tag extraPass hbase htarget

variable {coder : DiffCoder} {settings : TableSettings}

theorem baseAt_eq_some {distance : Nat} {b : RecentBase} :
    baseAt history column distance = some b ↔ b.distance = distance ∧
      b.seq = history.length + 1 - distance ∧ contentAt history b.seq column = some b.content := by
  unfold baseAt
  rw [Option.map_eq_some_iff]
  constructor
  · rintro ⟨content, hcontent, rfl⟩
    exact ⟨rfl, rfl, hcontent⟩
  · rintro ⟨hdistance, hseq, hcontent⟩
    refine ⟨b.content, hseq ▸ hcontent, ?_⟩
    rw [← hseq, ← hdistance]

theorem mem_basesFrom {distance count : Nat} {b : RecentBase} :
    b ∈ basesFrom history column distance count ↔
      distance ≤ b.distance ∧ b.distance < distance + count ∧
      b.seq = history.length + 1 - b.distance ∧
      contentAt history b.seq column = some b.content := by
  unfold basesFrom
  simp only [List.mem_filterMap, baseAt_eq_some, List.mem_range'_1]
  constructor
  · rintro ⟨k, ⟨hle, hlt⟩, rfl, hseq, hcontent⟩
    exact ⟨hle, hlt, hseq, hcontent⟩
  · rintro ⟨hle, hlt, hseq, hcontent⟩
    exact ⟨b.distance, ⟨hle, hlt⟩, rfl, hseq, hcontent⟩

theorem pairwise_basesFrom (distance count : Nat) :
    (basesFrom history column distance count).Pairwise fun a b => a.distance < b.distance := by
  unfold basesFrom
  rw [List.pairwise_filterMap]
  refine List.Pairwise.imp ?_ (List.pairwise_lt_range' (s := distance) (n := count))
  intro k k' hlt a ha b hb
  rw [(baseAt_eq_some.mp ha).1, (baseAt_eq_some.mp hb).1]
  exact hlt

/-- The record of a value is one of those that compete. -/
theorem contends_recordFor (hfull : Full history columns) (hvalue : value.size < Diff.lengthLimit) :
    Contends coder.codec settings history column value
      (recordFor coder settings history column value) := by
  have hempty : (#[] : Bytes).size < Diff.lengthLimit := by decide
  have hwhole : Contends coder.codec settings history column value
      (taggedRecord coder settings value .keyframe #[]) :=
    .whole _ (encode_codec coder .keyframe settings.extraPass hempty hvalue)
  unfold recordFor
  simp only
  split
  · exact hwhole
  · rename_i hforced
    rcases List.mem_cons.mp (Scheduler.choose_least _ _).1 with heq | hmem
    · rw [heq]
      exact hwhole
    · obtain ⟨b, hb, heq⟩ := List.mem_map.mp hmem
      obtain ⟨hpos, hlt, hseq, hcontent⟩ := mem_basesFrom.mp hb
      rw [← heq]
      refine .back b.distance b.content _ (by simpa using hforced) ⟨hpos, by omega⟩ ?_ ?_
      · rw [← hseq]
        exact hcontent
      · exact encode_codec coder _ settings.extraPass (hfull.size_lt hcontent) hvalue

/-- No record that competes is less than the record of a value. -/
theorem recordFor_least (hfull : Full history columns) (hvalue : value.size < Diff.lengthLimit)
    {other : TaggedRecord} (hother : Contends coder.codec settings history column value other) :
    (recordFor coder settings history column value).AtMost other := by
  have hempty : (#[] : Bytes).size < Diff.lengthLimit := by decide
  unfold recordFor
  cases hother with
  | whole bytes hencode =>
    rw [encode_codec coder .keyframe settings.extraPass hempty hvalue] at hencode
    cases hencode
    simp only
    split
    · exact .refl _
    · exact (Scheduler.choose_least _ _).2 _ List.mem_cons_self
  | back distance base bytes hfree hnear hbase hencode =>
    rw [encode_codec coder _ settings.extraPass (hfull.size_lt hbase) hvalue] at hencode
    cases hencode
    simp only
    rw [if_neg (by rw [hfree]; exact Bool.false_ne_true)]
    refine (Scheduler.choose_least _ _).2 _ (List.mem_cons_of_mem _ (List.mem_map.mpr ?_))
    exact ⟨⟨history.length + 1 - distance, distance, base⟩,
      mem_basesFrom.mpr ⟨hnear.1, Nat.lt_one_add_iff.mpr hnear.2, rfl, hbase⟩, rfl⟩

/-- A value competes as a whole, and against each of the latest versions. -/
theorem exists_contends (hfull : Full history columns) (hcolumn : column < columns)
    (hvalue : value.size < Diff.lengthLimit) :
    (∃ bytes, Contends coder.codec settings history column value ⟨.keyframe, bytes⟩) ∧
    (settings.forcesKeyframe (history.length + 1) = false →
      ∀ distance, 1 ≤ distance → distance ≤ min settings.depth history.length →
        ∃ bytes, Contends coder.codec settings history column value ⟨.back (.ofNat distance), bytes⟩) := by
  constructor
  · exact ⟨_, .whole _ (encode_codec coder .keyframe settings.extraPass (by decide) hvalue)⟩
  · intro hfree distance hpos hle
    obtain ⟨base, hbase⟩ := hfull.exists_content
      (show 1 ≤ history.length + 1 - distance ∧ history.length + 1 - distance ≤ history.length by
        omega) hcolumn
    exact ⟨_, .back distance base _ hfree ⟨hpos, hle⟩ hbase
      (encode_codec coder _ settings.extraPass (hfull.size_lt hbase) hvalue)⟩

/-- A record is the least of those that compete for a value; and all compete that may: the value as a
whole and, unless the version has to be a keyframe, the value against each of the latest
versions. -/
structure LeastRecord (codec : Codec) (settings : TableSettings) (history : List (List Bytes))
    (column : Nat) (value : Bytes) (record : TaggedRecord) : Prop where
  contends : Contends codec settings history column value record
  least : ∀ other, Contends codec settings history column value other → record.AtMost other
  whole : ∃ bytes, Contends codec settings history column value ⟨.keyframe, bytes⟩
  back : settings.forcesKeyframe (history.length + 1) = false →
    ∀ distance, 1 ≤ distance → distance ≤ min settings.depth history.length →
      ∃ bytes, Contends codec settings history column value ⟨.back (.ofNat distance), bytes⟩

theorem leastRecord_recordFor (hfull : Full history columns) (hcolumn : column < columns)
    (hvalue : value.size < Diff.lengthLimit) :
    LeastRecord coder.codec settings history column value
      (recordFor coder settings history column value) where
  contends := contends_recordFor hfull hvalue
  least _ hother := recordFor_least hfull hvalue hother
  whole := (exists_contends hfull hcolumn hvalue).1
  back := (exists_contends hfull hcolumn hvalue).2

/-! ## The row of a version -/

theorem getElem?_recordsFor (start : Nat) (values : List Bytes) (k : Nat) :
    (recordsFor coder settings history start values)[k]? =
      (values[k]?).map (recordFor coder settings history (start + k)) := by
  induction values generalizing start k with
  | nil => rfl
  | cons value rest ih =>
    cases k with
    | zero => rfl
    | succ k =>
      have hstep : start + (k + 1) = start + 1 + k := by omega
      rw [hstep]
      exact ih (start + 1) k

theorem length_recordsFor (start : Nat) (values : List Bytes) :
    (recordsFor coder settings history start values).length = values.length := by
  induction values generalizing start with
  | nil => rfl
  | cons value rest ih => exact congrArg (· + 1) (ih (start + 1))

/-- A record of a value as a whole leads back to it. -/
theorem restores_keyframe {content : Nat → Option Bytes} {bytes : Bytes} {extraPass : Bool}
    (hencode : coder.codec.encode .keyframe #[] value extraPass = .record bytes)
    (hvalue : value.size < Diff.lengthLimit) (seq : Nat) : Restores content seq bytes value := by
  rw [encode_codec coder .keyframe extraPass (by decide) hvalue] at hencode
  cases hencode
  refine ⟨_, Record.tagOf_write _ _, .inl ⟨rfl, fun base => ?_⟩⟩
  exact coder.decode_recordOf_keyframe #[] base extraPass rfl hvalue

/-- Distances fit into a tag: from a tag for a distance that a table may have, the distance is
read. -/
theorem back_spec {distance : Nat} (hpos : 1 ≤ distance) (hdepth : distance ≤ maxDepth) :
    Tag.ofWire (Tag.back (.ofNat distance)).toWire = .back (.ofNat distance) ∧
    (Tag.back (.ofNat distance)).isKeyframe = false ∧
    ∀ seq, distance < seq → (Tag.back (.ofNat distance)).baseSeq seq = some (seq - distance) := by
  have hwire : (UInt16.ofNat distance).toNat = distance := by
    rw [UInt16.toNat_ofNat']
    unfold maxDepth at hdepth
    omega
  have hne : UInt16.ofNat distance ≠ 0 := by
    intro heq
    rw [heq] at hwire
    have : (0 : UInt16).toNat = 0 := rfl
    omega
  refine ⟨if_neg hne, ?_, fun seq hbefore => ?_⟩
  · unfold Tag.isKeyframe Tag.toWire
    simpa using hne
  · unfold Tag.baseSeq
    simp only [Tag.toWire, hwire]
    rw [if_neg (by omega)]

/-- A record has the tag under which it was written. -/
theorem tagOf_back {distance : Nat} {base bytes : Bytes} {extraPass : Bool}
    (hencode : coder.codec.encode (.back (.ofNat distance)) base value extraPass = .record bytes)
    (hshort : base.size < Diff.lengthLimit) (hvalue : value.size < Diff.lengthLimit)
    (hpos : 1 ≤ distance) (hdepth : distance ≤ maxDepth) :
    Record.tagOf bytes = .ok (.back (.ofNat distance)) := by
  rw [encode_codec coder _ extraPass hshort hvalue] at hencode
  cases hencode
  have hwritten : Record.tagOf (coder.recordOf (.back (.ofNat distance)) base value extraPass) =
      .ok (.ofWire (Tag.back (.ofNat distance)).toWire) := Record.tagOf_write _ _
  rwa [(back_spec hpos hdepth).1] at hwritten

/-- A record of a value against an earlier version leads back to it from there. -/
theorem restores_back {content : Nat → Option Bytes} {distance : Nat} {base bytes : Bytes}
    {extraPass : Bool}
    (hencode : coder.codec.encode (.back (.ofNat distance)) base value extraPass = .record bytes)
    (hshort : base.size < Diff.lengthLimit) (hvalue : value.size < Diff.lengthLimit)
    (hpos : 1 ≤ distance) (hdepth : distance ≤ maxDepth) (hbefore : distance < seq)
    (hbase : content (seq - distance) = some base) : Restores content seq bytes value := by
  obtain ⟨-, hback, hbaseSeq⟩ := back_spec hpos hdepth
  refine ⟨_, tagOf_back hencode hshort hvalue hpos hdepth,
    .inr ⟨hback, seq - distance, base, hbaseSeq seq hbefore, hbase, ?_⟩⟩
  rw [encode_codec coder _ extraPass hshort hvalue] at hencode
  cases hencode
  exact coder.decode_recordOf _ extraPass hshort hvalue

/-- A record that competes leads back to the value. -/
theorem Contends.rebuilds {record : TaggedRecord} {values : List Bytes}
    (h : Contends coder.codec settings history column value record) (hfull : Full history columns)
    (hdepth : settings.depth ≤ maxDepth) (hvalue : value.size < Diff.lengthLimit)
    (hcolumn : values[column]? = some value) :
    Rebuilds (history ++ [values]) (history.length + 1) column record.bytes := by
  have hcontent : contentAt (history ++ [values]) (history.length + 1) column = some value := by
    rw [contentAt_append_last]
    exact hcolumn
  refine rebuilds_iff.mpr ⟨value, hcontent, ?_⟩
  cases h with
  | whole bytes hencode => exact restores_keyframe hencode hvalue _
  | back distance base bytes hfree hnear hbase hencode =>
    exact restores_back hencode (hfull.size_lt hbase) hvalue hnear.1 (by omega) (by omega)
      (contentAt_append values hbase)

/-- The row of the records of its values stands for the next version. -/
theorem represented_next (hfull : Full history columns) (hdepth : settings.depth ≤ maxDepth)
    {values : List Bytes} (hshort : ∀ value ∈ values, value.size < Diff.lengthLimit)
    (group : Fingerprint) :
    Represented (history ++ [values]) (history.length + 1)
      ⟨group, history.length + 1,
        ((recordsFor coder settings history 0 values).map (·.bytes)).toArray⟩ := by
  intro column
  have hrecord : ((recordsFor coder settings history 0 values).map (·.bytes)).toArray[column]? =
      (values[column]?).map fun value => (recordFor coder settings history column value).bytes := by
    rw [List.getElem?_toArray, List.getElem?_map, getElem?_recordsFor, Nat.zero_add, Option.map_map]
    rfl
  simp only [hrecord]
  cases hvalue : values[column]? with
  | none =>
    refine ⟨fun _ => ?_, fun record hnone => by cases hnone⟩
    rw [contentAt_append_last]
    exact hvalue
  | some value =>
    refine ⟨fun hnone => by (cases hnone), fun record hsome => ?_⟩
    cases hsome
    have hsize := hshort value (List.mem_of_getElem? hvalue)
    exact (contends_recordFor hfull hsize).rebuilds hfull hdepth hsize hvalue

end VersionChain
