import VersionChain.Proofs.Record.Cover

/-!
# Records give back their targets

A target that was encoded against a base is decoded from the record and that base, whichever
tag, pass and shortest run were chosen. A record that stands on its own is decoded against any
base at all.

* `Record.decode_write` — steps that cover a target are decoded to it;
* `DiffCoder.encode_roundTrip` — encoding always succeeds on targets and bases whose lengths
  fit into 32 bits, and decoding undoes it.
-/

namespace VersionChain

/-- A tag read back from the wire is a keyframe exactly if the tag written was one. -/
theorem Tag.isKeyframe_ofWire_toWire (tag : Tag) :
    (ofWire tag.toWire).isKeyframe = tag.isKeyframe := by
  unfold isKeyframe
  rw [ofWire_toWire]

namespace Record

/-- A record is read back from its bytes. -/
theorem read_write (header : Header) (ops : List Op) :
    Header.read (write header ops).toList =
      .ok ({ header with tag := .ofWire header.tag.toWire }, ops.flatMap Op.bytes) := by
  unfold write
  exact Header.read_bytes_append header (ops.flatMap Op.bytes)

theorem tagOf_write (header : Header) (ops : List Op) :
    tagOf (write header ops) = .ok (.ofWire header.tag.toWire) := by
  unfold tagOf
  rw [read_write]
  rfl

/-- Steps that build a target on the base that the tag calls for are decoded to that target. -/
theorem decode_write {tag : Tag} {base target : Bytes} {ops : List Op}
    (bound : target.size < Diff.lengthLimit)
    (h : Op.applyAll (if tag.isKeyframe then #[] else base) #[] ops = .ok target) :
    decode base (write ⟨tag, .ofNat target.size, checksum target⟩ ops) = .ok target := by
  have hsize : (UInt32.ofNat target.size).toNat = target.size :=
    UInt32.toNat_ofNat_of_lt' bound
  have hbuilt := rebuild_write h (Nat.le_of_eq hsize.symm)
  unfold decode
  rw [read_write]
  simp only [Tag.isKeyframe_ofWire_toWire]
  rw [hbuilt]
  simp only [hsize, ne_eq, not_true_eq_false, if_false]

end Record

namespace Diff

/-- A keyframe is written without looking at the base. -/
theorem steps_keyframe (coder : DiffCoder) {tag : Tag} (base target : Bytes) (extraPass : Bool)
    (h : tag.isKeyframe = true) : steps coder tag base target extraPass = literal target :=
  if_pos h

/-- The steps that the codec writes build the target on the base that the tag calls for. -/
theorem applyAll_steps (coder : DiffCoder) (tag : Tag) {base : Bytes} (target : Bytes)
    (extraPass : Bool) (hbase : base.size < lengthLimit) :
    Op.applyAll (if tag.isKeyframe then #[] else base) #[]
      (steps coder tag base target extraPass) = .ok target := by
  by_cases h : tag.isKeyframe = true
  · rw [if_pos h, steps_keyframe coder base target extraPass h]
    have hcover := literal_covers #[] target
    unfold Covers at hcover
    rwa [Array.extract_size] at hcover
  · rw [if_neg h]
    have hcover := steps_cover coder tag target extraPass hbase
    unfold Covers at hcover
    rwa [Array.extract_size] at hcover

end Diff

namespace DiffCoder

/-- The record that is written when both lengths fit into 32 bits. -/
def recordOf (coder : DiffCoder) (tag : Tag) (base target : Bytes) (extraPass : Bool) : Bytes :=
  Record.write ⟨tag, .ofNat target.size, checksum target⟩
    (Diff.steps coder tag base target extraPass)

theorem encode_eq_record (coder : DiffCoder) (tag : Tag) {base target : Bytes} (extraPass : Bool)
    (hbase : base.size < Diff.lengthLimit) (htarget : target.size < Diff.lengthLimit) :
    coder.encode tag base target extraPass = .record (coder.recordOf tag base target extraPass) :=
  if_pos ⟨htarget, hbase⟩

theorem decode_recordOf (coder : DiffCoder) (tag : Tag) {base target : Bytes} (extraPass : Bool)
    (hbase : base.size < Diff.lengthLimit) (htarget : target.size < Diff.lengthLimit) :
    Record.decode base (coder.recordOf tag base target extraPass) = .ok target :=
  Record.decode_write htarget (Diff.applyAll_steps coder tag target extraPass hbase)

/-- The record of a keyframe is decoded against any base, of whatever length. -/
theorem decode_recordOf_keyframe (coder : DiffCoder) {tag : Tag} (base other : Bytes)
    {target : Bytes} (extraPass : Bool) (htag : tag.isKeyframe = true)
    (htarget : target.size < Diff.lengthLimit) :
    Record.decode other (coder.recordOf tag base target extraPass) = .ok target := by
  refine Record.decode_write htarget ?_
  have hempty : (#[] : Bytes).size < Diff.lengthLimit := by decide
  have happly := Diff.applyAll_steps coder tag target extraPass hempty
  rw [Diff.steps_keyframe coder base target extraPass htag]
  rw [Diff.steps_keyframe coder #[] target extraPass htag] at happly
  simpa only [htag, if_true] using happly

/-- Encoding a target gives a record that bears the tag as the wire knows it and from which the
target is decoded again; the record of a keyframe is decoded against every base. -/
theorem encode_roundTrip (coder : DiffCoder) (tag : Tag) (base target : Bytes) (extraPass : Bool)
    (hbase : base.size < Diff.lengthLimit) (htarget : target.size < Diff.lengthLimit) :
    ∃ record, coder.codec.encode tag base target extraPass = .record record ∧
      coder.codec.tagOf record = .ok (.ofWire tag.toWire) ∧
      coder.codec.decode base record = .ok target ∧
      (tag.isKeyframe = true → ∀ other, coder.codec.decode other record = .ok target) := by
  refine ⟨coder.recordOf tag base target extraPass, ?_, ?_, ?_, ?_⟩
  · exact encode_eq_record coder tag extraPass hbase htarget
  · exact Record.tagOf_write _ _
  · exact decode_recordOf coder tag extraPass hbase htarget
  · intro htag other
    exact decode_recordOf_keyframe coder base other extraPass htag htarget

/-- A target that repeats its base with a changed byte in between, by way of the extra pass. -/
theorem encode_roundTrip_changed_byte :
    (5 < Diff.lengthLimit ∧ 5 < Diff.lengthLimit) ∧
    ∃ record, (withMinMatch 4).codec.encode (.back 1) #[1, 2, 3, 4, 5] #[1, 2, 9, 4, 5] true =
        .record record ∧
      (withMinMatch 4).codec.tagOf record = .ok (.ofWire (Tag.back 1).toWire) ∧
      (withMinMatch 4).codec.decode #[1, 2, 3, 4, 5] record = .ok #[1, 2, 9, 4, 5] ∧
      ((Tag.back 1).isKeyframe = true →
        ∀ other, (withMinMatch 4).codec.decode other record = .ok #[1, 2, 9, 4, 5]) :=
  ⟨by decide, encode_roundTrip (withMinMatch 4) (.back 1) #[1, 2, 3, 4, 5] #[1, 2, 9, 4, 5] true
    (by decide) (by decide)⟩

end DiffCoder

end VersionChain
