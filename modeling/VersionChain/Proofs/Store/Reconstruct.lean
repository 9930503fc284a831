import VersionChain.Proofs.Record.RoundTrip
import VersionChain.Proofs.Store.Chains
import VersionChain.Proofs.Store.Paths
import VersionChain.Record.Diff

/-!
# Rebuilding is reconstruction

What a column of a version contains is defined by recursion over its chain, by the rows alone. The
store finds it without recursion, starting from whatever is cached and caching what it meets. Over
any rows that have no version twice, for any codec, and as long as the cached contents are right, it
finds just that: the content, nothing where the chain breaks off, or the failure of the first record
that cannot be read. And the cached contents are right again afterwards.

* `reconstruct` — the content of a version by the rows alone;
* `Reconstructs` — the contents that may be cached;
* `resolve_eq_reconstruct` — rebuilding gives what reconstruction gives.
-/

namespace VersionChain.StoreM

open MemoryRows

/-- The content of a column of version `seq` of a group, by the rows alone. -/
def reconstruct (codec : Codec) (m : MemoryRows) (g : GroupId) (column seq : Nat) : Answer :=
  if seq = 0 then .ok none
  else
    match (m.live? ⟨g, seq⟩).bind (·.columns[column]?) with
    | none => .ok none
    | some record =>
      match codec.tagOf record with
      | .error cause => .error (.corrupt ⟨g, seq⟩ column cause)
      | .ok tag =>
        if tag.isKeyframe then decodeOn codec g column seq record #[]
        else
          match _h : tag.baseSeq seq with
          | none => .ok none
          | some base => relink codec g column seq record (reconstruct codec m g column base)
  termination_by seq
  decreasing_by exact (Tag.baseSeq_lt _h).1

/-- The contents of versions of a table, by the rows alone. -/
def Reconstructs (codec : Codec) (m : MemoryRows) (table : TableId) (key : ContentKey)
    (value : Bytes) : Prop :=
  key.table = table →
    reconstruct codec m key.toGroupId key.column.toNat key.seq = .ok (some value)

variable {codec : Codec} {m m' : MemoryRows} {g : GroupId} {column : Nat}

/-- Reconstruction is settled by the rows and the records in them. -/
theorem fits_reconstruct (codec : Codec) (m : MemoryRows) (g : GroupId) (column : Nat) :
    Fits codec g column (fun seq => m.live? ⟨g, seq⟩)
      fun seq answer => answer = reconstruct codec m g column seq := by
  refine ⟨?_, fun seq hseq hrecord => ?_, fun seq record cause hseq hrecord htag => ?_,
    fun seq record tag hseq hrecord htag hkeyframe => ?_,
    fun seq record tag hseq hrecord htag hback hbaseless => ?_,
    fun seq record tag base answer hseq hrecord htag hback hbase hanswer => ?_⟩
  · rw [reconstruct, if_pos rfl]
  all_goals rw [reconstruct, if_neg (Nat.ne_of_gt hseq), hrecord]
  all_goals simp only [htag]
  · rw [if_pos hkeyframe]
  · rw [if_neg (by rw [hback]; exact Bool.false_ne_true)]
    split
    · rfl
    · rename_i hsome
      rw [hbaseless] at hsome
      cases hsome
  · rw [if_neg (by rw [hback]; exact Bool.false_ne_true), hanswer]
    split
    · rename_i hnone
      rw [hbase] at hnone
      cases hnone
    · rename_i other hother
      rw [hbase] at hother
      cases hother
      rfl

/-- Reading rows does not change what they contain. -/
theorem reconstruct_congr (hrows : Recounted m m') (codec : Codec) :
    reconstruct codec m' = reconstruct codec m := by
  have hlive : ∀ v, m'.live? v = m.live? v := by
    intro v
    unfold live? ofGroup
    rw [hrows.rowsOf]
  funext g column seq
  induction seq using Nat.strongRecOn with
  | ind seq ih =>
    rw [reconstruct, reconstruct, hlive]
    split
    · rfl
    · split
      · rfl
      · split
        · rfl
        · split
          · rfl
          · split
            · rfl
            · rename_i base hbase
              rw [ih base (Tag.baseSeq_lt hbase).1]

theorem reconstructs_contentKey {seq : Nat} {value : Bytes} (hcolumn : column < 65536) :
    Reconstructs codec m g.table (contentKey ⟨g, seq⟩ column) value ↔
      .ok (some value) = reconstruct codec m g column seq := by
  unfold Reconstructs contentKey
  simp only [forall_const]
  rw [UInt16.toNat_ofNat_of_lt' hcolumn]
  exact eq_comm

theorem ends_resolve_live {s : Store MemoryRows} (hcodec : s.codec = codec) (v : VersionId)
    (hcolumn : column < 65536)
    (hfinds : Finds s.rows v.toGroupId fun seq => m.live? ⟨v.toGroupId, seq⟩)
    (hcontent : s.service.content.Serves (Reconstructs codec m v.table)) :
    Ends (resolve v column) s fun answer s' =>
      answer = reconstruct codec m v.toGroupId column v.seq ∧
        Quiet (Reconstructs codec m v.table) s s' :=
  ends_resolve hcodec hcontent (fun _ _ => reconstructs_contentKey hcolumn)
    (fits_reconstruct codec m v.toGroupId column) hfinds v.seq

/-- Over any rows that have no version of the table twice, for any codec, and whatever locations are
cached, rebuilding gives what reconstruction by the rows gives, if that is so for all that is
cached. It is so for all that is cached afterwards; the rows contain what they did, and rebuilding
once more gives the same. -/
theorem resolve_eq_reconstruct {s : Store MemoryRows} (v : VersionId) {column : Nat}
    (hcolumn : column < 65536) (hmade : s.rows.Made) (hdistinct : s.rows.Distinct v.table)
    (hcontent : s.service.content.Serves (Reconstructs s.codec s.rows v.table)) :
    let s' := (resolve v column s).2
    (resolve v column s).1 = reconstruct s.codec s.rows v.toGroupId column v.seq ∧
    s'.service.content.Serves (Reconstructs s.codec s.rows v.table) ∧
    s'.codec = s.codec ∧ reconstruct s.codec s'.rows = reconstruct s.codec s.rows ∧
    (resolve v column s').1 = (resolve v column s).1 := by
  have hfinds := finds_live (indexed_of_made hmade) (g := v.toGroupId) hdistinct
  obtain ⟨hanswer, hquiet⟩ := ends_resolve_live rfl v hcolumn hfinds hcontent
  -- what is known of the store is known of the one that is left
  obtain ⟨hagain, -⟩ :=
    ends_resolve_live hquiet.codec v hcolumn (hfinds.congr hquiet.rows) hquiet.serves
  exact ⟨hanswer, hquiet.serves, hquiet.codec, reconstruct_congr hquiet.rows s.codec,
    hagain.trans hanswer.symm⟩

/-- Records of three versions, each but the first written against the one before. The last copies
more than there is. -/
def overlongRecord (seq : Nat) : Bytes :=
  let text : Bytes := #[7, 8, 9]
  match seq with
  | 1 => Record.write ⟨.keyframe, 3, checksum text⟩ [.insert text]
  | 2 => Record.write ⟨.back 1, 3, checksum text⟩ [.copy 0 3]
  | _ => Record.write ⟨.back 1, 3, checksum text⟩ [.copy 1 3]

/-- The second version is read through the first, of which the content is cached. The third is not,
however often it is asked for. -/
theorem resolve_eq_reconstruct_overlong :
    let v (seq : Nat) : VersionId := ⟨⟨1, .zero⟩, seq⟩
    let changes := [1, 2, 3].map fun seq => RowChange.append 1 ⟨.zero, seq, #[overlongRecord seq]⟩
    let rows := changes.foldl carryOut {}
    let content := ((ContentCache.ofBudget 1 8).put (contentKey (v 1) 0) #[7, 8, 9]).2
    let s : Store MemoryRows := .new { Service.ofSettings {} with content } rows (DiffCoder.codec {})
    (0 < 65536 ∧ s.rows.Made ∧ s.rows.Distinct 1 ∧
      s.service.content.Serves (Reconstructs s.codec s.rows 1)) ∧
    (s.service.content.get (contentKey (v 1) 0)).1 = some #[7, 8, 9] ∧
    (resolve (v 2) 0 s).1 = .ok (some #[7, 8, 9]) ∧
    (resolve (v 3) 0 s).1 = .error (.corrupt (v 3) 0 (.copyOutOfRange 1 3 3)) ∧
    (resolve (v 3) 0 (resolve (v 3) 0 s).2).1 = (resolve (v 3) 0 s).1 := by
  intro v changes rows content s
  have hfresh : fresh [] changes := rfl
  have hbecomes : Becomes {} changes rows := becomes_of_fresh true [] nofun hfresh (by decide)
  have hmade : s.rows.Made := ⟨true, changes, rfl⟩
  have hdistinct : s.rows.Distinct 1 := hbecomes.valid_of_empty.1.distinct 1
  obtain ⟨-, hrows⟩ := rowsOf_replay true changes (not_reject_of_fresh [] hfresh) (by decide)
  have hlive (seq : Nat) : s.rows.live? (v seq) =
      (((replay 1 changes).ofGroup .zero).find? (·.2.seq = seq)).map (·.2) := by
    rw [← (hrows 1).2]
    unfold live? ofGroup
    rw [List.find?_map, Option.map_map]
    rfl
  have hrecord : ∀ seq ∈ [1, 2, 3],
      (s.rows.live? (v seq)).bind (·.columns[0]?) = some (overlongRecord seq) := by
    intro seq hseq
    rw [hlive]
    simp only [List.mem_cons, List.not_mem_nil, or_false] at hseq
    rcases hseq with rfl | rfl | rfl <;> rfl
  -- what the three records give, one after the other
  have hfits := fits_reconstruct s.codec s.rows ⟨1, .zero⟩ 0
  have hfirst : .ok (some #[7, 8, 9]) = reconstruct s.codec s.rows ⟨1, .zero⟩ 0 1 := by
    refine Eq.trans ?_ (hfits.whole 1 _ _ (by decide) (hrecord 1 (by decide))
      (Record.tagOf_write _ _) rfl)
    decide +kernel
  have hsecond : .ok (some #[7, 8, 9]) = reconstruct s.codec s.rows ⟨1, .zero⟩ 0 2 := by
    refine Eq.trans ?_ (hfits.back 2 _ _ _ _ (by decide) (hrecord 2 (by decide))
      (Record.tagOf_write _ _) rfl rfl hfirst)
    decide +kernel
  have hthird : .error (.corrupt (v 3) 0 (.copyOutOfRange 1 3 3)) =
      reconstruct s.codec s.rows ⟨1, .zero⟩ 0 3 := by
    refine Eq.trans ?_ (hfits.back 3 _ _ _ _ (by decide) (hrecord 3 (by decide))
      (Record.tagOf_write _ _) rfl rfl hsecond)
    decide +kernel
  have hcontent : s.service.content.Serves (Reconstructs s.codec s.rows 1) :=
    (ContentCache.serves_ofBudget 1 8 _).put ((reconstructs_contentKey (by decide)).mpr hfirst)
  have hcolumn : 0 < 65536 := by decide
  obtain ⟨hanswer, -⟩ := resolve_eq_reconstruct (v 2) hcolumn hmade hdistinct hcontent
  obtain ⟨hfailure, -, -, -, hagain⟩ :=
    resolve_eq_reconstruct (v 3) hcolumn hmade hdistinct hcontent
  exact ⟨⟨hcolumn, hmade, hdistinct, hcontent⟩, by decide +kernel, hanswer.trans hsecond.symm,
    hfailure.trans hthird.symm, hagain⟩

end VersionChain.StoreM
