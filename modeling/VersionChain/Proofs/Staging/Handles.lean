import Mathlib.Data.List.Induction
import Mathlib.Data.List.Nodup
import VersionChain.Proofs.Staging.Arena
import VersionChain.Proofs.Staging.Ring

/-!
# Handles over the lifetime of an arena

A cell is used again and again, and begins a new generation each time its region is taken back. So
a handle leads to the region that was handed out under it until that is taken back, and to none
ever after, unless a cell goes through so many generations that they come round again, or there are
so many cells that their numbers do.

* `Register` — an arena with the handles that were issued and those that were taken back;
* `Accounted` — a cell is in the generation that its releases make, and what is in it was handed
  out in that generation;
* `Accounted.allocate`, `Accounted.edit`, `Accounted.take` — one call;
* `handles_exclusive` — every sequence of calls, up to 2³² cells;
* `handles_coincide` — one cell more.
-/

namespace VersionChain

/-! ## Calls -/

/-- How many rows and columns a region has. -/
structure Shape where
  depth : Nat
  columns : Nat
  deriving DecidableEq

namespace Region

/-- The shape of a region. -/
def shape (r : Region) : Shape := ⟨r.depth, r.columns⟩

theorem shape_new (depth columns : Nat) : (Region.new depth columns).shape = ⟨depth, columns⟩ := by
  unfold shape new Region.depth
  rw [Array.size_replicate]

/-- A change of a region that leaves its shape alone. -/
structure Edit where
  apply : Region → Region
  shape_apply : ∀ r, (apply r).shape = r.shape

/-- Staging a content changes no shape. -/
def Edit.push (pos seq column : Nat) (content : Bytes) : Edit where
  apply r := r.push pos seq column content
  shape_apply _ := congrArg₂ Shape.mk (depth_push column content) (columns_push column content)

/-- Sealing a row changes no shape. -/
def Edit.commit (pos seq : Nat) : Edit where
  apply r := r.commit pos seq
  shape_apply _ := congrArg₂ Shape.mk depth_commit columns_commit

end Region

/-- What is done to an arena and to the regions in it, with any handles whatever. -/
inductive ArenaCall where
  | allocate (shape : Shape)
  | edit (h : Handle UInt32) (change : Region.Edit)
  | release (h : Handle UInt32)

namespace Arena

/-! ## Cells -/

section Cells

variable {ι : Type} [CellNumber ι] {a : Arena ι} {h : Handle ι} {region : Region}

/-- Taking a region back begins a new generation of its cell. -/
theorem cells_release (hget : a.get? h = some region) (i : Nat) :
    (a.release h).cells[i]? =
      if i = h.position then some ⟨h.generation + 1, none⟩ else a.cells[i]? := by
  obtain ⟨cell, hcell, hgeneration, -⟩ := get?_eq_some.mp hget
  unfold release
  rw [hget]
  simp only [Option.isSome_some, if_true]
  rw [Array.getElem?_modify]
  by_cases hi : i = h.position
  · rw [if_pos hi.symm, if_pos hi, hi, hcell, ← hgeneration]
    rfl
  · rw [if_neg (Ne.symm hi), if_neg hi]

/-- A handle that leads nowhere takes nothing back. -/
theorem release_of_none (hget : a.get? h = none) : a.release h = a := by
  unfold release
  rw [hget]
  exact if_neg Bool.false_ne_true

theorem size_release (a : Arena ι) (h : Handle ι) : (a.release h).cells.size = a.cells.size := by
  unfold release
  split
  · exact Array.size_modify
  · rfl

/-- Changing a region leaves the generations of the cells alone, and what is vacant. -/
theorem cell_of_modify {f : Region → Region} {i : Nat} {cell : ArenaCell}
    (hcell : (a.modify h f).cells[i]? = some cell) :
    ∃ old, a.cells[i]? = some old ∧ cell.generation = old.generation ∧
      cell.region.isSome = old.region.isSome := by
  unfold modify at hcell
  rw [Array.getElem?_modify] at hcell
  split at hcell
  · obtain ⟨old, hold, rfl⟩ := Option.map_eq_some_iff.mp hcell
    refine ⟨old, hold, ?_⟩
    split
    · exact ⟨rfl, Option.isSome_map⟩
    · exact ⟨rfl, rfl⟩
  · exact ⟨cell, hcell, rfl, rfl⟩

/-- A change through one handle shows through no other. -/
theorem get?_modify_of_ne {k : Handle ι} (f : Region → Region) (hne : k ≠ h) :
    (a.modify h f).get? k = a.get? k := by
  by_cases hindex : k.index = h.index
  · -- both name one cell, in different generations
    have hgeneration : k.generation ≠ h.generation := by
      intro heq
      cases k
      cases h
      simp only at hindex heq
      exact hne (by rw [hindex, heq])
    have hposition : k.position = h.position := congrArg CellNumber.position hindex
    unfold get? cell? modify
    rw [hposition, Array.getElem?_modify, if_pos rfl]
    cases a.cells[h.position]? with
    | none => rfl
    | some cell =>
      by_cases hcell : cell.generation = h.generation
      · simp [Option.filter, hcell, hgeneration.symm]
      · simp [hcell]
  · exact get?_modify_ne f hindex

/-- There are never fewer cells than before. -/
theorem size_le_allocate (a : Arena ι) (region : Region) :
    a.cells.size ≤ (a.allocate region).2.cells.size := by
  unfold allocate
  split
  · exact Nat.le_of_eq Array.size_modify.symm
  · rw [Array.size_push]
    exact Nat.le_succ _

end Cells

/-! ## Calls on an arena -/

/-- An arena whose cells have numbers of 32 bits, with what was handed out and taken back, the
latest first. -/
structure Register where
  arena : Arena UInt32 := {}
  /-- The handles that were issued, with the shapes that were asked for. -/
  issued : List (Handle UInt32 × Shape) := []
  /-- The handles whose regions were taken back. -/
  returned : List (Handle UInt32) := []

namespace Register

/-- What was handed out and not taken back. -/
def outstanding (r : Register) : List (Handle UInt32 × Shape) :=
  r.issued.filter fun x => x.1 ∉ r.returned

/-- The handles of what was handed out and not taken back. -/
def holders (r : Register) : List (Handle UInt32) := r.outstanding.map (·.1)

/-- How often a region was taken back from a cell. -/
def releases (r : Register) (i : UInt32) : Nat := r.returned.countP (·.index = i)

/-- One call. A handle is taken back if it is that of something handed out. -/
def step (r : Register) : ArenaCall → Register
  | .allocate shape =>
    let given := r.arena.allocate (.new shape.depth shape.columns)
    { r with arena := given.2, issued := (given.1, shape) :: r.issued }
  | .edit h change => { r with arena := r.arena.modify h change.apply }
  | .release h =>
    { r with
      arena := r.arena.release h
      returned := if h ∈ r.holders then h :: r.returned else r.returned }

/-- An arena that was empty, after calls. -/
def after (calls : List ArenaCall) : Register := calls.foldl step {}

variable {r : Register}

theorem mem_outstanding {h : Handle UInt32} {shape : Shape} :
    (h, shape) ∈ r.outstanding ↔ (h, shape) ∈ r.issued ∧ h ∉ r.returned := by
  unfold outstanding
  rw [List.mem_filter, decide_eq_true_eq]

theorem mem_holders {h : Handle UInt32} : h ∈ r.holders ↔ ∃ shape, (h, shape) ∈ r.outstanding := by
  unfold holders
  rw [List.mem_map]
  exact ⟨fun ⟨x, hx, heq⟩ => ⟨x.2, heq ▸ hx⟩, fun ⟨shape, hx⟩ => ⟨_, hx, rfl⟩⟩

theorem releases_le_step (r : Register) (call : ArenaCall) (i : UInt32) :
    r.releases i ≤ (r.step call).releases i := by
  cases call with
  | allocate shape => exact Nat.le_refl _
  | edit h change => exact Nat.le_refl _
  | release h =>
    show r.releases i ≤ List.countP _ (if h ∈ r.holders then h :: r.returned else r.returned)
    split
    · exact (List.sublist_cons_self h r.returned).countP_le
    · exact Nat.le_refl _

theorem after_concat (calls : List ArenaCall) (call : ArenaCall) :
    after (calls ++ [call]) = (after calls).step call := by
  unfold after
  rw [List.foldl_append]
  rfl

/-- No cell is given up more often than there are calls. -/
theorem releases_after_le (calls : List ArenaCall) (i : UInt32) :
    (after calls).releases i ≤ calls.length := by
  refine Nat.le_trans List.countP_le_length ?_
  induction calls using List.reverseRecOn with
  | nil => exact Nat.le_refl 0
  | append_singleton calls call ih =>
    rw [after_concat, List.length_append, List.length_singleton]
    cases call with
    | allocate shape => exact Nat.le_succ_of_le ih
    | edit h change => exact Nat.le_succ_of_le ih
    | release h =>
      show List.length (if h ∈ (after calls).holders then h :: (after calls).returned
        else (after calls).returned) ≤ _
      split
      · exact Nat.succ_le_succ ih
      · exact Nat.le_succ_of_le ih

/-! ## The books -/

/-- What is in the cells of an arena is what was handed out and not taken back. -/
structure Accounted (r : Register) : Prop where
  valid : r.arena.Valid
  /-- A cell is in the generation that its releases make. -/
  generation : ∀ i cell, r.arena.cells[CellNumber.position i]? = some cell →
    cell.generation = .ofNat (r.releases i)
  /-- What is in a cell was handed out in its present generation. -/
  tenant : ∀ i cell, r.arena.cells[CellNumber.position i]? = some cell → cell.region.isSome →
    ⟨i, cell.generation⟩ ∈ r.holders
  leads : ∀ h shape, (h, shape) ∈ r.outstanding →
    ∃ region, r.arena.get? h = some region ∧ region.shape = shape
  /-- A handle that was taken back is of a generation that is over. -/
  past : ∀ h ∈ r.returned, h.position < r.arena.cells.size ∧
    ∃ n < r.releases h.index, h.generation = .ofNat n
  inside : ∀ x ∈ r.issued, x.1.position < r.arena.cells.size
  distinct : (r.issued.map (·.1)).Nodup

/-- Neither generations nor numbers come round again. -/
structure Bounded (r : Register) : Prop where
  /-- No cell was given up too often. -/
  releases : ∀ i, r.releases i < UInt32.size
  /-- There are not too many cells. -/
  cells : r.arena.cells.size ≤ UInt32.size

/-- Every cell has a number. -/
theorem Bounded.number (hbound : r.Bounded) {p : Nat} (hp : p < r.arena.cells.size) :
    (UInt32.ofNat p).toNat = p :=
  UInt32.toNat_ofNat_of_lt' (Nat.lt_of_lt_of_le hp hbound.cells)

theorem accounted_nil : Accounted {} where
  valid := valid_empty
  generation i cell hcell := by simp at hcell
  tenant i cell hcell := by simp at hcell
  leads h shape hmem := by cases hmem
  past h hmem := by cases hmem
  inside x hmem := by cases hmem
  distinct := List.nodup_nil

namespace Accounted

/-- What leads to a region is outstanding. -/
theorem mem_holders_iff (hr : Accounted r) {h : Handle UInt32} :
    h ∈ r.holders ↔ (r.arena.get? h).isSome := by
  constructor
  · intro hmem
    obtain ⟨shape, hmem⟩ := mem_holders.mp hmem
    obtain ⟨region, hget, -⟩ := hr.leads h shape hmem
    rw [hget]
    rfl
  · intro hsome
    obtain ⟨region, hget⟩ := Option.isSome_iff_exists.mp hsome
    obtain ⟨cell, hcell, hgeneration, hregion⟩ := get?_eq_some.mp hget
    have hmem := hr.tenant h.index cell hcell (by rw [hregion]; rfl)
    rwa [hgeneration] at hmem

/-- Two regions that are out are in two cells. -/
theorem index_inj (hr : Accounted r) {h k : Handle UInt32} (hh : h ∈ r.holders) (hk : k ∈ r.holders)
    (heq : h.index = k.index) : h = k := by
  obtain ⟨region, hget⟩ := Option.isSome_iff_exists.mp (hr.mem_holders_iff.mp hh)
  obtain ⟨region', hget'⟩ := Option.isSome_iff_exists.mp (hr.mem_holders_iff.mp hk)
  exact eq_of_index hget hget' heq

/-- A handle that was taken back is not of the present generation of its cell. -/
theorem generation_ne (hr : Accounted r) (hbound : r.Bounded) {h : Handle UInt32} {cell : ArenaCell}
    (hmem : h ∈ r.returned) (hcell : r.arena.cells[h.position]? = some cell) :
    cell.generation ≠ h.generation := by
  obtain ⟨-, n, hn, hgeneration⟩ := hr.past h hmem
  have hnow := hbound.releases h.index
  rw [hr.generation h.index cell hcell, hgeneration]
  intro heq
  have hnat := congrArg UInt32.toNat heq
  rw [UInt32.toNat_ofNat_of_lt' hnow, UInt32.toNat_ofNat_of_lt' (Nat.lt_trans hn hnow)] at hnat
  omega

theorem get?_returned (hr : Accounted r) (hbound : r.Bounded) {h : Handle UInt32}
    (hmem : h ∈ r.returned) : r.arena.get? h = none := by
  rw [Option.eq_none_iff_forall_ne_some]
  intro region hget
  obtain ⟨cell, hcell, hgeneration, -⟩ := get?_eq_some.mp hget
  exact hr.generation_ne hbound hmem hcell hgeneration

/-! ## One call -/

/-- A handle that is issued was neither issued nor taken back before. -/
theorem not_issued (hr : Accounted r) (hbound : r.Bounded) {b : Arena UInt32} {h : Handle UInt32}
    {region : Region} (hissues : Issues r.arena b h region) :
    (∀ x ∈ r.issued, x.1 ≠ h) ∧ h ∉ r.returned := by
  have hreturned : h ∉ r.returned := by
    intro hmem
    rcases hissues.before with hcell | ⟨hnew, -⟩
    · exact hr.generation_ne hbound hmem hcell rfl
    · exact Nat.ne_of_lt (hr.past h hmem).1 hnew
  refine ⟨?_, hreturned⟩
  rintro ⟨k, shape⟩ hmem heq
  simp only at heq
  subst heq
  -- it would lead to a region already
  obtain ⟨other, hget, -⟩ := hr.leads k shape (mem_outstanding.mpr ⟨hmem, hreturned⟩)
  exact hissues.position_ne hget rfl

/-- No region was taken back from a cell that there is not. -/
theorem releases_eq_zero (hr : Accounted r) {i : UInt32}
    (hi : r.arena.cells.size ≤ CellNumber.position i) : r.releases i = 0 := by
  refine List.countP_eq_zero.mpr fun k hk => ?_
  have hlt := (hr.past k hk).1
  simp only [decide_eq_true_eq]
  rintro rfl
  exact Nat.not_lt.mpr hi hlt

/-- A region is handed out under a handle. -/
theorem issue (hr : Accounted r) (hbound : r.Bounded) {b : Arena UInt32} {h : Handle UInt32}
    {region : Region} (hvalid : b.Valid) (hissues : Issues r.arena b h region) :
    Accounted { r with arena := b, issued := (h, region.shape) :: r.issued } := by
  obtain ⟨hissued, hreturned⟩ := hr.not_issued hbound hissues
  have houtstanding : outstanding { r with arena := b, issued := (h, region.shape) :: r.issued } =
      (h, region.shape) :: r.outstanding := List.filter_cons_of_pos (by simpa using hreturned)
  have hother : ∀ i, i ≠ h.index →
      b.cells[CellNumber.position i]? = r.arena.cells[CellNumber.position i]? := fun i hi =>
    (hissues.cells _).trans (if_neg (mt CellNumber.position_inj.mp hi))
  have hself : b.cells[CellNumber.position h.index]? = some ⟨h.generation, some region⟩ :=
    (hissues.cells _).trans (if_pos rfl)
  have hle := hissues.size.1
  refine ⟨hvalid, fun i cell hcell => ?generation, fun i cell hcell hsome => ?tenant,
    fun k shape hk => ?leads, fun k hk => ?past, fun x hx => ?inside, ?distinct⟩
  case generation =>
    by_cases hi : i = h.index
    · rw [hi, hself] at hcell
      cases hcell
      rw [hi]
      show h.generation = .ofNat (r.releases h.index)
      rcases hissues.before with hvacant | ⟨hnew, hzero⟩
      · exact hr.generation h.index ⟨h.generation, none⟩ hvacant
      · have hnone : r.releases h.index = 0 := hr.releases_eq_zero (Nat.le_of_eq hnew.symm)
        rw [hnone, hzero]
        rfl
    · rw [hother i hi] at hcell
      exact hr.generation i cell hcell
  case tenant =>
    rw [mem_holders, houtstanding]
    by_cases hi : i = h.index
    · rw [hi, hself] at hcell
      cases hcell
      rw [hi]
      exact ⟨region.shape, List.mem_cons_self⟩
    · rw [hother i hi] at hcell
      obtain ⟨shape, hmem⟩ := mem_holders.mp (hr.tenant i cell hcell hsome)
      exact ⟨shape, List.mem_cons_of_mem _ hmem⟩
  case leads =>
    rw [houtstanding] at hk
    rcases List.mem_cons.mp hk with heq | hold
    · cases heq
      exact ⟨region, hissues.get?_self, rfl⟩
    · obtain ⟨other, hget, hshape⟩ := hr.leads k shape hold
      exact ⟨other, (hissues.get?_of_ne (hissues.position_ne hget)).trans hget, hshape⟩
  case past =>
    obtain ⟨hlt, hpast⟩ := hr.past k hk
    exact ⟨Nat.lt_of_lt_of_le hlt hle, hpast⟩
  case inside =>
    rcases List.mem_cons.mp hx with rfl | hold
    · exact hissues.inside
    · exact Nat.lt_of_lt_of_le (hr.inside x hold) hle
  case distinct =>
    refine List.nodup_cons.mpr ⟨fun hmem => ?_, hr.distinct⟩
    obtain ⟨x, hx, heq⟩ := List.mem_map.mp hmem
    exact hissued x hx heq

theorem allocate (hr : Accounted r) (hbound : r.Bounded) (shape : Shape)
    (hafter : (r.step (.allocate shape)).Bounded) : Accounted (r.step (.allocate shape)) := by
  have h := hr.issue hbound (hr.valid.allocate (.new shape.depth shape.columns))
    (hr.valid.issues (roomy_of_le hafter.cells) (.new shape.depth shape.columns))
  rwa [Region.shape_new] at h

theorem edit (hr : Accounted r) (h : Handle UInt32) (change : Region.Edit) :
    Accounted (r.step (.edit h change)) := by
  have hsize : (r.arena.modify h change.apply).cells.size = r.arena.cells.size := Array.size_modify
  refine ⟨hr.valid.modify h change.apply, fun i cell hcell => ?generation,
    fun i cell hcell hsome => ?tenant, fun k shape hk => ?leads, fun k hk => ?past,
    fun x hx => ?inside, hr.distinct⟩
  case generation =>
    obtain ⟨old, hold, hgeneration, -⟩ := cell_of_modify hcell
    exact hgeneration.trans (hr.generation i old hold)
  case tenant =>
    obtain ⟨old, hold, hgeneration, hregion⟩ := cell_of_modify hcell
    rw [hgeneration]
    exact hr.tenant i old hold (hregion ▸ hsome)
  case leads =>
    obtain ⟨region, hget, hshape⟩ := hr.leads k shape hk
    by_cases hkh : k = h
    · refine ⟨change.apply region, ?_, (change.shape_apply region).trans hshape⟩
      show (r.arena.modify h change.apply).get? k = _
      rw [← hkh, get?_modify, hget]
      rfl
    · exact ⟨region, (get?_modify_of_ne change.apply hkh).trans hget, hshape⟩
  case past =>
    show k.position < (r.arena.modify h change.apply).cells.size ∧ _
    rw [hsize]
    exact hr.past k hk
  case inside =>
    show x.1.position < (r.arena.modify h change.apply).cells.size
    rw [hsize]
    exact hr.inside x hx

/-- A region is taken back from its handle. -/
theorem take (hr : Accounted r) {h : Handle UInt32} (hmem : h ∈ r.holders) :
    Accounted { r with arena := r.arena.release h, returned := h :: r.returned } := by
  obtain ⟨region, hget⟩ := Option.isSome_iff_exists.mp (hr.mem_holders_iff.mp hmem)
  have hcells := cells_release hget
  have hsize := size_release r.arena h
  have houtstanding : ∀ k shape,
      (k, shape) ∈ outstanding { r with arena := r.arena.release h, returned := h :: r.returned } ↔
        (k, shape) ∈ r.outstanding ∧ k ≠ h := by
    intro k shape
    rw [mem_outstanding, mem_outstanding, List.mem_cons, not_or, and_assoc, and_comm (a := k ≠ h)]
  have hreleases : ∀ i,
      releases { r with arena := r.arena.release h, returned := h :: r.returned } i =
        r.releases i + if h.index = i then 1 else 0 := by
    intro i
    unfold releases
    rw [List.countP_cons]
    simp only [decide_eq_true_eq]
  obtain ⟨cell, hcell, hgeneration, -⟩ := get?_eq_some.mp hget
  have hnow : h.generation = .ofNat (r.releases h.index) :=
    hgeneration ▸ hr.generation h.index cell hcell
  refine ⟨hr.valid.release h, fun i cell hcell => ?generation, fun i cell hcell hsome => ?tenant,
    fun k shape hk => ?leads, fun k hk => ?past, fun x hx => ?inside, hr.distinct⟩
  case generation =>
    rw [hreleases]
    rw [hcells] at hcell
    by_cases hi : i = h.index
    · rw [if_pos (Handle.position_eq_iff.mpr hi)] at hcell
      cases hcell
      rw [hi, if_pos rfl, UInt32.ofNat_add, ← hnow]
      rfl
    · rw [if_neg (mt Handle.position_eq_iff.mp hi)] at hcell
      rw [if_neg (Ne.symm hi)]
      exact hr.generation i cell hcell
  case tenant =>
    rw [hcells] at hcell
    split at hcell
    · cases hcell
      cases hsome
    · rename_i hi
      obtain ⟨shape, hk⟩ := mem_holders.mp (hr.tenant i cell hcell hsome)
      exact mem_holders.mpr ⟨shape, (houtstanding _ shape).mpr
        ⟨hk, fun heq => hi (congrArg Handle.position heq)⟩⟩
  case leads =>
    obtain ⟨hold, hne⟩ := (houtstanding k shape).mp hk
    obtain ⟨other, hgetk, hshape⟩ := hr.leads k shape hold
    have hindex : k.index ≠ h.index := fun heq =>
      hne (hr.index_inj (mem_holders.mpr ⟨shape, hold⟩) hmem heq)
    exact ⟨other, (get?_release_ne hindex).trans hgetk, hshape⟩
  case past =>
    show k.position < (r.arena.release h).cells.size ∧ _
    rw [hsize, hreleases]
    rcases List.mem_cons.mp hk with rfl | hold
    · exact ⟨(Array.getElem?_eq_some_iff.mp hcell).1, r.releases k.index, by rw [if_pos rfl]; omega,
        hnow⟩
    · obtain ⟨hlt, n, hn, hpast⟩ := hr.past k hold
      exact ⟨hlt, n, by omega, hpast⟩
  case inside =>
    show x.1.position < (r.arena.release h).cells.size
    rw [hsize]
    exact hr.inside x hx

/-- What is not outstanding leads nowhere, and taking it back changes nothing. -/
theorem release_eq (hr : Accounted r) {h : Handle UInt32} (hmem : h ∉ r.holders) :
    r.arena.release h = r.arena := by
  refine release_of_none (Option.not_isSome_iff_eq_none.mp fun hsome => ?_)
  exact hmem (hr.mem_holders_iff.mpr hsome)

theorem step (hr : Accounted r) (hbound : r.Bounded) {call : ArenaCall}
    (hafter : (r.step call).Bounded) : Accounted (r.step call) := by
  cases call with
  | allocate shape => exact hr.allocate hbound shape hafter
  | edit h change => exact hr.edit h change
  | release h =>
    unfold Register.step
    by_cases hmem : h ∈ r.holders
    · simp only [hmem, if_true]
      exact hr.take hmem
    · simp only [hmem, if_false, hr.release_eq hmem]
      exact hr

/-! ## Every sequence of calls -/

/-- Each cell is either in the free list or holds what is outstanding under one handle. -/
theorem cells_perm (hr : Accounted r) (hbound : r.Bounded) :
    ((r.holders.map (·.index) ++ r.arena.free).map UInt32.toNat).Perm
      (List.range r.arena.cells.size) := by
  have hholders : r.holders.Nodup := hr.distinct.sublist (List.filter_sublist.map _)
  have hindices : (r.holders.map (·.index)).Nodup :=
    hholders.map_on fun h hh k hk heq => hr.index_inj hh hk heq
  have hapart : ∀ i ∈ r.holders.map (·.index), ∀ j ∈ r.arena.free, i ≠ j := by
    rintro i hi j hj rfl
    obtain ⟨h, hh, rfl⟩ := List.mem_map.mp hi
    obtain ⟨region, hget⟩ := Option.isSome_iff_exists.mp (hr.mem_holders_iff.mp hh)
    exact hr.valid.not_mem_free hget hj
  have hnodup := (List.nodup_append.mpr ⟨hindices, hr.valid.nodup, hapart⟩).map fun i j =>
    UInt32.toNat.inj
  refine (List.perm_ext_iff_of_nodup hnodup List.nodup_range).mpr fun p => ?_
  rw [List.mem_map, List.mem_range]
  constructor
  · rintro ⟨i, hi, rfl⟩
    rcases List.mem_append.mp hi with hheld | hfree
    · obtain ⟨h, hh, rfl⟩ := List.mem_map.mp hheld
      obtain ⟨shape, hmem⟩ := mem_holders.mp hh
      exact hr.inside _ (mem_outstanding.mp hmem).1
    · obtain ⟨cell, hcell, -⟩ := (hr.valid.free i).mp hfree
      exact (Array.getElem?_eq_some_iff.mp hcell).1
  · intro hp
    have hcell : r.arena.cells[(UInt32.ofNat p).toNat]? = some r.arena.cells[p] := by
      rw [hbound.number hp]
      exact Array.getElem?_eq_getElem hp
    refine ⟨.ofNat p, List.mem_append.mpr ?_, hbound.number hp⟩
    cases hregion : r.arena.cells[p].region with
    | none => exact .inr ((hr.valid.free _).mpr ⟨_, hcell, hregion⟩)
    | some region =>
      exact .inl (List.mem_map.mpr ⟨_, hr.tenant _ _ hcell (by rw [hregion]; rfl), rfl⟩)

theorem mem_free (hr : Accounted r) (hbound : r.Bounded) (p : Nat) :
    p ∈ r.arena.free.map UInt32.toNat ↔
      ∃ cell, r.arena.cells[p]? = some cell ∧ cell.region = none := by
  rw [List.mem_map]
  constructor
  · rintro ⟨i, hi, rfl⟩
    exact (hr.valid.free i).mp hi
  · rintro ⟨cell, hcell, hnone⟩
    have hnumber := hbound.number (Array.getElem?_eq_some_iff.mp hcell).1
    have hcell' : r.arena.cells[(UInt32.ofNat p).toNat]? = some cell := by
      rw [hnumber]
      exact hcell
    exact ⟨.ofNat p, (hr.valid.free _).mpr ⟨cell, hcell', hnone⟩, hnumber⟩

theorem live_eq (hr : Accounted r) (hbound : r.Bounded) :
    r.arena.live = r.outstanding.length := by
  have hlength := (hr.cells_perm hbound).length_eq
  rw [List.length_map, List.length_append, List.length_map, List.length_range] at hlength
  unfold holders at hlength
  rw [List.length_map] at hlength
  unfold live
  omega

end Accounted

theorem bounded_of_step {call : ArenaCall} (hafter : (r.step call).Bounded) : r.Bounded where
  releases i := Nat.lt_of_le_of_lt (releases_le_step r call i) (hafter.releases i)
  cells := by
    refine Nat.le_trans ?_ hafter.cells
    cases call with
    | allocate shape => exact size_le_allocate r.arena _
    | edit h change => exact Nat.le_of_eq Array.size_modify.symm
    | release h => exact Nat.le_of_eq (size_release r.arena h).symm

theorem accounted_after {calls : List ArenaCall} (hbound : (after calls).Bounded) :
    Accounted (after calls) := by
  induction calls using List.reverseRecOn with
  | nil => exact accounted_nil
  | append_singleton calls call ih =>
    rw [after_concat] at hbound ⊢
    have hbefore := bounded_of_step hbound
    exact (ih hbefore).step hbefore hbound

theorem returned_subset (r : Register) (calls : List ArenaCall) :
    r.returned ⊆ (calls.foldl step r).returned := by
  induction calls generalizing r with
  | nil => exact List.Subset.refl _
  | cons call rest ih =>
    refine List.Subset.trans ?_ (ih (r.step call))
    cases call with
    | allocate shape => exact List.Subset.refl _
    | edit h change => exact List.Subset.refl _
    | release h =>
      show r.returned ⊆ if h ∈ r.holders then h :: r.returned else r.returned
      split
      · exact List.subset_cons_self h r.returned
      · exact List.Subset.refl _

/-- A handle that was given back while it was outstanding is among those taken back ever after. -/
theorem mem_returned {front back : List ArenaCall} {h : Handle UInt32}
    (hmem : h ∈ (after front).holders) :
    h ∈ (after (front ++ .release h :: back)).returned := by
  unfold after
  rw [List.foldl_append]
  refine returned_subset ((after front).step (.release h)) back ?_
  show h ∈ if h ∈ (after front).holders then h :: (after front).returned else (after front).returned
  rw [if_pos hmem]
  exact List.mem_cons_self

/-- No two handles lead to the same region. -/
structure Exclusive (r : Register) : Prop where
  /-- No handle is issued twice. -/
  distinct : (r.issued.map (·.1)).Nodup
  /-- What was handed out and not taken back is there, in the shape that was asked for. -/
  leads : ∀ h shape, (h, shape) ∈ r.outstanding →
    ∃ region, r.arena.get? h = some region ∧ region.shape = shape
  /-- It is in a place of its own: what is written through one handle shows through no other. -/
  apart : ∀ h ∈ r.holders, ∀ k ∈ r.holders, h ≠ k →
    h.index ≠ k.index ∧ ∀ f, (r.arena.modify h f).get? k = r.arena.get? k
  gone : ∀ h ∈ r.returned, r.arena.get? h = none
  /-- Any other handle takes nothing back. -/
  inert : ∀ h, h ∉ r.holders → r.arena.release h = r.arena
  /-- The free list names the vacant cells, each once. -/
  free : r.arena.free.Nodup ∧ ∀ p : Nat, p ∈ r.arena.free.map UInt32.toNat ↔
    ∃ cell, r.arena.cells[p]? = some cell ∧ cell.region = none
  live : r.arena.live = r.outstanding.length

/-- After every sequence of calls, made with whatever handles: as long as no cell is given up so
often that its generations come round again, and there are no more cells than numbers for them, no
two handles lead to the same region, and a handle that was taken back leads nowhere ever after. -/
theorem handles_exclusive (calls : List ArenaCall)
    (hreleases : ∀ i, (after calls).releases i < UInt32.size)
    (hcells : (after calls).arena.cells.size ≤ UInt32.size) :
    Exclusive (after calls) ∧
    ∀ front h back, calls = front ++ .release h :: back → h ∈ (after front).holders →
      (after calls).arena.get? h = none := by
  have hbound : (after calls).Bounded := ⟨hreleases, hcells⟩
  have hr := accounted_after hbound
  refine ⟨⟨hr.distinct, hr.leads, fun h hh k hk hne => ⟨?_, fun f => ?_⟩,
    fun h hmem => hr.get?_returned hbound hmem, fun h hmem => hr.release_eq hmem,
    ⟨hr.valid.nodup, hr.mem_free hbound⟩, hr.live_eq hbound⟩, ?_⟩
  · exact fun heq => hne (hr.index_inj hh hk heq)
  · exact get?_modify_of_ne f hne.symm
  · rintro front h back rfl hmem
    exact hr.get?_returned hbound (mem_returned hmem)

/-- Of two regions one is written and the other is taken back, twice, and its cell used again. -/
theorem handles_exclusive_cell_reused :
    let calls : List ArenaCall := [.allocate ⟨2, 3⟩, .allocate ⟨1, 1⟩,
      .edit ⟨1, 0⟩ (.push 0 1 0 #[7]), .edit ⟨1, 0⟩ (.commit 0 1),
      .release ⟨0, 0⟩, .release ⟨0, 0⟩, .allocate ⟨4, 1⟩]
    (∀ i, (after calls).releases i < UInt32.size) ∧
    (after calls).arena.cells.size ≤ UInt32.size ∧
    (after calls).outstanding = [(⟨0, 1⟩, ⟨4, 1⟩), (⟨1, 0⟩, ⟨1, 1⟩)] ∧
    Exclusive (after calls) ∧ (after calls).arena.get? ⟨0, 0⟩ = none := by
  intro calls
  have hreleases : ∀ i, (after calls).releases i < UInt32.size := fun i =>
    Nat.lt_of_le_of_lt (releases_after_le calls i) (by decide)
  have hcells : (after calls).arena.cells.size ≤ UInt32.size := by decide
  obtain ⟨hexclusive, hgone⟩ := handles_exclusive calls hreleases hcells
  refine ⟨hreleases, hcells, by decide, hexclusive, ?_⟩
  exact hgone (calls.take 4) ⟨0, 0⟩ [.release ⟨0, 0⟩, .allocate ⟨4, 1⟩] rfl (by decide)

/-! ## More cells than numbers -/

/-- Regions of one shape, handed out one after the other and none of them taken back. -/
structure Filled (r : Register) (n : Nat) (shape : Shape) : Prop where
  arena : r.arena = ⟨.replicate n ⟨0, some (.new shape.depth shape.columns)⟩, []⟩
  returned : r.returned = []

theorem filled_replicate (n : Nat) (shape : Shape) :
    Filled (after (.replicate n (.allocate shape))) n shape := by
  induction n with
  | zero => exact ⟨rfl, rfl⟩
  | succ n ih =>
    rw [List.replicate_succ', after_concat]
    refine ⟨?_, ih.returned⟩
    show ((after _).arena.allocate _).2 = _
    rw [ih.arena, Array.replicate_succ]
    rfl

/-- One region more, when the numbers of the cells begin again. -/
theorem Filled.wrap {r : Register} {n : Nat} {shape : Shape} (h : Filled r n shape) (hpos : 0 < n)
    (hwrap : UInt32.ofNat n = 0) (other : Shape) :
    (∀ i, (r.step (.allocate other)).releases i = 0) ∧
    (⟨0, 0⟩, other) ∈ (r.step (.allocate other)).outstanding ∧
    (r.step (.allocate other)).arena.get? ⟨0, 0⟩ = some (.new shape.depth shape.columns) := by
  obtain ⟨⟨arena⟩, issued, returned⟩ := r
  obtain ⟨harena, hreturned⟩ := h
  cases harena
  cases hreturned
  refine ⟨fun i => List.countP_nil, ?_, ?_⟩
  · refine mem_outstanding.mpr ⟨List.mem_cons.mpr (.inl ?_), List.not_mem_nil⟩
    show _ = ((⟨CellNumber.ofPosition (Array.replicate n _).size, 0⟩ : Handle UInt32), other)
    rw [Array.size_replicate]
    show _ = ((⟨UInt32.ofNat n, 0⟩ : Handle UInt32), other)
    rw [hwrap]
  · refine get?_eq_some.mpr ⟨⟨0, some (.new shape.depth shape.columns)⟩, ?_, rfl, rfl⟩
    show ((Array.replicate n _).push _)[0]? = _
    rw [Array.getElem?_push, Array.size_replicate, if_neg (Nat.ne_of_lt hpos),
      Array.getElem?_replicate, if_pos hpos]

/-- Behind 2³² cells comes one with the number of the first. The handle to it leads to the region
there, which has another shape than the one that was asked for, although nothing was taken back. -/
theorem handles_coincide :
    let calls : List ArenaCall :=
      .replicate UInt32.size (.allocate ⟨1, 1⟩) ++ [.allocate ⟨2, 1⟩]
    (∀ i, (after calls).releases i < UInt32.size) ∧
    (⟨0, 0⟩, ⟨2, 1⟩) ∈ (after calls).outstanding ∧
    (∃ region, (after calls).arena.get? ⟨0, 0⟩ = some region ∧ region.shape = ⟨1, 1⟩) ∧
    ¬ Exclusive (after calls) := by
  have hfilled := filled_replicate UInt32.size ⟨1, 1⟩
  obtain ⟨hreleases, houtstanding, hget⟩ := hfilled.wrap (by decide) (by decide) ⟨2, 1⟩
  intro calls
  have hcalls : after calls = _ := after_concat _ (.allocate ⟨2, 1⟩)
  rw [← hcalls] at hreleases houtstanding hget
  refine ⟨fun i => ?_, houtstanding, ⟨_, hget, Region.shape_new 1 1⟩, fun hexclusive => ?_⟩
  · rw [hreleases]
    decide
  obtain ⟨region, hget', hshape⟩ := hexclusive.leads _ _ houtstanding
  rw [hget] at hget'
  cases hget'
  rw [Region.shape_new] at hshape
  cases hshape

end Register

end Arena

end VersionChain
