import VersionChain.Staging.Arena

/-!
# Regions by their handles

Regions are told apart by the cells they are in. A region that is handed out gets a cell of its
own, as long as there is a number left for it, and what happens to one cell does not show through
the handles of others.

* `Arena.Valid` — the free list names each vacant cell once;
* `Arena.Issues`, `Valid.issues` — what is handed out;
* `get?_allocate`, `get?_modify`, `get?_release_ne` — what each operation does to the regions.
-/

namespace VersionChain

variable {ι : Type} [CellNumber ι]

/-- A position has one number. -/
theorem CellNumber.position_inj {i j : ι} : position i = position j ↔ i = j := by
  constructor
  · intro heq
    rw [← ofPosition_position i, heq, ofPosition_position]
  · exact congrArg position

theorem Handle.position_eq_iff {h : Handle ι} {i : ι} :
    CellNumber.position i = h.position ↔ i = h.index := CellNumber.position_inj

namespace Arena

variable {a b : Arena ι} {h k : Handle ι} {region : Region}

/-- The free list holds exactly the vacant cells, each once. -/
structure Valid (a : Arena ι) : Prop where
  nodup : a.free.Nodup
  free : ∀ i, i ∈ a.free ↔ ∃ cell, a.cells[CellNumber.position i]? = some cell ∧ cell.region = none

/-- If a new cell is needed, there is a number that leads to it. -/
def Roomy (a : Arena ι) : Prop :=
  a.free = [] → CellNumber.position (CellNumber.ofPosition a.cells.size : ι) = a.cells.size

theorem roomy_endless (a : Arena Nat) : a.Roomy := fun _ => rfl

theorem roomy_of_le {a : Arena UInt32} {region : Region}
    (hle : (a.allocate region).2.cells.size ≤ UInt32.size) : a.Roomy := by
  intro hfree
  refine UInt32.toNat_ofNat_of_lt' ?_
  unfold allocate at hle
  simp only [hfree, Array.size_push] at hle
  omega

theorem valid_empty : Valid ({} : Arena ι) where
  nodup := List.nodup_nil
  free i := by simp

theorem get?_eq_some :
    a.get? h = some region ↔
      ∃ cell, a.cells[h.position]? = some cell ∧ cell.generation = h.generation ∧
        cell.region = some region := by
  unfold get? cell?
  rw [Option.bind_eq_some_iff]
  constructor
  · rintro ⟨cell, hcell, hregion⟩
    rw [Option.filter_eq_some_iff] at hcell
    exact ⟨cell, hcell.1, by simpa using hcell.2, hregion⟩
  · rintro ⟨cell, hcell, hgeneration, hregion⟩
    refine ⟨cell, ?_, hregion⟩
    rw [Option.filter_eq_some_iff]
    exact ⟨hcell, by simpa using hgeneration⟩

/-- A cell is in one generation at a time, so that of two handles to it only one leads to a
region. -/
theorem eq_of_index {other : Region} (hget : a.get? h = some region) (hget' : a.get? k = some other)
    (hindex : h.index = k.index) : h = k := by
  obtain ⟨cell, hcell, hgeneration, -⟩ := get?_eq_some.mp hget
  obtain ⟨cell', hcell', hgeneration', -⟩ := get?_eq_some.mp hget'
  rw [Handle.position, hindex, ← Handle.position, hcell'] at hcell
  cases hcell
  cases h
  cases k
  simp only at hindex hgeneration hgeneration'
  rw [hindex, ← hgeneration, hgeneration']

/-- The region of a handle depends on its cell alone. -/
theorem get?_congr (hcell : b.cells[h.position]? = a.cells[h.position]?) : b.get? h = a.get? h := by
  unfold get? cell?
  rw [hcell]

theorem Valid.not_mem_free (hv : a.Valid) (hget : a.get? h = some region) : h.index ∉ a.free := by
  intro hmem
  obtain ⟨cell, hcell, hnone⟩ := (hv.free h.index).mp hmem
  obtain ⟨cell', hcell', -, hregion⟩ := get?_eq_some.mp hget
  rw [Handle.position, hcell] at hcell'
  cases hcell'
  rw [hnone] at hregion
  cases hregion

theorem getElem?_modify_ne {cells : Array ArenaCell} {i j : Nat} (f : ArenaCell → ArenaCell)
    (hne : j ≠ i) : (cells.modify i f)[j]? = cells[j]? := by
  rw [Array.getElem?_modify, if_neg (Ne.symm hne)]

/-! ## Handing out -/

/-- What is handed out under a handle comes into a cell of its own, vacant or new, in the generation
that the cell is in. -/
structure Issues (a b : Arena ι) (h : Handle ι) (region : Region) : Prop where
  before : a.cells[h.position]? = some ⟨h.generation, none⟩ ∨
    h.position = a.cells.size ∧ h.generation = 0
  cells : ∀ i : Nat, b.cells[i]? =
    if i = h.position then some ⟨h.generation, some region⟩ else a.cells[i]?
  inside : h.position < b.cells.size
  size : a.cells.size ≤ b.cells.size ∧ b.cells.size ≤ a.cells.size + 1

/-- A vacant cell is used again. -/
theorem issues_vacant {index : ι} {generation : UInt32} (free : List ι)
    (hcell : a.cells[CellNumber.position index]? = some ⟨generation, none⟩) :
    Issues a ⟨a.cells.modify (CellNumber.position index) ({ · with region := some region }), free⟩
      ⟨index, generation⟩ region where
  before := .inl hcell
  cells i := by
    show (Array.modify _ _ _)[i]? = if i = CellNumber.position index then _ else _
    rw [Array.getElem?_modify]
    by_cases hi : i = CellNumber.position index
    · rw [if_pos hi.symm, if_pos hi, hi, hcell]
      rfl
    · rw [if_neg (Ne.symm hi), if_neg hi]
  inside := by
    simp only [Array.size_modify]
    exact (Array.getElem?_eq_some_iff.mp hcell).1
  size := by
    simp only [Array.size_modify]
    omega

/-- A new cell comes behind all others. -/
theorem issues_push
    (hroom : CellNumber.position (CellNumber.ofPosition a.cells.size : ι) = a.cells.size) :
    Issues a { a with cells := a.cells.push ⟨0, some region⟩ }
      ⟨CellNumber.ofPosition a.cells.size, 0⟩ region where
  before := .inr ⟨hroom, rfl⟩
  cells i := by
    have hposition : Handle.position (⟨CellNumber.ofPosition a.cells.size, 0⟩ : Handle ι) =
      a.cells.size := hroom
    simp only [hposition]
    exact Array.getElem?_push
  inside := by
    rw [Array.size_push]
    exact Nat.lt_succ_of_le (Nat.le_of_eq hroom)
  size := by
    simp only [Array.size_push]
    omega

theorem Valid.issues (hv : a.Valid) (hroom : a.Roomy) (region : Region) :
    Issues a (a.allocate region).2 (a.allocate region).1 region := by
  unfold Arena.allocate
  split
  · rename_i index rest hfree
    obtain ⟨cell, hcell, hnone⟩ := (hv.free index).mp (hfree ▸ List.mem_cons_self)
    cases cell
    simp only at hnone
    subst hnone
    have hgeneration := congrArg (·.getD default) hcell
    simp only [← Array.getD_eq_getD_getElem?] at hgeneration
    simp only [hgeneration]
    exact issues_vacant rest hcell
  · rename_i hfree
    exact issues_push (hroom hfree)

/-- What is handed out is there. -/
theorem Issues.get?_self (hissues : Issues a b h region) : b.get? h = some region :=
  get?_eq_some.mpr ⟨_, (hissues.cells h.position).trans (if_pos rfl), rfl, rfl⟩

/-- Nothing is handed out into a cell to which a handle leads. -/
theorem Issues.position_ne (hissues : Issues a b h region) {other : Region}
    (hget : a.get? k = some other) : k.position ≠ h.position := by
  obtain ⟨cell, hcell, -, hregion⟩ := get?_eq_some.mp hget
  intro heq
  rw [heq] at hcell
  rcases hissues.before with hvacant | ⟨hnew, -⟩
  · rw [hvacant] at hcell
    cases hcell
    cases hregion
  · exact Nat.ne_of_lt (Array.getElem?_eq_some_iff.mp hcell).1 hnew

theorem Issues.get?_of_ne (hissues : Issues a b h region) (hne : k.position ≠ h.position) :
    b.get? k = a.get? k :=
  get?_congr ((hissues.cells k.position).trans (if_neg hne))

theorem Valid.allocate (hv : a.Valid) (region : Region) : Valid (a.allocate region).2 := by
  unfold Arena.allocate
  split
  · rename_i index rest hfree
    have hnodup := hv.nodup
    rw [hfree, List.nodup_cons] at hnodup
    refine ⟨hnodup.2, fun i => ?_⟩
    by_cases hi : i = index
    · -- the cell is no longer vacant, and is named in the list no longer
      subst hi
      constructor
      · intro hmem
        exact absurd hmem hnodup.1
      · rintro ⟨cell, hcell, hnone⟩
        rw [Array.getElem?_modify, if_pos rfl] at hcell
        obtain ⟨old, -, rfl⟩ := Option.map_eq_some_iff.mp hcell
        cases hnone
    · show i ∈ rest ↔ _
      rw [getElem?_modify_ne _ (mt CellNumber.position_inj.mp hi), ← hv.free i, hfree, List.mem_cons,
        or_iff_right hi]
  · rename_i hfree
    refine ⟨hv.nodup, fun i => ?_⟩
    show i ∈ a.free ↔ _
    rw [hv.free i, Array.getElem?_push]
    by_cases hi : CellNumber.position i = a.cells.size
    · rw [if_pos hi, hi, Array.getElem?_eq_none (Nat.le_refl _)]
      simp
    · rw [if_neg hi]

/-! ## Changing a region -/

theorem get?_modify (f : Region → Region) :
    (a.modify h f).get? h = (a.get? h).map f := by
  unfold get? cell? Arena.modify
  rw [Array.getElem?_modify, if_pos rfl]
  cases a.cells[h.position]? with
  | none => rfl
  | some cell =>
    by_cases hg : cell.generation = h.generation
    · simp [Option.filter, hg]
    · simp [Option.filter, hg]

theorem get?_modify_ne (f : Region → Region) (hne : k.index ≠ h.index) :
    (a.modify h f).get? k = a.get? k :=
  get?_congr (getElem?_modify_ne _ (mt CellNumber.position_inj.mp hne))

theorem Valid.modify (hv : a.Valid) (h : Handle ι) (f : Region → Region) :
    Valid (a.modify h f) := by
  refine ⟨hv.nodup, fun i => ?_⟩
  show i ∈ a.free ↔ _
  rw [hv.free i]
  unfold Arena.modify
  rw [Array.getElem?_modify]
  split
  · cases hcell : a.cells[CellNumber.position i]? with
    | none => simp
    | some cell =>
      simp only [Option.map_some, Option.some.injEq, exists_eq_left']
      split <;> simp
  · rfl

/-! ## Taking back -/

theorem get?_release_ne (hne : k.index ≠ h.index) : (a.release h).get? k = a.get? k := by
  unfold release
  split
  · exact get?_congr (getElem?_modify_ne _ (mt CellNumber.position_inj.mp hne))
  · rfl

theorem Valid.release (hv : a.Valid) (h : Handle ι) : Valid (a.release h) := by
  unfold Arena.release
  split
  · rename_i hlive
    obtain ⟨region, hget⟩ := Option.isSome_iff_exists.mp hlive
    refine ⟨List.nodup_cons.mpr ⟨hv.not_mem_free hget, hv.nodup⟩, fun i => ?_⟩
    obtain ⟨cell, hcell, -, hregion⟩ := get?_eq_some.mp hget
    rw [List.mem_cons, hv.free i, Array.getElem?_modify]
    by_cases hi : i = h.index
    · rw [hi]
      refine ⟨fun _ => ⟨⟨cell.generation + 1, none⟩, ?_, rfl⟩, fun _ => .inl rfl⟩
      show (if h.position = h.position then a.cells[h.position]?.map _ else _) = _
      rw [if_pos rfl, hcell]
      rfl
    · have hne : h.position ≠ CellNumber.position i :=
        fun heq => hi (CellNumber.position_inj.mp heq).symm
      rw [if_neg hne, or_iff_right hi]
  · exact hv

end Arena

end VersionChain
