import VersionChain.Proofs.Record.Layout

/-!
# What was read

A header or a step that was read stood there: the bytes begin with its layout. A reader fails
only on bytes that begin with no header, or with no step.

* `Header.read_eq_ok`, `Header.read_eq_error` — the fixed part, and why there is none;
* `Op.read_eq_ok_iff` — a step is read exactly if the bytes begin with it;
* `Op.read_eq_error` — what else the bytes begin with.
-/

namespace VersionChain

/-! ## Numbers -/

/-- A field of bytes spells the number it holds. -/
theorem littleEndian_of_length {width : Nat} {field : List UInt8} (h : field.length = width) :
    littleEndian width (ofLittleEndian field) = field := by
  subst h
  exact littleEndian_ofLittleEndian field

theorem toNat_ofNat_ofLittleEndian_two {field : List UInt8} (h : field.length = 2) :
    (UInt16.ofNat (ofLittleEndian field)).toNat = ofLittleEndian field := by
  have bound : ofLittleEndian field < fieldRange field.length := ofLittleEndian_lt field
  rw [h, fieldRange_two] at bound
  exact UInt16.toNat_ofNat_of_lt' bound

theorem toNat_ofNat_ofLittleEndian_four {field : List UInt8} (h : field.length = 4) :
    (UInt32.ofNat (ofLittleEndian field)).toNat = ofLittleEndian field := by
  have bound : ofLittleEndian field < fieldRange field.length := ofLittleEndian_lt field
  rw [h, fieldRange_four] at bound
  exact UInt32.toNat_ofNat_of_lt' bound

/-! ## Headers -/

/-- The bytes of a record: its fixed part, the tag as a number, and what stands behind it. -/
def Record.layout (wire : UInt16) (length crc : UInt32) (body : List UInt8) : List UInt8 :=
  recordMagic :: (littleEndian 2 wire.toNat ++ (littleEndian 4 length.toNat ++
    (littleEndian 4 crc.toNat ++ body)))

/-- Eleven bytes are one, two, four and four of them. -/
theorem split_fixed {front : List UInt8} (h : front.length = Header.size) :
    front = front.headD 0 :: (front.extract 1 3 ++ (front.extract 3 7 ++ front.extract 7 11)) := by
  cases front with
  | nil => cases h
  | cons first rest =>
    simp only [List.headD_cons, List.extract_eq_take_drop, List.cons.injEq, true_and,
      Nat.reduceSub, List.drop_succ_cons, List.drop_zero]
    have hrest : rest.length = 10 := by simpa [Header.size] using h
    calc rest = rest.take 2 ++ rest.drop 2 := (List.take_append_drop 2 rest).symm
      _ = rest.take 2 ++ ((rest.drop 2).take 4 ++ (rest.drop 2).drop 4) := by
        rw [List.take_append_drop 4 (rest.drop 2)]
      _ = rest.take 2 ++ ((rest.drop 2).take 4 ++ (rest.drop 6).take 4) := by
        rw [List.drop_drop, List.take_of_length_le (l := rest.drop 6) (by simp [hrest])]

namespace Header

open Record (layout)

/-- A header is read from the layout of a record. -/
theorem read_layout (wire : UInt16) (length crc : UInt32) (body : List UInt8) :
    read (layout wire length crc body) = .ok (⟨.ofWire wire, length, crc⟩, body) := by
  have hwire : (Tag.ofWire wire).toWire = wire := Tag.ofWire_toWire (.back wire)
  have hlayout : layout wire length crc body = bytes ⟨.ofWire wire, length, crc⟩ ++ body := by
    simp only [layout, bytes, hwire, List.cons_append, List.append_assoc]
  rw [hlayout, read_bytes_append]
  simp only [hwire]

/-- A header that was read stands at the start of the record. -/
theorem read_eq_ok {record body : List UInt8} {header : Header}
    (h : read record = .ok (header, body)) :
    ∃ wire, header.tag = .ofWire wire ∧
      record = layout wire header.targetLength header.crc body := by
  simp only [read] at h
  split at h
  · cases h
  · rename_i front rest hsplit
    obtain ⟨rfl, hlength⟩ := splitExact?_eq_some hsplit
    split at h
    · rename_i hmagic
      cases h
      have hextract (start stop : Nat) (hstart : start ≤ stop) (hstop : stop ≤ 11) :
          (front.extract start stop).length = stop - start := by
        rw [List.extract_eq_take_drop, List.length_take, List.length_drop, hlength]
        simp only [size]
        omega
      refine ⟨.ofNat (ofLittleEndian (front.extract 1 3)), rfl, ?_⟩
      unfold layout
      rw [toNat_ofNat_ofLittleEndian_two (hextract 1 3 (by omega) (by omega)),
        toNat_ofNat_ofLittleEndian_four (hextract 3 7 (by omega) (by omega)),
        toNat_ofNat_ofLittleEndian_four (hextract 7 11 (by omega) (by omega)),
        littleEndian_of_length (hextract 1 3 (by omega) (by omega)),
        littleEndian_of_length (hextract 3 7 (by omega) (by omega)),
        littleEndian_of_length (hextract 7 11 (by omega) (by omega)), ← hmagic]
      conv => lhs; rw [split_fixed hlength]
      simp only [List.cons_append, List.append_assoc]
    · cases h

/-- There is no header in too few bytes, nor behind another first byte. -/
theorem read_eq_error_iff {record : List UInt8} {e : RecordError} :
    read record = .error e ↔
      (record.length < size ∧ e = .truncated) ∨
      (size ≤ record.length ∧ record.headD 0 ≠ recordMagic ∧ e = .badMagic (record.headD 0)) := by
  simp only [read]
  split
  · rename_i hsplit
    have hshort : record.length < size := splitExact?_eq_none_iff.mp hsplit
    constructor
    · intro h
      cases h
      exact .inl ⟨hshort, rfl⟩
    · rintro (⟨-, rfl⟩ | ⟨hlong, -, -⟩)
      · rfl
      · omega
  · rename_i front rest hsplit
    obtain ⟨rfl, hlength⟩ := splitExact?_eq_some hsplit
    have hlong : size ≤ (front ++ rest).length := by simp [hlength]
    have hhead : (front ++ rest).headD 0 = front.headD 0 := by
      cases front with
      | nil => cases hlength
      | cons first more => rfl
    rw [hhead]
    split
    · rename_i hmagic
      constructor
      · intro h
        cases h
      · rintro (⟨hshort, -⟩ | ⟨-, hother, -⟩)
        · omega
        · exact absurd hmagic hother
    · rename_i hother
      constructor
      · intro h
        cases h
        exact .inr ⟨hlong, hother, rfl⟩
      · rintro (⟨hshort, -⟩ | ⟨-, -, rfl⟩)
        · omega
        · rfl

end Header

/-! ## Steps -/

namespace Op

/-- A number that was read stands at the start of the bytes. -/
theorem readNumber_eq_ok {bytes rest : List UInt8} {n : Nat}
    (h : readNumber bytes = .ok (n, rest)) :
    bytes = littleEndian 4 n ++ rest ∧ n < UInt32.size := by
  simp only [readNumber] at h
  split at h
  · cases h
  · rename_i front rest' hsplit
    obtain ⟨rfl, hlength⟩ := splitExact?_eq_some hsplit
    cases h
    have bound : ofLittleEndian front < fieldRange front.length := ofLittleEndian_lt front
    rw [hlength, fieldRange_four] at bound
    exact ⟨by rw [littleEndian_of_length hlength], bound⟩

theorem readNumber_eq_error {bytes : List UInt8} {e : RecordError}
    (h : readNumber bytes = .error e) : e = .truncated := by
  simp only [readNumber] at h
  split at h
  · cases h
    rfl
  · cases h

theorem readCopy_eq_ok {tail rest : List UInt8} {op : Op} (h : readCopy tail = .ok (op, rest)) :
    op.Fits ∧ copyCode :: tail = op.bytes ++ rest := by
  simp only [readCopy] at h
  split at h
  · cases h
  · rename_i offset rest₁ hoffset
    split at h
    · cases h
    · rename_i length rest₂ hlength
      obtain ⟨rfl, offsetBound⟩ := readNumber_eq_ok hoffset
      obtain ⟨rfl, lengthBound⟩ := readNumber_eq_ok hlength
      cases h
      refine ⟨trivial, ?_⟩
      simp only [bytes, UInt32.toNat_ofNat_of_lt' offsetBound,
        UInt32.toNat_ofNat_of_lt' lengthBound, List.cons_append, List.append_assoc]

theorem readInsert_eq_ok {tail rest : List UInt8} {op : Op}
    (h : readInsert tail = .ok (op, rest)) : op.Fits ∧ insertCode :: tail = op.bytes ++ rest := by
  simp only [readInsert] at h
  split at h
  · cases h
  · rename_i length rest₁ hlength
    split at h
    · cases h
    · rename_i content rest₂ hcontent
      obtain ⟨rfl, bound⟩ := readNumber_eq_ok hlength
      obtain ⟨rfl, rfl⟩ := splitExact?_eq_some hcontent
      cases h
      refine ⟨by simpa only [Fits, List.size_toArray] using bound, ?_⟩
      simp only [bytes, List.size_toArray, List.cons_append, List.append_assoc]

/-- A step is read exactly if the bytes begin with it, and it is then the step that stands
there. -/
theorem read_eq_ok_iff {bytes rest : List UInt8} {op : Op} :
    read bytes = .ok (op, rest) ↔ op.Fits ∧ bytes = op.bytes ++ rest := by
  constructor
  · intro h
    cases bytes with
    | nil => cases h
    | cons code tail =>
      simp only [read] at h
      split at h
      · rename_i hcode
        subst hcode
        exact readCopy_eq_ok h
      · split at h
        · rename_i hcode
          subst hcode
          exact readInsert_eq_ok h
        · cases h
  · rintro ⟨fits, rfl⟩
    exact read_bytes_append op rest fits

/-- What is no step begins with a code that nothing is known of, or is cut off behind one. -/
theorem read_eq_error {code : UInt8} {tail : List UInt8} {e : RecordError}
    (h : read (code :: tail) = .error e) :
    ((code = copyCode ∨ code = insertCode) ∧ e = .truncated) ∨
    (code ≠ copyCode ∧ code ≠ insertCode ∧ e = .unknownOp code) := by
  simp only [read] at h
  split at h
  · rename_i hcode
    refine .inl ⟨.inl hcode, ?_⟩
    simp only [readCopy] at h
    split at h
    · rename_i hnumber
      cases h
      exact readNumber_eq_error hnumber
    · split at h
      · rename_i hnumber
        cases h
        exact readNumber_eq_error hnumber
      · cases h
  · split at h
    · rename_i hcode
      refine .inl ⟨.inr hcode, ?_⟩
      simp only [readInsert] at h
      split at h
      · rename_i hnumber
        cases h
        exact readNumber_eq_error hnumber
      · split at h
        · cases h
          rfl
        · cases h
    · rename_i hcopy hinsert
      cases h
      exact .inr ⟨hcopy, hinsert, rfl⟩

/-- No step is read where the bytes behind a known code begin with none. -/
theorem read_truncated {code : UInt8} {tail : List UInt8}
    (known : code = copyCode ∨ code = insertCode)
    (cut : ∀ op : Op, op.Fits → ∀ more, code :: tail ≠ op.bytes ++ more) :
    read (code :: tail) = .error .truncated := by
  cases h : read (code :: tail) with
  | ok found =>
    obtain ⟨op, rest⟩ := found
    obtain ⟨fits, hbytes⟩ := read_eq_ok_iff.mp h
    exact absurd hbytes (cut op fits rest)
  | error e =>
    rcases read_eq_error h with ⟨-, rfl⟩ | ⟨hcopy, hinsert, -⟩
    · rfl
    · exact absurd known (not_or.mpr ⟨hcopy, hinsert⟩)

end Op

end VersionChain
