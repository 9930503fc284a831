/-!
# Byte strings

Contents, records and canonical keys are arrays of bytes. This module fixes that
type, the little-endian spelling of numbers in both directions, and the length of
the run on which two byte strings agree.

* `ofLittleEndian_littleEndian` — a number is read back modulo its field's range;
* `littleEndian_ofLittleEndian` — a field is the spelling of the number it holds.
-/

namespace VersionChain

/-- A string of bytes. -/
abbrev Bytes := Array UInt8

/-- The UTF-8 spelling of a text. -/
def utf8 (s : String) : Bytes := s.toUTF8.data

/-- The sum of the lengths of byte strings. -/
def totalSize : List Bytes → Nat
  | [] => 0
  | first :: rest => first.size + totalSize rest

/-- The `width` low bytes of `n`, least significant first. -/
def littleEndian : (width : Nat) → (n : Nat) → List UInt8
  | 0, _ => []
  | width + 1, n => UInt8.ofNat n :: littleEndian width (n / 256)

/-- The number whose bytes are given least significant first. -/
def ofLittleEndian : List UInt8 → Nat
  | [] => 0
  | b :: rest => b.toNat + 256 * ofLittleEndian rest

@[simp] theorem length_littleEndian (width n : Nat) :
    (littleEndian width n).length = width := by
  induction width generalizing n with
  | zero => rfl
  | succ width ih => simp [littleEndian, ih]

/-- How many numbers a field of `width` bytes can hold. -/
def fieldRange : (width : Nat) → Nat
  | 0 => 1
  | width + 1 => 256 * fieldRange width

theorem ofLittleEndian_littleEndian (width n : Nat) :
    ofLittleEndian (littleEndian width n) = n % fieldRange width := by
  induction width generalizing n with
  | zero => simp [littleEndian, ofLittleEndian, fieldRange, Nat.mod_one]
  | succ width ih =>
    simp only [littleEndian, ofLittleEndian, ih, UInt8.toNat_ofNat', fieldRange]
    rw [Nat.mod_mul]

theorem littleEndian_ofLittleEndian (bytes : List UInt8) :
    littleEndian bytes.length (ofLittleEndian bytes) = bytes := by
  induction bytes with
  | nil => rfl
  | cons b rest ih =>
    have hb : b.toNat < 256 := b.toNat_lt
    have hdiv : (b.toNat + 256 * ofLittleEndian rest) / 256 = ofLittleEndian rest := by omega
    have hmod : UInt8.ofNat (b.toNat + 256 * ofLittleEndian rest) = b := by
      apply UInt8.toNat_inj.mp
      rw [UInt8.toNat_ofNat']
      omega
    simp [littleEndian, ofLittleEndian, hdiv, hmod, ih]

theorem ofLittleEndian_lt (bytes : List UInt8) :
    ofLittleEndian bytes < fieldRange bytes.length := by
  induction bytes with
  | nil => simp [ofLittleEndian, fieldRange]
  | cons b rest ih =>
    have hb : b.toNat < 256 := b.toNat_lt
    simp only [ofLittleEndian, List.length_cons, fieldRange]
    omega

/-- Splits off exactly `n` leading bytes; `none` if there are fewer. -/
def splitExact? (n : Nat) (bytes : List UInt8) : Option (List UInt8 × List UInt8) :=
  let front := bytes.take n
  if front.length = n then some (front, bytes.drop n) else none

theorem splitExact?_append (front back : List UInt8) :
    splitExact? front.length (front ++ back) = some (front, back) := by
  simp [splitExact?]

theorem splitExact?_eq_some {n : Nat} {bytes front back : List UInt8}
    (h : splitExact? n bytes = some (front, back)) :
    bytes = front ++ back ∧ front.length = n := by
  simp only [splitExact?, Option.ite_none_right_eq_some, Option.some.injEq, Prod.mk.injEq] at h
  obtain ⟨hlen, rfl, rfl⟩ := h
  exact ⟨(List.take_append_drop n bytes).symm, hlen⟩

theorem splitExact?_eq_none_iff {n : Nat} {bytes : List UInt8} :
    splitExact? n bytes = none ↔ bytes.length < n := by
  simp only [splitExact?, List.length_take, ite_eq_right_iff, reduceCtorEq, imp_false]
  omega

namespace Bytes

/-- The little-endian 32-bit word at position `i`; bytes past the end read as zero. -/
def word32 (b : Bytes) (i : Nat) : UInt32 :=
  (b.getD i 0).toUInt32 ||| ((b.getD (i + 1) 0).toUInt32 <<< 8) |||
    ((b.getD (i + 2) 0).toUInt32 <<< 16) ||| ((b.getD (i + 3) 0).toUInt32 <<< 24)

/-- The little-endian 64-bit word at position `i`. -/
def word64 (b : Bytes) (i : Nat) : UInt64 :=
  (b.word32 i).toUInt64 ||| ((b.word32 (i + 4)).toUInt64 <<< 32)

/-- Number of bytes, counted past the first `n`, on which `a` from `i` on and `b` from
`j` on agree: `n` plus the length of the longest common run of `a[i + n ..]` and
`b[j + n ..]`. -/
def agreement (a : Bytes) (i : Nat) (b : Bytes) (j : Nat) (n : Nat) : Nat :=
  if h : i + n < a.size ∧ j + n < b.size then
    if a[i + n] = b[j + n] then agreement a i b j (n + 1) else n
  else n
  termination_by a.size - (i + n)

/-- Length of the longest common run of `a` from `i` on and `b` from `j` on. -/
def commonPrefix (a : Bytes) (i : Nat) (b : Bytes) (j : Nat) : Nat :=
  agreement a i b j 0

/-- Length of the longest common ending of `a` and `b` past their first `n` bytes that
agree from the end, looking no further back than position `floor`. -/
def endAgreement (a b : Bytes) (floor n : Nat) : Nat :=
  if h : floor + n < a.size ∧ floor + n < b.size then
    if a[a.size - 1 - n] = b[b.size - 1 - n] then endAgreement a b floor (n + 1) else n
  else n
  termination_by a.size - (floor + n)

/-- Length of the longest common ending of `a[floor ..]` and `b[floor ..]`. -/
def commonSuffix (a b : Bytes) (floor : Nat) : Nat :=
  endAgreement a b floor 0

/-- A common run ends inside both byte strings. -/
theorem commonPrefix_le (a : Bytes) (i : Nat) (b : Bytes) (j : Nat) :
    commonPrefix a i b j ≤ a.size - i ∧ commonPrefix a i b j ≤ b.size - j := by
  suffices h : ∀ n, n ≤ a.size - i → n ≤ b.size - j →
      agreement a i b j n ≤ a.size - i ∧ agreement a i b j n ≤ b.size - j by
    exact h 0 (by omega) (by omega)
  intro n
  fun_induction agreement a i b j n with
  | case1 n h _ ih => intro _ _; exact ih (by omega) (by omega)
  | case2 => intros; omega
  | case3 => intros; omega

end Bytes

end VersionChain
