import VersionChain.Key

/-!
# Groups by content

The fingerprint of a key is that of its content, and of nothing else. What the bytes of a key are is
said here without the spelling that is computed: a number is read back from its bytes, a float is
told by what its bits stand for, and a value that is stored indirectly has the bytes that it is
resolved to.

* `floatOf_eq_nan_iff`, `floatOf_eq_zero_iff` — the floats that share their bytes with others;
* `Key.Spells`, `Key.FailsWith` — the bytes of a key, or why it has none;
* `Key.Spells.canonical_eq`, `Key.FailsWith.canonical_eq` — what is computed;
* `Key.fingerprint_by_content` — fingerprints, whatever digest they are made with.
-/

namespace VersionChain

/-! ## Numbers and their bytes -/

/-- The bytes hold a number, the least significant byte first. -/
structure LittleEndian (width n : Nat) (bytes : Bytes) : Prop where
  size : bytes.size = width
  value : ofLittleEndian bytes.toList = n

/-- The number that a field holds in two's complement, if it holds `n` without a sign. -/
def signedValue (width n : Nat) : Int :=
  if 2 * n < fieldRange width then n else n - fieldRange width

/-- The bytes hold a number in two's complement, the least significant byte first. -/
structure TwosComplement (width : Nat) (v : Int) (bytes : Bytes) : Prop where
  size : bytes.size = width
  value : signedValue width (ofLittleEndian bytes.toList) = v

theorem littleEndian_iff {width n : Nat} {bytes : Bytes} (hn : n < fieldRange width) :
    LittleEndian width n bytes ↔ bytes = (littleEndian width n).toArray := by
  constructor
  · rintro ⟨hsize, hvalue⟩
    have hlength : bytes.toList.length = width := hsize
    rw [← hlength, ← hvalue, littleEndian_ofLittleEndian]
  · rintro rfl
    refine ⟨by rw [List.size_toArray, length_littleEndian], ?_⟩
    rw [ofLittleEndian_littleEndian, Nat.mod_eq_of_lt hn]

/-- Two fields with the same signed value are the same. -/
theorem signedValue_inj {width m n : Nat} (hm : m < fieldRange width) (hn : n < fieldRange width)
    (h : signedValue width m = signedValue width n) : m = n := by
  unfold signedValue at h
  split at h <;> split at h <;> omega

theorem twosComplement_iff {width n : Nat} {bytes : Bytes} (hn : n < fieldRange width) :
    TwosComplement width (signedValue width n) bytes ↔
      bytes = (littleEndian width n).toArray := by
  rw [← littleEndian_iff hn]
  constructor
  · rintro ⟨hsize, hvalue⟩
    have hlt := ofLittleEndian_lt bytes.toList
    rw [Array.length_toList, hsize] at hlt
    exact ⟨hsize, signedValue_inj hlt hn hvalue⟩
  · rintro ⟨hsize, hvalue⟩
    exact ⟨hsize, by rw [hvalue]⟩

theorem twosComplement_bits_iff {width w : Nat} {bytes : Bytes} {b : BitVec w}
    (hn : b.toNat < fieldRange width) (hv : b.toInt = signedValue width b.toNat) :
    TwosComplement width b.toInt bytes ↔ bytes = (littleEndian width b.toNat).toArray := by
  rw [hv]
  exact twosComplement_iff hn

theorem twosComplement_int16_iff {bytes : Bytes} (value : Int16) :
    TwosComplement 2 value.toInt bytes ↔ bytes = (littleEndian 2 value.toUInt16.toNat).toArray :=
  twosComplement_bits_iff value.toUInt16.toNat_lt (BitVec.toInt_eq_toNat_cond value.toBitVec)

theorem twosComplement_int32_iff {bytes : Bytes} (value : Int32) :
    TwosComplement 4 value.toInt bytes ↔ bytes = (littleEndian 4 value.toUInt32.toNat).toArray :=
  twosComplement_bits_iff value.toUInt32.toNat_lt (BitVec.toInt_eq_toNat_cond value.toBitVec)

theorem twosComplement_int64_iff {bytes : Bytes} (value : Int64) :
    TwosComplement 8 value.toInt bytes ↔ bytes = (littleEndian 8 value.toUInt64.toNat).toArray :=
  twosComplement_bits_iff value.toUInt64.toNat_lt (BitVec.toInt_eq_toNat_cond value.toBitVec)

/-! ## Floats -/

section Floats

open Float.Model

/-- What the bits of a float stand for. -/
def floatOf (bits : UInt64) : UnpackedFloat := .unpack .binary64 bits.toBitVec

theorem exponent_eq_iff (bits : UInt64) (e : BitVec 11) :
    @UnpackedFloat.unpackExponent .binary64 bits.toBitVec = e ↔
      bits.toNat / 0x10000000000000 % 0x800 = e.toNat := by
  rw [← BitVec.toNat_inj]
  simp [UnpackedFloat.unpackExponent, Nat.shiftRight_eq_div_pow]

theorem mantissa_eq_iff (bits : UInt64) (m : BitVec 52) :
    @UnpackedFloat.unpackMantissa .binary64 bits.toBitVec = m ↔
      bits.toNat % 0x10000000000000 = m.toNat := by
  rw [← BitVec.toNat_inj]
  simp [UnpackedFloat.unpackMantissa]

/-- Bits without the one for the sign. -/
theorem toNat_magnitude (bits : UInt64) :
    (bits &&& 0x7FFFFFFFFFFFFFFF).toNat = bits.toNat % 0x8000000000000000 := by
  rw [UInt64.toNat_and]
  exact Nat.and_two_pow_sub_one_eq_mod bits.toNat 63

/-- What the exponent and the mantissa say of a float. -/
theorem floatOf_cases (bits : UInt64) :
    (bits.toNat / 0x10000000000000 % 0x800 = 0x7FF ∧ bits.toNat % 0x10000000000000 = 0 ∧
      ∃ sign, floatOf bits = .infinity sign) ∨
    (bits.toNat / 0x10000000000000 % 0x800 = 0x7FF ∧ bits.toNat % 0x10000000000000 ≠ 0 ∧
      floatOf bits = .notANumber) ∨
    (bits.toNat / 0x10000000000000 % 0x800 = 0 ∧ bits.toNat % 0x10000000000000 = 0 ∧
      ∃ sign, floatOf bits = .zero sign) ∨
    (bits.toNat / 0x10000000000000 % 0x800 ≠ 0x7FF ∧
      (bits.toNat / 0x10000000000000 % 0x800 ≠ 0 ∨ bits.toNat % 0x10000000000000 ≠ 0) ∧
      ∃ sign mantissa exponent positive,
        floatOf bits = .finite sign mantissa exponent positive) := by
  have hhighest : _ ↔ _ = 0x7FF := exponent_eq_iff bits (-1#11)
  have hlowest : _ ↔ _ = 0 := exponent_eq_iff bits 0#11
  have hzero : _ ↔ _ = 0 := mantissa_eq_iff bits 0#52
  by_cases htop : @UnpackedFloat.unpackExponent .binary64 bits.toBitVec = -1#11
  · by_cases hnone : @UnpackedFloat.unpackMantissa .binary64 bits.toBitVec = 0#52
    · exact .inl ⟨hhighest.mp htop, hzero.mp hnone, _, (if_pos htop).trans (if_pos hnone)⟩
    · exact .inr (.inl ⟨hhighest.mp htop, mt hzero.mpr hnone,
        (if_pos htop).trans (if_neg hnone)⟩)
  · by_cases hbottom : @UnpackedFloat.unpackExponent .binary64 bits.toBitVec = 0#11
    · by_cases hnone : @UnpackedFloat.unpackMantissa .binary64 bits.toBitVec = 0#52
      · exact .inr (.inr (.inl ⟨hlowest.mp hbottom, hzero.mp hnone, _,
          (if_neg htop).trans ((if_pos hbottom).trans (dif_pos hnone))⟩))
      · exact .inr (.inr (.inr ⟨mt hhighest.mpr htop, .inr (mt hzero.mpr hnone), _, _, _, _,
          (if_neg htop).trans ((if_pos hbottom).trans (dif_neg hnone))⟩))
    · exact .inr (.inr (.inr ⟨mt hhighest.mpr htop, .inl (mt hlowest.mpr hbottom), _, _, _, _,
        (if_neg htop).trans (if_neg hbottom)⟩))

theorem floatOf_eq_nan_iff (bits : UInt64) :
    floatOf bits = .notANumber ↔ 0x7FF0000000000000 < bits &&& 0x7FFFFFFFFFFFFFFF := by
  rw [UInt64.lt_iff_toNat_lt, toNat_magnitude]
  show _ ↔ 0x7FF0000000000000 < _
  rcases floatOf_cases bits with ⟨hexponent, hmantissa, sign, h⟩ | ⟨hexponent, hmantissa, h⟩ |
    ⟨hexponent, hmantissa, sign, h⟩ | ⟨hexponent, -, sign, mantissa, exponent, positive, h⟩
  · rw [h]
    exact iff_of_false UnpackedFloat.noConfusion (by omega)
  · exact iff_of_true h (by omega)
  · rw [h]
    exact iff_of_false UnpackedFloat.noConfusion (by omega)
  · rw [h]
    exact iff_of_false UnpackedFloat.noConfusion (by omega)

theorem floatOf_eq_zero_iff (bits : UInt64) :
    (∃ sign, floatOf bits = .zero sign) ↔ bits &&& 0x7FFFFFFFFFFFFFFF = 0 := by
  rw [← UInt64.toNat_inj, toNat_magnitude]
  show _ ↔ _ = 0
  rcases floatOf_cases bits with ⟨hexponent, hmantissa, sign, h⟩ | ⟨hexponent, hmantissa, h⟩ |
    ⟨hexponent, hmantissa, sign, h⟩ | ⟨-, hnonzero, sign, mantissa, exponent, positive, h⟩
  · rw [h]
    exact iff_of_false (fun ⟨_, hzero⟩ => UnpackedFloat.noConfusion hzero) (by omega)
  · rw [h]
    exact iff_of_false (fun ⟨_, hzero⟩ => UnpackedFloat.noConfusion hzero) (by omega)
  · exact iff_of_true ⟨sign, h⟩ (by omega)
  · rw [h]
    exact iff_of_false (fun ⟨_, hzero⟩ => UnpackedFloat.noConfusion hzero) (by omega)

/-- The bits that are spelled for everything that is not a number. -/
def quietNaN : UInt64 := 0x7FF8000000000000

theorem canonicalFloat_of_nan {bits : UInt64} (h : floatOf bits = .notANumber) :
    canonicalFloat bits = quietNaN := if_pos ((floatOf_eq_nan_iff bits).mp h)

theorem canonicalFloat_of_zero {bits : UInt64} {sign : UnpackedFloat.Sign}
    (h : floatOf bits = .zero sign) : canonicalFloat bits = 0 := by
  have hnan : floatOf bits ≠ .notANumber := by rw [h]; exact UnpackedFloat.noConfusion
  unfold canonicalFloat
  rw [if_neg (mt (floatOf_eq_nan_iff bits).mpr hnan),
    if_pos ((floatOf_eq_zero_iff bits).mp ⟨sign, h⟩)]

theorem canonicalFloat_of_number {bits : UInt64} (hnan : floatOf bits ≠ .notANumber)
    (hzero : ∀ sign, floatOf bits ≠ .zero sign) : canonicalFloat bits = bits := by
  unfold canonicalFloat
  rw [if_neg (mt (floatOf_eq_nan_iff bits).mpr hnan),
    if_neg (mt (floatOf_eq_zero_iff bits).mpr fun ⟨sign, h⟩ => hzero sign h)]

end Floats

/-! ## Digests -/

namespace Fingerprint

/-- The fingerprint of a group whose key has this digest. The zero fingerprint is that of the null
key, so a digest of zero is moved aside. -/
def ofDigest (digest : Digest.Pair) : Fingerprint :=
  if digest.high = 0 ∧ digest.low = 0 then ⟨0, 1⟩ else ⟨digest.high, digest.low⟩

theorem ofDigest_ne_zero (digest : Digest.Pair) : ofDigest digest ≠ zero := by
  unfold ofDigest zero
  split <;> simp_all

end Fingerprint

/-! ## The bytes of a key -/

namespace Key

/-- The bytes of a key that is not null. -/
inductive Spells (u : Unpacker) : Key → Bytes → Prop
  | bool (value : Bool) : Spells u (.bool value) #[if value then 1 else 0]
  | int16 {value : Int16} {bytes : Bytes} :
    TwosComplement 2 value.toInt bytes → Spells u (.int16 value) bytes
  | int32 {value : Int32} {bytes : Bytes} :
    TwosComplement 4 value.toInt bytes → Spells u (.int32 value) bytes
  | int64 {value : Int64} {bytes : Bytes} :
    TwosComplement 8 value.toInt bytes → Spells u (.int64 value) bytes
  | nan {bits : UInt64} {bytes : Bytes} :
    floatOf bits = .notANumber → LittleEndian 8 quietNaN.toNat bytes →
      Spells u (.float64 bits) bytes
  | zero {bits : UInt64} {sign} {bytes : Bytes} :
    floatOf bits = .zero sign → LittleEndian 8 0 bytes → Spells u (.float64 bits) bytes
  | number {bits : UInt64} {bytes : Bytes} :
    floatOf bits ≠ .notANumber → (∀ sign, floatOf bits ≠ .zero sign) →
      LittleEndian 8 bits.toNat bytes → Spells u (.float64 bits) bytes
  | uuid (digits : Vector UInt8 16) : Spells u (.uuid digits) digits.toArray
  | text (value : String) : Spells u (.text value) (utf8 value)
  | bytes (value : Bytes) : Spells u (.bytes value) value
  | inRow (value : Bytes) : Spells u (.varying (.inRow value)) value
  | compressed {payload value : Bytes} :
    u.decompress payload = .ok value → Spells u (.varying (.compressed payload)) value
  | outOfLine {valueId : Nat} {length : UInt32} {value : Bytes} :
    u.fetch valueId length = .ok value → value.size = length.toNat →
      Spells u (.varying (.outOfLine valueId length)) value

/-- The key cannot be resolved, for the given reason. -/
inductive FailsWith (u : Unpacker) : Key → KeyError → Prop
  | compressed {payload : Bytes} {reason : String} :
    u.decompress payload = .error reason →
      FailsWith u (.varying (.compressed payload)) (.unresolved reason)
  | outOfLine {valueId : Nat} {length : UInt32} {reason : String} :
    u.fetch valueId length = .error reason →
      FailsWith u (.varying (.outOfLine valueId length)) (.unresolved reason)
  | length {valueId : Nat} {length : UInt32} {value : Bytes} :
    u.fetch valueId length = .ok value → value.size ≠ length.toNat →
      FailsWith u (.varying (.outOfLine valueId length)) (.lengthMismatch length value.size)

variable {u v : Unpacker} {key other : Key} {bytes : Bytes} {e : KeyError}

/-- What is computed is the bytes of the key. -/
theorem Spells.canonical_eq (h : Spells u key bytes) : key.canonical u = .ok (some bytes) := by
  cases h with
  | bool value => rfl
  | int16 hbytes => rw [(twosComplement_int16_iff _).mp hbytes]; rfl
  | int32 hbytes => rw [(twosComplement_int32_iff _).mp hbytes]; rfl
  | int64 hbytes => rw [(twosComplement_int64_iff _).mp hbytes]; rfl
  | nan hnan hbytes =>
    rw [canonical, canonicalFloat_of_nan hnan, (littleEndian_iff (by decide)).mp hbytes]
  | zero hzero hbytes =>
    rw [canonical, canonicalFloat_of_zero hzero, (littleEndian_iff (by decide)).mp hbytes]
    rfl
  | number hnan hzero hbytes =>
    rw [canonical, canonicalFloat_of_number hnan hzero,
      (littleEndian_iff (UInt64.toNat_lt _)).mp hbytes]
  | uuid digits => rfl
  | text value => rfl
  | bytes value => rfl
  | inRow value => rfl
  | compressed hresolved =>
    rw [canonical, Stored.resolve, hresolved]
    rfl
  | outOfLine hresolved hsize =>
    rw [canonical, Stored.resolve, hresolved]
    exact congrArg (Except.map some) (if_pos hsize)

/-- A key that cannot be resolved has no bytes. -/
theorem FailsWith.canonical_eq (h : FailsWith u key e) : key.canonical u = .error e := by
  cases h with
  | compressed hfailed =>
    rw [canonical, Stored.resolve, hfailed]
    rfl
  | outOfLine hfailed =>
    rw [canonical, Stored.resolve, hfailed]
    rfl
  | length hresolved hsize =>
    rw [canonical, Stored.resolve, hresolved]
    exact congrArg (Except.map some) (if_neg hsize)

/-- A key that is not null has bytes, or cannot be resolved. -/
theorem spells_or_fails (u : Unpacker) (key : Key) :
    key = .null ∨ (∃ bytes, Spells u key bytes) ∨ ∃ e, FailsWith u key e := by
  cases key with
  | null => exact .inl rfl
  | bool value => exact .inr (.inl ⟨_, .bool value⟩)
  | int16 value => exact .inr (.inl ⟨_, .int16 ((twosComplement_int16_iff value).mpr rfl)⟩)
  | int32 value => exact .inr (.inl ⟨_, .int32 ((twosComplement_int32_iff value).mpr rfl)⟩)
  | int64 value => exact .inr (.inl ⟨_, .int64 ((twosComplement_int64_iff value).mpr rfl)⟩)
  | float64 bits =>
    refine .inr (.inl ?_)
    by_cases hnan : floatOf bits = .notANumber
    · exact ⟨_, .nan hnan ((littleEndian_iff (by decide)).mpr rfl)⟩
    · by_cases hzero : ∃ sign, floatOf bits = .zero sign
      · obtain ⟨sign, hzero⟩ := hzero
        exact ⟨_, .zero hzero ((littleEndian_iff (by decide)).mpr rfl)⟩
      · exact ⟨_, .number hnan (fun sign hs => hzero ⟨sign, hs⟩)
          ((littleEndian_iff (UInt64.toNat_lt bits)).mpr rfl)⟩
  | uuid digits => exact .inr (.inl ⟨_, .uuid digits⟩)
  | text value => exact .inr (.inl ⟨_, .text value⟩)
  | bytes value => exact .inr (.inl ⟨_, .bytes value⟩)
  | varying value =>
    right
    cases value with
    | inRow value => exact .inl ⟨_, .inRow value⟩
    | compressed payload =>
      cases hresolved : u.decompress payload with
      | ok value => exact .inl ⟨_, .compressed hresolved⟩
      | error reason => exact .inr ⟨_, .compressed hresolved⟩
    | outOfLine valueId length =>
      cases hresolved : u.fetch valueId length with
      | ok value =>
        by_cases hsize : value.size = length.toNat
        · exact .inl ⟨_, .outOfLine hresolved hsize⟩
        · exact .inr ⟨_, .length hresolved hsize⟩
      | error reason => exact .inr ⟨_, .outOfLine hresolved⟩

/-! ## Fingerprints -/

/-- The fingerprint of a key under any digest whatever. -/
def fingerprintBy (digest : Bytes → Digest.Pair) (u : Unpacker) (key : Key) :
    Except KeyError Fingerprint :=
  (key.canonical u).map fun
    | none => .zero
    | some content => .ofDigest (digest content)

theorem Spells.fingerprintBy_eq (h : Spells u key bytes) (digest : Bytes → Digest.Pair) :
    fingerprintBy digest u key = .ok (.ofDigest (digest bytes)) := by
  unfold fingerprintBy
  rw [h.canonical_eq]
  rfl

theorem FailsWith.fingerprintBy_eq (h : FailsWith u key e) (digest : Bytes → Digest.Pair) :
    fingerprintBy digest u key = .error e := by
  unfold fingerprintBy
  rw [h.canonical_eq]
  rfl

/-- Keys are told apart by their content alone: by the digest of their bytes, and the null key by
itself. -/
structure ByContent (digest : Bytes → Digest.Pair)
    (hash : Unpacker → Key → Except KeyError Fingerprint) : Prop where
  /-- Nothing but a key that cannot be resolved has no fingerprint. -/
  error_iff : ∀ u key e, hash u key = .error e ↔ FailsWith u key e
  zero_iff : ∀ u key, hash u key = .ok .zero ↔ key = .null
  digest : ∀ u key bytes, Spells u key bytes → hash u key = .ok (.ofDigest (digest bytes))
  /-- It makes no difference how the bytes are stored and who resolves them. -/
  same : ∀ u v key other bytes, Spells u key bytes → Spells v other bytes →
    hash u key = hash v other
  spells : ∀ u key, key ≠ .null → (∀ e, ¬ FailsWith u key e) → ∃ bytes, Spells u key bytes
  unique : ∀ u key bytes other, Spells u key bytes → Spells u key other → bytes = other

theorem byContent_fingerprintBy (digest : Bytes → Digest.Pair) :
    ByContent digest (fingerprintBy digest) where
  error_iff u key e := by
    refine ⟨fun h => ?_, fun h => h.fingerprintBy_eq digest⟩
    rcases spells_or_fails u key with rfl | ⟨bytes, hspells⟩ | ⟨other, hfails⟩
    · cases h
    · rw [hspells.fingerprintBy_eq] at h
      cases h
    · rw [hfails.fingerprintBy_eq] at h
      cases h
      exact hfails
  zero_iff u key := by
    constructor
    · intro h
      rcases spells_or_fails u key with hnull | ⟨bytes, hspells⟩ | ⟨e, hfails⟩
      · exact hnull
      · rw [hspells.fingerprintBy_eq] at h
        exact absurd (Except.ok.inj h) (Fingerprint.ofDigest_ne_zero _)
      · rw [hfails.fingerprintBy_eq] at h
        cases h
    · rintro rfl
      rfl
  digest _ _ _ h := h.fingerprintBy_eq digest
  same _ _ _ _ _ h h' := (h.fingerprintBy_eq digest).trans (h'.fingerprintBy_eq digest).symm
  spells u key hnull hresolved := by
    rcases spells_or_fails u key with rfl | hspells | ⟨e, hfails⟩
    · exact absurd rfl hnull
    · exact hspells
    · exact absurd hfails (hresolved e)
  unique _ _ _ _ h h' := Option.some.inj (Except.ok.inj (h.canonical_eq.symm.trans h'.canonical_eq))

/-- The fingerprint of a key depends on its content alone. So it would with any other digest, even
one that is zero for some content. -/
theorem fingerprint_by_content :
    ByContent Digest.wide fingerprint ∧
    ∀ digest, ByContent digest (fingerprintBy digest) :=
  ⟨byContent_fingerprintBy Digest.wide, byContent_fingerprintBy⟩

/-- Both zeros name one group, and so do any two floats that are not numbers. -/
example (u : Unpacker) : fingerprint u (.float64 0x8000000000000000) = fingerprint u (.float64 0) ∧
    fingerprint u (.float64 0xFFF0000000000001) = fingerprint u (.float64 0x7FF8000000000000) :=
  ⟨rfl, rfl⟩

end Key

end VersionChain
