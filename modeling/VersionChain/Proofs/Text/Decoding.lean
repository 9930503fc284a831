import VersionChain.Text.Utf8

/-!
# Decoding what was encoded

A text that is shown from its spelling is the text: nothing in it is replaced. The decoder takes
the bytes of a character one after the other, and the bits read so far are those that the encoder
wrote: the leading byte tells how many bytes follow, and its range leaves room for the next one.

* `foldl_next_utf8EncodeChar` — the bytes of a character;
* `decodeLossy_utf8` — the bytes of a text.
-/

namespace VersionChain.Text

namespace Decoding

/-! ## Single bytes -/

/-- A byte in the ASCII range is a character. -/
theorem next_ascii (done : String) {b : Nat} (h : b < 0x80) :
    next ⟨done, none⟩ (UInt8.ofNat b) = ⟨done.push (Char.ofNat b), none⟩ := by
  have hb : (UInt8.ofNat b).toNat = b := UInt8.toNat_ofNat_of_lt' (show b < 256 by omega)
  unfold next start
  simp only [hb, if_pos h]

/-- A leading byte opens a character. -/
theorem next_lead (done : String) {b : Nat} {p : OpenChar} (hb : 0x80 ≤ b) (hbyte : b < 0x100)
    (hp : OpenChar.ofLead? b = some p) :
    next ⟨done, none⟩ (UInt8.ofNat b) = ⟨done, some p⟩ := by
  have hb' : (UInt8.ofNat b).toNat = b := UInt8.toNat_ofNat_of_lt' hbyte
  unfold next start
  simp only [hb', if_neg (Nat.not_lt.mpr hb), hp]

/-- The bytes that follow have six bits each. -/
theorem next_inner (done : String) {p : OpenChar} {bits : Nat} (hbits : bits < 64)
    (hleast : p.least ≤ bits + 0x80) (hgreatest : bits + 0x80 ≤ p.greatest)
    (hmissing : p.missing ≠ 1) :
    next ⟨done, some p⟩ (UInt8.ofNat (bits + 0x80)) =
      ⟨done, some ⟨64 * p.code + bits, p.missing - 1, 0x80, 0xBF⟩⟩ := by
  have hb : (UInt8.ofNat (bits + 0x80)).toNat = bits + 0x80 :=
    UInt8.toNat_ofNat_of_lt' (show bits + 0x80 < 256 by omega)
  have hadmits : p.admits (bits + 0x80) = true := decide_eq_true ⟨hleast, hgreatest⟩
  unfold next
  simp only [hb, hadmits, if_true, if_neg hmissing, Nat.add_sub_cancel]

/-- The last byte completes the character. -/
theorem next_last (done : String) {p : OpenChar} {bits : Nat} (hbits : bits < 64)
    (hleast : p.least ≤ bits + 0x80) (hgreatest : bits + 0x80 ≤ p.greatest)
    (hmissing : p.missing = 1) :
    next ⟨done, some p⟩ (UInt8.ofNat (bits + 0x80)) =
      ⟨done.push (Char.ofNat (64 * p.code + bits)), none⟩ := by
  have hb : (UInt8.ofNat (bits + 0x80)).toNat = bits + 0x80 :=
    UInt8.toNat_ofNat_of_lt' (show bits + 0x80 < 256 by omega)
  have hadmits : p.admits (bits + 0x80) = true := decide_eq_true ⟨hleast, hgreatest⟩
  unfold next
  simp only [hb, hadmits, if_true, if_pos hmissing, Nat.add_sub_cancel]

/-! ## Leading bytes -/

/-- Of two bytes, the first has five bits. -/
theorem ofLead?_two {v : Nat} (hlow : 0x80 ≤ v) (hhigh : v ≤ 0x7FF) :
    OpenChar.ofLead? (v / 64 + 0xC0) = some ⟨v / 64, 1, 0x80, 0xBF⟩ := by
  unfold OpenChar.ofLead?
  rw [if_pos (by omega), Nat.add_sub_cancel]

/-- Of three bytes, the first has four bits. Its range for the second byte leaves out what fits
into two bytes, and surrogates. -/
theorem ofLead?_three {v : Nat} (hlow : 0x800 ≤ v) (hhigh : v ≤ 0xFFFF)
    (hvalid : v < 0xD800 ∨ 0xDFFF < v) :
    ∃ least greatest, OpenChar.ofLead? (v / 4096 + 0xE0) = some ⟨v / 4096, 2, least, greatest⟩ ∧
      least ≤ v / 64 % 64 + 0x80 ∧ v / 64 % 64 + 0x80 ≤ greatest := by
  unfold OpenChar.ofLead?
  rw [if_neg (by omega)]
  split
  · exact ⟨0xA0, 0xBF, by rw [show v / 4096 = 0 by omega], by omega, by omega⟩
  · rw [Nat.add_sub_cancel]
    split
    · exact ⟨0x80, 0x9F, by rw [show v / 4096 = 0xD by omega], by omega, by omega⟩
    · exact ⟨0x80, 0xBF, if_pos (by omega), by omega, by omega⟩

/-- Of four bytes, the first has three bits. Its range for the second byte leaves out what fits
into three bytes, and what is beyond the last character. -/
theorem ofLead?_four {v : Nat} (hlow : 0x10000 ≤ v) (hhigh : v < 0x110000) :
    ∃ least greatest, OpenChar.ofLead? (v / 262144 + 0xF0) =
        some ⟨v / 262144, 3, least, greatest⟩ ∧
      least ≤ v / 4096 % 64 + 0x80 ∧ v / 4096 % 64 + 0x80 ≤ greatest := by
  unfold OpenChar.ofLead?
  rw [if_neg (by omega), if_neg (by omega), if_neg (by omega), if_neg (by omega)]
  split
  · exact ⟨0x90, 0xBF, by rw [show v / 262144 = 0 by omega], by omega, by omega⟩
  · rw [Nat.add_sub_cancel]
    split
    · exact ⟨0x80, 0xBF, rfl, by omega, by omega⟩
    · exact ⟨0x80, 0x8F, by rw [if_pos (by omega), show v / 262144 = 4 by omega], by omega,
        by omega⟩

/-! ## Characters and texts -/

/-- The bytes of a character give the character. -/
theorem foldl_next_utf8EncodeChar (done : String) (c : Char) :
    (String.utf8EncodeChar c).foldl next ⟨done, none⟩ = ⟨done.push c, none⟩ := by
  obtain ⟨v, hv⟩ : ∃ v, v = c.val.toNat := ⟨_, rfl⟩
  have hchar : Char.ofNat v = c := by rw [hv]; exact Char.ofNat_toNat c
  have hvalid : v < 0xD800 ∨ 0xDFFF < v ∧ v < 0x110000 := hv ▸ c.valid
  unfold String.utf8EncodeChar
  simp only [← hv]
  split
  · rw [List.foldl_cons, List.foldl_nil, next_ascii _ (by omega), hchar]
  split
  · rw [Nat.mod_eq_of_lt (show v / 64 < 0x20 by omega), List.foldl_cons, List.foldl_cons,
      List.foldl_nil, next_lead _ (by omega) (by omega) (ofLead?_two (by omega) (by omega)),
      next_last _ (by omega) (by simp only; omega) (by simp only; omega) rfl]
    simp only [show 64 * (v / 64) + v % 64 = v by omega, hchar]
  split
  · obtain ⟨least, greatest, hlead, hleast, hgreatest⟩ :=
      ofLead?_three (v := v) (by omega) (by omega) (by omega)
    rw [Nat.mod_eq_of_lt (show v / 4096 < 0x10 by omega), List.foldl_cons, List.foldl_cons,
      List.foldl_cons, List.foldl_nil, next_lead _ (by omega) (by omega) hlead,
      next_inner _ (by omega) hleast hgreatest (by simp),
      next_last _ (by omega) (by simp only; omega) (by simp only; omega) rfl]
    simp only [show 64 * (64 * (v / 4096) + v / 64 % 64) + v % 64 = v by omega, hchar]
  · obtain ⟨least, greatest, hlead, hleast, hgreatest⟩ :=
      ofLead?_four (v := v) (by omega) (by omega)
    rw [Nat.mod_eq_of_lt (show v / 262144 < 8 by omega), List.foldl_cons, List.foldl_cons,
      List.foldl_cons, List.foldl_cons, List.foldl_nil, next_lead _ (by omega) (by omega) hlead,
      next_inner _ (by omega) hleast hgreatest (by simp),
      next_inner _ (by omega) (by simp only; omega) (by simp only; omega) (by simp),
      next_last _ (by omega) (by simp only; omega) (by simp only; omega) rfl]
    simp only [show 64 * (64 * (64 * (v / 262144) + v / 4096 % 64) + v / 64 % 64) + v % 64 = v
      by omega, hchar]

theorem foldl_next_flatMap (done : String) (text : List Char) :
    (text.flatMap String.utf8EncodeChar).foldl next ⟨done, none⟩ =
      ⟨done ++ String.ofList text, none⟩ := by
  induction text generalizing done with
  | nil => simp
  | cons c rest ih =>
    rw [List.flatMap_cons, List.foldl_append, foldl_next_utf8EncodeChar, ih]
    congr 1
    rw [← String.toList_inj]
    simp

end Decoding

theorem toList_utf8 (s : String) : (utf8 s).toList = s.toList.flatMap String.utf8EncodeChar := by
  show s.toByteArray.data.toList = _
  rw [← String.utf8Encode_toList, List.utf8Encode, List.data_toByteArray]

/-- A text is shown as it was written. -/
theorem decodeLossy_utf8 (s : String) : decodeLossy (utf8 s) = s := by
  unfold decodeLossy
  rw [← Array.foldl_toList, toList_utf8]
  show (List.foldl Decoding.next ⟨"", none⟩ _).finish = s
  rw [Decoding.foldl_next_flatMap]
  show "" ++ String.ofList s.toList = s
  simp

end VersionChain.Text
