import VersionChain.Bytes

/-!
# UTF-8

Input has to be valid UTF-8, while contents may be any bytes: when they are shown, each
longest part that starts like a character and is not one becomes a replacement character.
A byte that starts no character is such a part by itself.

* `decode?_utf8` — the spelling of a text is read back.
-/

namespace VersionChain.Text

/-- The text that is spelled by bytes; `none` if they are not valid UTF-8. -/
def decode? (bytes : Bytes) : Option String := String.fromUTF8? ⟨bytes⟩

theorem decode?_utf8 (s : String) : decode? (utf8 s) = some s := by
  have h : (⟨s.toByteArray.data⟩ : ByteArray).IsValidUTF8 := s.isValidUTF8
  simp [decode?, utf8, String.fromUTF8?, String.fromUTF8, h]

/-- What stands for bytes that are no character. -/
def replacement : Char := '\uFFFD'

/-- A character of which some bytes have been read: its code so far, how many bytes are
missing, and the range of the next one. -/
structure OpenChar where
  code : Nat
  missing : Nat
  least : Nat
  greatest : Nat
  deriving DecidableEq, Repr

/-- The character that a byte above the ASCII range starts, if it starts one. The range of
the second byte leaves out spellings that are too long, surrogates, and codes above the
largest one. -/
def OpenChar.ofLead? (b : Nat) : Option OpenChar :=
  if 0xC2 ≤ b ∧ b ≤ 0xDF then some ⟨b - 0xC0, 1, 0x80, 0xBF⟩
  else if b = 0xE0 then some ⟨0, 2, 0xA0, 0xBF⟩
  else if b = 0xED then some ⟨0xD, 2, 0x80, 0x9F⟩
  else if 0xE1 ≤ b ∧ b ≤ 0xEF then some ⟨b - 0xE0, 2, 0x80, 0xBF⟩
  else if b = 0xF0 then some ⟨0, 3, 0x90, 0xBF⟩
  else if 0xF1 ≤ b ∧ b ≤ 0xF3 then some ⟨b - 0xF0, 3, 0x80, 0xBF⟩
  else if b = 0xF4 then some ⟨4, 3, 0x80, 0x8F⟩
  else none

/-- Whether a byte can be the next one of a character. -/
def OpenChar.admits (p : OpenChar) (b : Nat) : Bool := p.least ≤ b ∧ b ≤ p.greatest

/-- What has been decoded, and the character that is open. -/
structure Decoding where
  done : String := ""
  pending : Option OpenChar := none

namespace Decoding

/-- A byte between two characters. -/
def start (d : Decoding) (b : Nat) : Decoding :=
  if b < 0x80 then ⟨d.done.push (Char.ofNat b), none⟩
  else match OpenChar.ofLead? b with
    | some p => ⟨d.done, some p⟩
    | none => ⟨d.done.push replacement, none⟩

/-- The next byte. -/
def next (d : Decoding) (byte : UInt8) : Decoding :=
  let b := byte.toNat
  match d.pending with
  | none => d.start b
  | some p =>
    if p.admits b then
      let code := 64 * p.code + (b - 0x80)
      if p.missing = 1 then ⟨d.done.push (Char.ofNat code), none⟩
      else ⟨d.done, some ⟨code, p.missing - 1, 0x80, 0xBF⟩⟩
    else start ⟨d.done.push replacement, none⟩ b

/-- The text at the end of the bytes. -/
def finish (d : Decoding) : String :=
  if d.pending.isSome then d.done.push replacement else d.done

end Decoding

/-- The text that bytes spell, with a replacement character for each part that spells
nothing. -/
def decodeLossy (bytes : Bytes) : String := (bytes.foldl Decoding.next {}).finish

end VersionChain.Text
