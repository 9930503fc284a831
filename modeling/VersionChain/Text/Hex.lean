/-!
# Hexadecimal text

Lower-case hexadecimal numerals, bare or padded with zeros on the left.
-/

namespace VersionChain.Hex

/-- The lower-case hexadecimal numeral of `n`. -/
def digits (n : Nat) : String := String.ofList (Nat.toDigits 16 n)

/-- The numeral of `n` with zeros in front up to `width` digits. -/
def padded (width n : Nat) : String :=
  let plain := Nat.toDigits 16 n
  String.ofList (List.replicate (width - plain.length) '0' ++ plain)

/-- The numeral of `n` marked as hexadecimal. -/
def marked (n : Nat) : String := "0x" ++ digits n

/-- The two-digit numeral of a byte, marked as hexadecimal. -/
def markedByte (b : UInt8) : String := "0x" ++ padded 2 b.toNat

end VersionChain.Hex
