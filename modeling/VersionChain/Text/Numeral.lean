/-!
# Decimal numerals

Numbers in commands and settings are written with ASCII digits, optionally after a plus
sign, and have to fit into 64 bits.
-/

namespace VersionChain.Text

/-- The least number that does not fit into 64 bits. -/
def wordLimit : Nat := 0x10000000000000000

/-- The value of an ASCII digit. -/
def digit? (c : Char) : Option Nat :=
  if '0' ≤ c ∧ c ≤ '9' then some (c.toNat - '0'.toNat) else none

/-- The number that continues `n` with the given digits; `none` if one of them is no digit. -/
def digitsFrom? (n : Nat) : List Char → Option Nat
  | [] => some n
  | c :: rest => (digit? c).bind fun d => digitsFrom? (10 * n + d) rest

/-- The 64-bit number written by a text, if it writes one. -/
def number? (text : List Char) : Option Nat :=
  let digits := match text with
    | '+' :: rest => rest
    | text => text
  if digits.isEmpty then none
  else (digitsFrom? 0 digits).filter (· < wordLimit)

end VersionChain.Text
