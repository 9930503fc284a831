import VersionChain.Bytes

/-!
# Words and mixing steps of the digests

The 64-bit and the 128-bit digest read their input as little-endian words, blend the
words with a fixed table of key bytes, and finish by spreading every bit over the
whole word. Sums and products wrap at the width of the word.
-/

namespace VersionChain.Digest

/-! ## Constants -/

def prime32First : UInt64 := 0x9E3779B1
def prime32Second : UInt64 := 0x85EBCA77
def prime32Third : UInt64 := 0xC2B2AE3D
def prime64First : UInt64 := 0x9E3779B185EBCA87
def prime64Second : UInt64 := 0xC2B2AE3D27D4EB4F
def prime64Third : UInt64 := 0x165667B19E3779F9
def prime64Fourth : UInt64 := 0x85EBCA77C2B2AE63
def prime64Fifth : UInt64 := 0x27D4EB2F165667C5
def spreadPrime : UInt64 := 0x165667919E3779F9
def crossPrime : UInt64 := 0x9FB21C651E98DF25

/-- The 192 key bytes that blind the input words. -/
def keyBytes : Bytes := #[
  0xb8, 0xfe, 0x6c, 0x39, 0x23, 0xa4, 0x4b, 0xbe, 0x7c, 0x01, 0x81, 0x2c,
  0xf7, 0x21, 0xad, 0x1c, 0xde, 0xd4, 0x6d, 0xe9, 0x83, 0x90, 0x97, 0xdb,
  0x72, 0x40, 0xa4, 0xa4, 0xb7, 0xb3, 0x67, 0x1f, 0xcb, 0x79, 0xe6, 0x4e,
  0xcc, 0xc0, 0xe5, 0x78, 0x82, 0x5a, 0xd0, 0x7d, 0xcc, 0xff, 0x72, 0x21,
  0xb8, 0x08, 0x46, 0x74, 0xf7, 0x43, 0x24, 0x8e, 0xe0, 0x35, 0x90, 0xe6,
  0x81, 0x3a, 0x26, 0x4c, 0x3c, 0x28, 0x52, 0xbb, 0x91, 0xc3, 0x00, 0xcb,
  0x88, 0xd0, 0x65, 0x8b, 0x1b, 0x53, 0x2e, 0xa3, 0x71, 0x64, 0x48, 0x97,
  0xa2, 0x0d, 0xf9, 0x4e, 0x38, 0x19, 0xef, 0x46, 0xa9, 0xde, 0xac, 0xd8,
  0xa8, 0xfa, 0x76, 0x3f, 0xe3, 0x9c, 0x34, 0x3f, 0xf9, 0xdc, 0xbb, 0xc7,
  0xc7, 0x0b, 0x4f, 0x1d, 0x8a, 0x51, 0xe0, 0x4b, 0xcd, 0xb4, 0x59, 0x31,
  0xc8, 0x9f, 0x7e, 0xc9, 0xd9, 0x78, 0x73, 0x64, 0xea, 0xc5, 0xac, 0x83,
  0x34, 0xd3, 0xeb, 0xc3, 0xc5, 0x81, 0xa0, 0xff, 0xfa, 0x13, 0x63, 0xeb,
  0x17, 0x0d, 0xdd, 0x51, 0xb7, 0xf0, 0xda, 0x49, 0xd3, 0x16, 0x55, 0x26,
  0x29, 0xd4, 0x68, 0x9e, 0x2b, 0x16, 0xbe, 0x58, 0x7d, 0x47, 0xa1, 0xfc,
  0x8f, 0xf8, 0xb8, 0xd1, 0x7a, 0xd0, 0x31, 0xce, 0x45, 0xcb, 0x3a, 0x8f,
  0x95, 0x16, 0x04, 0x28, 0xaf, 0xd7, 0xfb, 0xca, 0xbb, 0x4b, 0x40, 0x7e]

/-- The 64-bit word of the key bytes at position `i`. -/
def key64 (i : Nat) : UInt64 := keyBytes.word64 i

/-- The 32-bit word of the key bytes at position `i`. -/
def key32 (i : Nat) : UInt32 := keyBytes.word32 i

/-! ## Mixing -/

def rotateLeft32 (w : UInt32) (n : UInt32) : UInt32 := (w <<< n) ||| (w >>> (32 - n))

def rotateLeft64 (w : UInt64) (n : UInt64) : UInt64 := (w <<< n) ||| (w >>> (64 - n))

/-- The word with its four bytes in the opposite order. -/
def reverseBytes32 (w : UInt32) : UInt32 :=
  (w <<< 24) ||| ((w &&& 0xFF00) <<< 8) ||| ((w >>> 8) &&& (0xFF00 : UInt32)) ||| (w >>> 24)

/-- The word with its eight bytes in the opposite order. -/
def reverseBytes64 (w : UInt64) : UInt64 :=
  ((reverseBytes32 w.toUInt32).toUInt64 <<< 32) |||
    (reverseBytes32 (w >>> 32).toUInt32).toUInt64

/-- The word folded onto itself `n` bits to the right. -/
def foldRight (w : UInt64) (n : UInt64) : UInt64 := w ^^^ (w >>> n)

/-- The low half of a word. -/
def lowHalf (w : UInt64) : UInt64 := w &&& 0xFFFFFFFF

/-- A 128-bit quantity in two words. -/
structure Pair where
  low : UInt64
  high : UInt64

/-- The full product of two words. -/
def product (a b : UInt64) : Pair :=
  let n := a.toNat * b.toNat
  ⟨UInt64.ofNat n, UInt64.ofNat (n >>> 64)⟩

/-- The two halves of the full product, blended into one word. -/
def foldedProduct (a b : UInt64) : UInt64 :=
  let p := product a b
  p.low ^^^ p.high

/-- Final spreading of an accumulated word. -/
def spread (w : UInt64) : UInt64 :=
  foldRight (foldRight w 37 * spreadPrime) 32

/-- Final spreading for inputs of at most three bytes. -/
def spreadShort (w : UInt64) : UInt64 :=
  foldRight (foldRight (foldRight w 33 * prime64Second) 29 * prime64Third) 32

/-- Final spreading for a single word read from an input of `length` bytes. -/
def spreadWord (w : UInt64) (length : UInt64) : UInt64 :=
  let w := (w ^^^ rotateLeft64 w 49 ^^^ rotateLeft64 w 24) * crossPrime
  foldRight ((w ^^^ ((w >>> 35) + length)) * crossPrime) 28

/-- Sixteen input bytes at `i`, blinded by sixteen key bytes at `k`. -/
def mix16 (b : Bytes) (i k : Nat) : UInt64 :=
  foldedProduct (b.word64 i ^^^ key64 k) (b.word64 (i + 8) ^^^ key64 (k + 8))

/-- One, two or three input bytes spread over a word: the last byte lowest, then the
length, the first byte and the middle byte. -/
def shortWord (b : Bytes) : UInt32 :=
  ((b.getD 0 0).toUInt32 <<< 16) ||| ((b.getD (b.size / 2) 0).toUInt32 <<< 24) |||
    (b.getD (b.size - 1) 0).toUInt32 ||| (UInt32.ofNat b.size <<< 8)

end VersionChain.Digest
