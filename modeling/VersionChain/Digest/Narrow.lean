import VersionChain.Digest.Stripes

/-!
# The 64-bit digest

The caches place a key in their table by the 64-bit XXH3 digest of its bytes, without
a seed. Each length class has its own mixing; all of them end in a spreading step.
-/

namespace VersionChain.Digest

namespace Narrow

/-- Inputs of four to eight bytes. -/
def upTo8 (b : Bytes) : UInt64 :=
  let first := (b.word32 0).toUInt64
  let last := (b.word32 (b.size - 4)).toUInt64
  spreadWord ((last + (first <<< 32)) ^^^ (key64 8 ^^^ key64 16)) (UInt64.ofNat b.size)

/-- Inputs of nine to sixteen bytes. -/
def upTo16 (b : Bytes) : UInt64 :=
  let low := b.word64 0 ^^^ key64 24 ^^^ key64 32
  let high := b.word64 (b.size - 8) ^^^ key64 40 ^^^ key64 48
  spread (UInt64.ofNat b.size + reverseBytes64 low + high + foldedProduct low high)

/-- Inputs of 17 to 128 bytes: pairs of sixteen bytes from both ends inwards. -/
def upTo128 (b : Bytes) : UInt64 :=
  let rounds := (b.size - 1) / 32 + 1
  spread <| (List.range rounds).foldl (fun sum r =>
    sum + mix16 b (16 * r) (32 * r) + mix16 b (b.size - 16 * (r + 1)) (32 * r + 16))
    (UInt64.ofNat b.size * prime64First)

/-- Inputs of 129 to 240 bytes. -/
def upTo240 (b : Bytes) : UInt64 :=
  let head := spread <| (List.range 8).foldl (fun sum r => sum + mix16 b (16 * r) (16 * r))
    (UInt64.ofNat b.size * prime64First)
  let body := (List.range (b.size / 16 - 8)).foldl
    (fun sum r => sum + mix16 b (16 * (r + 8)) (16 * r + 3)) head
  spread (body + mix16 b (b.size - 16) 119)

end Narrow

/-- The 64-bit digest of a byte string. -/
def narrow (b : Bytes) : UInt64 :=
  if b.size = 0 then spreadShort (key64 56 ^^^ key64 64)
  else if b.size ≤ 3 then spreadShort ((shortWord b).toUInt64 ^^^ (key32 0 ^^^ key32 4).toUInt64)
  else if b.size ≤ 8 then Narrow.upTo8 b
  else if b.size ≤ 16 then Narrow.upTo16 b
  else if b.size ≤ 128 then Narrow.upTo128 b
  else if b.size ≤ 240 then Narrow.upTo240 b
  else (Lanes.ofBytes b).merge 11 (UInt64.ofNat b.size * prime64First)

end VersionChain.Digest
