import VersionChain.Digest.Stripes

/-!
# The 128-bit digest

Group keys are identified by the 128-bit XXH3 digest of their canonical bytes, without
a seed. The length classes are those of the 64-bit digest.
-/

namespace VersionChain.Digest

namespace Wide

/-- Inputs of one to three bytes. -/
def upTo3 (b : Bytes) : Pair :=
  let low := shortWord b
  let high := rotateLeft32 (reverseBytes32 low) 13
  ⟨spreadShort (low.toUInt64 ^^^ (key32 0 ^^^ key32 4).toUInt64),
   spreadShort (high.toUInt64 ^^^ (key32 8 ^^^ key32 12).toUInt64)⟩

/-- Inputs of four to eight bytes. -/
def upTo8 (b : Bytes) : Pair :=
  let first := (b.word32 0).toUInt64
  let last := (b.word32 (b.size - 4)).toUInt64
  let blinded := (first + (last <<< 32)) ^^^ (key64 16 ^^^ key64 24)
  let p := product blinded (prime64First + (UInt64.ofNat b.size <<< 2))
  let high := p.high + (p.low <<< 1)
  let low := p.low ^^^ (high >>> 3)
  ⟨foldRight (foldRight low 35 * crossPrime) 28, spread high⟩

/-- Inputs of nine to sixteen bytes. -/
def upTo16 (b : Bytes) : Pair :=
  let first := b.word64 0
  let last := b.word64 (b.size - 8)
  let p := product (first ^^^ last ^^^ (key64 32 ^^^ key64 40)) prime64First
  let low := p.low + (UInt64.ofNat (b.size - 1) <<< 54)
  let last := last ^^^ (key64 48 ^^^ key64 56)
  let high := p.high + last + lowHalf last * (prime32Second - 1)
  let q := product (low ^^^ reverseBytes64 high) prime64Second
  ⟨spread q.low, spread (q.high + high * prime64Second)⟩

/-- Takes sixteen bytes at `i` and sixteen at `j` into a pair of running words. -/
def mix32 (sum : Pair) (b : Bytes) (i j k : Nat) : Pair :=
  ⟨(sum.low + mix16 b i k) ^^^ (b.word64 j + b.word64 (j + 8)),
   (sum.high + mix16 b j (k + 16)) ^^^ (b.word64 i + b.word64 (i + 8))⟩

/-- The digest from the running words of an input of `length` bytes. -/
def finish (sum : Pair) (length : Nat) : Pair :=
  ⟨spread (sum.low + sum.high),
   0 - spread (sum.low * prime64First + sum.high * prime64Fourth
     + UInt64.ofNat length * prime64Second)⟩

/-- Inputs of 17 to 128 bytes: pairs of sixteen bytes from the middle outwards. -/
def upTo128 (b : Bytes) : Pair :=
  let rounds := (b.size - 1) / 32 + 1
  let sum := (List.range rounds).foldr (fun r sum =>
    mix32 sum b (16 * r) (b.size - 16 * (r + 1)) (32 * r))
    ⟨UInt64.ofNat b.size * prime64First, 0⟩
  finish sum b.size

/-- Inputs of 129 to 240 bytes: two blocks at a time, the last 32 bytes once more. -/
def upTo240 (b : Bytes) : Pair :=
  let head := (List.range 4).foldl (fun sum r => mix32 sum b (32 * r) (32 * r + 16) (32 * r))
    ⟨UInt64.ofNat b.size * prime64First, 0⟩
  let body := (List.range (b.size / 32 - 4)).foldl
    (fun sum r => mix32 sum b (32 * (r + 4)) (32 * (r + 4) + 16) (32 * r + 3))
    ⟨spread head.low, spread head.high⟩
  finish (mix32 body b (b.size - 16) (b.size - 32) 103) b.size

/-- Inputs of more than 240 bytes. -/
def long (b : Bytes) : Pair :=
  let lanes := Lanes.ofBytes b
  ⟨lanes.merge 11 (UInt64.ofNat b.size * prime64First),
   lanes.merge (keyBytes.size - 64 - 11) (~~~(UInt64.ofNat b.size * prime64Second))⟩

end Wide

/-- The 128-bit digest of a byte string. -/
def wide (b : Bytes) : Pair :=
  if b.size = 0 then
    ⟨spreadShort (key64 64 ^^^ key64 72), spreadShort (key64 80 ^^^ key64 88)⟩
  else if b.size ≤ 3 then Wide.upTo3 b
  else if b.size ≤ 8 then Wide.upTo8 b
  else if b.size ≤ 16 then Wide.upTo16 b
  else if b.size ≤ 128 then Wide.upTo128 b
  else if b.size ≤ 240 then Wide.upTo240 b
  else Wide.long b

end VersionChain.Digest
