import VersionChain.Digest.Mix

/-!
# Long inputs

Inputs of more than 240 bytes are taken in stripes of 64 bytes into eight lanes. The
key slides by eight bytes from stripe to stripe; after sixteen stripes the lanes are
scrambled and the key starts over. The last 64 bytes are always taken once more.
-/

namespace VersionChain.Digest

/-- The eight running words. -/
abbrev Lanes := Vector UInt64 8

namespace Lanes

/-- The lanes before any input. -/
def start : Lanes :=
  #v[prime32Third, prime64First, prime64Second, prime64Third,
     prime64Fourth, prime32Second, prime64Fifth, prime32First]

/-- Takes the stripe of `b` at `i`, blinded by the key at `k`: each lane gains the
product of the halves of its blinded word and the plain word of its neighbour. -/
def stripe (lanes : Lanes) (b : Bytes) (i k : Nat) : Lanes :=
  Vector.ofFn fun lane =>
    let blinded := b.word64 (i + 8 * lane) ^^^ key64 (k + 8 * lane)
    lanes[lane] + b.word64 (i + 8 * (lane ^^^ 1)) + lowHalf blinded * (blinded >>> 32)

/-- Scrambles every lane with the last 64 key bytes. -/
def scramble (lanes : Lanes) : Lanes :=
  Vector.ofFn fun lane =>
    (foldRight lanes[lane] 47 ^^^ key64 (keyBytes.size - 64 + 8 * lane)) * prime32First

/-- The lanes after the whole input. -/
def ofBytes (b : Bytes) : Lanes :=
  let whole := (List.range ((b.size - 1) / 64)).foldl (fun lanes s =>
    let lanes := lanes.stripe b (64 * s) (8 * (s % 16))
    if s % 16 = 15 then lanes.scramble else lanes) start
  whole.stripe b (b.size - 64) (keyBytes.size - 64 - 7)

/-- One word from all lanes, blinded by the key at `k` and started from `seed`. -/
def merge (lanes : Lanes) (k : Nat) (seed : UInt64) : UInt64 :=
  spread <|
    seed
    + foldedProduct (lanes[0] ^^^ key64 k) (lanes[1] ^^^ key64 (k + 8))
    + foldedProduct (lanes[2] ^^^ key64 (k + 16)) (lanes[3] ^^^ key64 (k + 24))
    + foldedProduct (lanes[4] ^^^ key64 (k + 32)) (lanes[5] ^^^ key64 (k + 40))
    + foldedProduct (lanes[6] ^^^ key64 (k + 48)) (lanes[7] ^^^ key64 (k + 56))

end Lanes

end VersionChain.Digest
