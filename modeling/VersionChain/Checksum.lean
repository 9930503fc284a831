import VersionChain.Bytes

/-!
# Content checksums

The 32-bit cyclic redundancy check with the reflected polynomial `0xEDB88320`,
initial value and final complement all ones. Records carry it over the content
they rebuild, so a record applied to the wrong base is noticed.
-/

namespace VersionChain.Checksum

/-- One bit of division by the reflected polynomial. -/
def bitStep (crc : UInt32) : UInt32 :=
  (crc >>> 1) ^^^ (if crc &&& 1 = 1 then 0xEDB88320 else 0)

/-- Takes one more byte into the running remainder. -/
def byteStep (crc : UInt32) (byte : UInt8) : UInt32 :=
  bitStep <| bitStep <| bitStep <| bitStep <|
    bitStep <| bitStep <| bitStep <| bitStep (crc ^^^ byte.toUInt32)

end VersionChain.Checksum

namespace VersionChain

/-- The checksum of a byte string. -/
def checksum (bytes : Bytes) : UInt32 :=
  bytes.foldl Checksum.byteStep 0xFFFFFFFF ^^^ 0xFFFFFFFF

end VersionChain
