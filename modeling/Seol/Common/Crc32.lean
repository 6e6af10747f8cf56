import Seol.Common.Bytes

/-!
# CRC-32 with the IEEE polynomial

The reflected bit-serial form of `hash/crc32`. The register is complemented on entry and on exit, so
`crc32Update` continues a checksum over further bytes.
-/

namespace Seol.Common

/-- One bit of the reflected division by the IEEE polynomial. -/
def crcBit (c : UInt32) : UInt32 :=
  if c &&& 1 = 1 then (c >>> 1) ^^^ 0xEDB88320 else c >>> 1

/-- Feed one byte into the register. -/
def crcByte (c : UInt32) (b : UInt8) : UInt32 :=
  crcBit (crcBit (crcBit (crcBit (crcBit (crcBit (crcBit (crcBit (c ^^^ b.toUInt32))))))))

/-- `crc32.Update(crc, crc32.IEEETable, p)`. -/
def crc32Update (crc : UInt32) (p : Bytes) : UInt32 := ~~~(p.foldl crcByte (~~~crc))

/-- `crc32.ChecksumIEEE`. -/
def checksumIEEE (p : Bytes) : UInt32 := crc32Update 0 p

/-- Updating over two pieces is updating over their concatenation. -/
theorem crc32Update_append (crc : UInt32) (p q : Bytes) :
    crc32Update crc (p ++ q) = crc32Update (crc32Update crc p) q := by
  simp [crc32Update, List.foldl_append, UInt32.not_not]

@[simp] theorem crc32Update_nil (crc : UInt32) : crc32Update crc [] = crc := by
  simp [crc32Update, UInt32.not_not]

/-- The check value of the CRC-32/ISO-HDLC parameters, over the ASCII digits `1` to `9`. -/
example : checksumIEEE [0x31, 0x32, 0x33, 0x34, 0x35, 0x36, 0x37, 0x38, 0x39] = 0xCBF43926 := by
  decide +kernel

end Seol.Common
