/-
  Checksums of stored data (`util/crc32c.h`).

  What the log and table formats need of `crc32c::Extend` is that it can be continued
  (`Checksum`); everything about them holds for any such function. `crc32c` is the one with
  the Castagnoli polynomial, a bit at a time.
-/
import LevelDB.Util.Coding

namespace LevelDB

/-- A checksum that can be continued: `Extend`, with `Extend(Extend(c, a), b)` equal to
    `Extend(c, a + b)`. -/
structure Checksum where
  extend : UInt32 → Bytes → UInt32
  extend_append : ∀ c a b, extend c (a ++ b) = extend (extend c a) b

def Checksum.value (crc : Checksum) (data : Bytes) : UInt32 := crc.extend 0 data

def crcBit (c : UInt32) : UInt32 := if c &&& 1 = 1 then (c >>> 1) ^^^ 0x82f63b78 else c >>> 1

def crcByte (c : UInt32) (b : UInt8) : UInt32 :=
  (List.range 8).foldl (fun c _ => crcBit c) (c ^^^ b.toUInt32)

def crc32c : Checksum where
  extend c data := data.foldl crcByte (c ^^^ 0xffffffff) ^^^ 0xffffffff
  extend_append c a b := by
    rw [List.foldl_append, UInt32.xor_assoc, UInt32.xor_self, UInt32.xor_zero]

/-- The check value of CRC-32C. -/
example : crc32c.value "123456789".toUTF8.toList = 0xe3069283 := by decide +kernel

def kMaskDelta : UInt32 := 0xa282ead8

def mask (crc : UInt32) : UInt32 := ((crc >>> 15) ||| (crc <<< 17)) + kMaskDelta

def unmask (maskedCrc : UInt32) : UInt32 :=
  let rot := maskedCrc - kMaskDelta
  (rot >>> 17) ||| (rot <<< 15)

theorem rotate_rotate (x : BitVec 32) {a b : Nat} (h : a + b = 32) :
    ((x >>> a ||| x <<< b) >>> b) ||| ((x >>> a ||| x <<< b) <<< a) = x := by
  apply BitVec.eq_of_getLsbD_eq
  intro i hi
  grind

theorem unmask_mask (crc : UInt32) : unmask (mask crc) = crc := by
  unfold unmask mask
  rw [UInt32.add_sub_cancel]
  apply UInt32.toBitVec_inj.mp
  exact rotate_rotate crc.toBitVec (a := 15) (b := 17) rfl

end LevelDB
