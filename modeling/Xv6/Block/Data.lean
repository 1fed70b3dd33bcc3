import Xv6.Lib.Bytes
import Xv6.Param

/-!
# Disk blocks

A block is `BSIZE` bytes. The kernel reads and writes 32-bit fields in it by casting
`b->data`; the fields are little-endian, as on the RISC-V the kernel runs on.
-/

namespace Xv6

open Lib

/-- The contents of one disk block, `uchar data[BSIZE]`. -/
abbrev Block := Fin BSIZE → UInt8

namespace Block

/-- The block as a byte store; bytes past its end read as zero. -/
def bytes (b : Block) : Bytes := fun i => if h : i < BSIZE then b ⟨i, h⟩ else 0

/-- The first `BSIZE` bytes of a byte store. -/
def ofBytes (m : Bytes) : Block := fun i => m i

/-- The 32-bit field at byte offset `off`. -/
def u32 (b : Block) (off : Nat) : Nat := leGet 4 b.bytes off

/-- Store a 32-bit field at byte offset `off`. -/
def setU32 (b : Block) (off v : Nat) : Block := ofBytes (lePut 4 b.bytes off v)

theorem bytes_ofBytes {m : Bytes} {i : Nat} (h : i < BSIZE) : (ofBytes m).bytes i = m i := by
  simp [bytes, ofBytes, h]

theorem u32_ofBytes {m : Bytes} {off : Nat} (h : off + 4 ≤ BSIZE) :
    (ofBytes m).u32 off = leGet 4 m off :=
  leGet_congr fun _ _ hi => bytes_ofBytes (by omega)

theorem u32_setU32_self {b : Block} {off v : Nat} (h : off + 4 ≤ BSIZE) (hv : v < 2 ^ 32) :
    (b.setU32 off v).u32 off = v := by
  rw [setU32, u32_ofBytes h, leGet_lePut_self]
  exact Nat.mod_eq_of_lt (by simpa using hv)

theorem u32_setU32_of_disjoint {b : Block} {off off' v : Nat} (h : off' + 4 ≤ BSIZE)
    (hd : off + 4 ≤ off' ∨ off' + 4 ≤ off) : (b.setU32 off v).u32 off' = b.u32 off' := by
  rw [setU32, u32_ofBytes h, leGet_lePut_of_disjoint hd, u32]

end Block
end Xv6
