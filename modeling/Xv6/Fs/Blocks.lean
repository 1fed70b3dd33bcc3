import Xv6.Fs.Format
import Xv6.Lib.Owns

/-!
# The blocks of inodes

An inode has a place for each block it can refer to: its direct blocks, its indirect block, and the
entries of the indirect block. `refs D disk` gives the block at each place, for the inodes `D`, with
zero for none. That no block has two places is `Owns` of this function; what is said here is how the
ways of changing an inode or a block change the function, and the bytes of the files.
-/

namespace Xv6.Fs

open Lib Function

/-- A place for a block number in an inode. -/
inductive Slot where
  /-- `addrs[k]` -/
  | direct (k : Nat)
  /-- entry `j` of the indirect block -/
  | indirect (j : Nat)
  deriving DecidableEq

/-- The block number at a place. -/
def slotOf (disk : Disk) (d : Dinode) : Slot → Nat
  | .direct k => d.addrs k
  | .indirect j => if d.addrs NDIRECT = 0 then 0 else (disk (d.addrs NDIRECT)).u32 (4 * j)

/-- The place of the `bn`th block of a file. -/
def dataSlot (bn : Nat) : Slot := if bn < NDIRECT then .direct bn else .indirect (bn - NDIRECT)

/-- The disk block address of the `bn`th block of a file, or zero. -/
def blockOf (disk : Disk) (d : Dinode) (bn : Nat) : Nat := slotOf disk d (dataSlot bn)

/-- The block number at each place of the inodes `D`. -/
def refs (D : Nat → Dinode) (disk : Disk) (x : Nat × Slot) : Nat := slotOf disk (D x.1) x.2

/-- Byte `k` of a file. -/
def contentByte (disk : Disk) (d : Dinode) (k : Nat) : UInt8 :=
  (disk (blockOf disk d (k / BSIZE))).bytes (k % BSIZE)

/-- Entry `e` of a directory. -/
def direntOf (disk : Disk) (d : Dinode) (e : Nat) : Dirent :=
  Dirent.ofBytes fun j => contentByte disk d (16 * e + j)

/-- `d->addrs[k] = b` -/
def Dinode.setAddr (d : Dinode) (k b : Nat) : Dinode :=
  { d with addrs := update d.addrs k b }

variable {disk disk' : Disk} {d : Dinode} {D : Nat → Dinode} {i j k b x bn bn' lo hi : Nat}
  {s : Slot} {used used' : Nat → Prop} {blk : Block}

theorem setAddr_self : (d.setAddr k b).addrs k = b := update_self ..

theorem setAddr_ne (h : j ≠ k) : (d.setAddr k b).addrs j = d.addrs j := update_of_ne h ..

/-- There are 64 entries to a block. -/
theorem entry_div {e : Nat} (hj : j < 16) : (16 * e + j) / BSIZE = e / 64 := by
  rw [show BSIZE = 16 * 64 from rfl, ← Nat.div_div_eq_div_mul]
  congr 1
  omega

theorem dataSlot_inj (h : dataSlot bn = dataSlot bn') : bn = bn' := by
  rw [dataSlot, dataSlot] at h
  split at h <;> split at h
  · exact Slot.direct.inj h
  · cases h
  · cases h
  · have := Slot.indirect.inj h
    omega

/-- The indirect block holds no bytes of the file. -/
theorem dataSlot_ne : dataSlot bn ≠ .direct NDIRECT := by
  rw [dataSlot]
  split
  · next h =>
    intro he
    cases he
    exact absurd h (lt_irrefl _)
  · intro he
    cases he

/-! ## Changes of a block -/

theorem slotOf_update (h : d.addrs NDIRECT ≠ 0 → d.addrs NDIRECT ≠ x) :
    slotOf (update disk x blk) d s = slotOf disk d s := by
  cases s with
  | direct k => rfl
  | indirect j =>
    simp only [slotOf]
    by_cases h0 : d.addrs NDIRECT = 0
    · rw [if_pos h0, if_pos h0]
    · rw [if_neg h0, if_neg h0, update_of_ne (h h0)]

theorem slotOf_congr (h : d.addrs NDIRECT ≠ 0 → disk' (d.addrs NDIRECT) = disk (d.addrs NDIRECT)) :
    slotOf disk' d s = slotOf disk d s := by
  cases s with
  | direct k => rfl
  | indirect j =>
    simp only [slotOf]
    by_cases h0 : d.addrs NDIRECT = 0
    · rw [if_pos h0, if_pos h0]
    · rw [if_neg h0, if_neg h0, h h0]

/-- A block that is in use at no place but those of bytes of files is not an indirect block. -/
theorem not_indirect (h : Owns lo hi (refs D disk) used) (hx : blockOf disk (D i) bn = x)
    (h0 : x ≠ 0) (i' : Nat) : (D i').addrs NDIRECT ≠ x := by
  intro he
  have hsame := h.inj (i', .direct NDIRECT) (i, dataSlot bn) (he.trans hx.symm)
    (by rw [refs]; exact he.trans_ne h0)
  exact dataSlot_ne (congrArg Prod.snd hsame).symm

/-- A free block is not an indirect block. -/
theorem not_indirect_of_free (h : Owns lo hi (refs D disk) used) (hlo : lo ≤ x) (hhi : x < hi)
    (hfree : ¬ used x) (i : Nat) : (D i).addrs NDIRECT ≠ x :=
  fun he => hfree ((h.used x hlo hhi).mpr ⟨(i, .direct NDIRECT), he⟩)

theorem blockOf_ne_of_free (h : Owns lo hi (refs D disk) used) (hlo : lo ≤ x) (hhi : x < hi)
    (hfree : ¬ used x) (i bn : Nat) : blockOf disk (D i) bn ≠ x :=
  fun he => hfree ((h.used x hlo hhi).mpr ⟨(i, dataSlot bn), he⟩)

/-! ## Changes of the places -/

theorem slotOf_setAddr (hk : k ≠ NDIRECT) :
    slotOf disk (d.setAddr k b) = update (slotOf disk d) (.direct k) b := by
  funext s
  have ha : (d.setAddr k b).addrs NDIRECT = d.addrs NDIRECT := setAddr_ne (Ne.symm hk)
  cases s with
  | direct l =>
    by_cases hl : l = k
    · rw [hl, update_self]
      exact setAddr_self
    · rw [update_of_ne fun he => hl (Slot.direct.inj he)]
      exact setAddr_ne hl
  | indirect j =>
    rw [update_of_ne fun he => (by cases he)]
    simp only [slotOf, ha]

/-- A new indirect block has no entries. -/
theorem slotOf_setAddr_indirect (h0 : d.addrs NDIRECT = 0) (hz : ∀ j, (disk b).u32 (4 * j) = 0) :
    slotOf disk (d.setAddr NDIRECT b) =
      update (slotOf disk d) (.direct NDIRECT) b := by
  funext s
  have ha : (d.setAddr NDIRECT b).addrs NDIRECT = b := setAddr_self
  cases s with
  | direct l =>
    by_cases hl : l = NDIRECT
    · rw [hl, update_self]
      exact ha
    · rw [update_of_ne fun he => hl (Slot.direct.inj he)]
      exact setAddr_ne hl
  | indirect j =>
    rw [update_of_ne fun he => (by cases he)]
    simp only [slotOf, ha, h0, if_true, hz, ite_self]

/-- An entry of the indirect block is set. -/
theorem slotOf_setEntry (h0 : d.addrs NDIRECT ≠ 0) (hj : j < NINDIRECT) (hb : b < 2 ^ 32) :
    slotOf (update disk (d.addrs NDIRECT)
        ((disk (d.addrs NDIRECT)).setU32 (4 * j) b)) d =
      update (slotOf disk d) (.indirect j) b := by
  have hend : 4 * j + 4 ≤ BSIZE := by
    simp only [NINDIRECT, BSIZE] at *
    omega
  funext s
  cases s with
  | direct l =>
    rw [update_of_ne fun he => (by cases he)]
    rfl
  | indirect l =>
    by_cases hl : l = j
    · rw [hl, update_self, slotOf, if_neg h0, update_self,
        Block.u32_setU32_self hend hb]
    · rw [update_of_ne fun he => hl (Slot.indirect.inj he), slotOf, slotOf, if_neg h0,
        if_neg h0, update_self]
      by_cases hlt : 4 * l + 4 ≤ BSIZE
      · rw [Block.u32_setU32_of_disjoint hlt (by omega)]
      · have hge : BSIZE ≤ 4 * l := by
          simp only [BSIZE] at *
          omega
        rw [u32_beyond hge, u32_beyond hge]

theorem refs_update {d' : Dinode} {f : Slot → Nat} (hd : slotOf disk' d' = f)
    (hother : ∀ i', i' ≠ i → ∀ s, slotOf disk' (D i') s = slotOf disk (D i') s)
    (hf : f = update (slotOf disk (D i)) s b) :
    refs (update D i d') disk' = update (refs D disk) (i, s) b := by
  funext x
  rcases x with ⟨i', s'⟩
  rw [refs]
  by_cases hi : i' = i
  · subst hi
    simp only [update_self]
    rw [hd, hf]
    by_cases hs : s' = s
    · rw [hs, update_self, update_self]
    · rw [update_of_ne hs, update_of_ne fun he => hs (congrArg Prod.snd he)]
      rfl
  · rw [update_of_ne fun he => hi (congrArg Prod.fst he)]
    simp only [update_of_ne hi]
    exact hother i' hi s'

end Xv6.Fs
