import Xv6.Fs.Blocks

/-!
# The blocks of a disk and who has them

A disk is laid out by its superblock: inodes, bitmap, data. `Blocks sb disk D` says of the inodes
`D` that no data block has two places and that the bitmap marks the blocks that are in use. The
inodes are a parameter because those in memory are ahead of those on disk while an operation is
going on.

For each thing that is done to a disk there is a theorem which says that `Blocks` is kept and what
becomes of the bytes of all files. `Has disk d k v` is what is known of one byte: its block is
there, and it is `v`.
-/

namespace Xv6.Fs

open Lib Function

/-- The first data block. -/
def Superblock.data (sb : Superblock) : Nat := sb.size - sb.nblocks

/-- Inode blocks come before the bitmap, and the bitmap before the data. -/
structure Superblock.Ok (sb : Superblock) : Prop where
  inodes : ∀ i < sb.ninodes, iblock sb i < sb.bmapstart
  bitmap : ∀ b < sb.size, bblock sb b < sb.data
  data : 0 < sb.data
  size : sb.size < 2 ^ 32

/-- The bitmap marks block `b` as used. -/
def InUse (sb : Superblock) (disk : Disk) (b : Nat) : Prop :=
  bitOf (disk (bblock sb b)) (b % BPB) = true

structure Blocks (sb : Superblock) (disk : Disk) (D : Nat → Dinode) : Prop where
  owns : Owns sb.data sb.size (refs D disk) (InUse sb disk)
  metadata : ∀ b < sb.data, InUse sb disk b
  rest : ∀ i k, NDIRECT < k → (D i).addrs k = 0

/-- Byte `k` of a file is there, and it is `v`. -/
def Has (disk : Disk) (d : Dinode) (k : Nat) (v : UInt8) : Prop :=
  blockOf disk d (k / BSIZE) ≠ 0 ∧ contentByte disk d k = v

/-- The disk with block `b` marked as used and zeroed. -/
def allocDisk (sb : Superblock) (disk : Disk) (b : Nat) : Disk :=
  update (update disk (bblock sb b) (setBit (disk (bblock sb b)) (b % BPB))) b zeroes

/-- The disk with block `b` marked as free. -/
def freeDisk (sb : Superblock) (disk : Disk) (b : Nat) : Disk :=
  update disk (bblock sb b) (clearBit (disk (bblock sb b)) (b % BPB))

variable {sb : Superblock} {disk disk' : Disk} {D D' : Nat → Dinode} {d d' : Dinode} {s : Slot}
  {i j k b c x bn : Nat} {v : UInt8} {w : Block}

/-! ## The bitmap -/

theorem data_le (h : Blocks sb disk D) (hx : refs D disk (i, s) = x) (h0 : x ≠ 0) :
    sb.data ≤ x ∧ x < sb.size := hx ▸ h.owns.range (i, s) (hx ▸ h0)

theorem inUse_congr (h : disk' (bblock sb b) = disk (bblock sb b)) :
    InUse sb disk' b ↔ InUse sb disk b := by
  rw [InUse, h, InUse]

/-- Blocks are told apart by their bitmap block and their bit. -/
theorem eq_of_bit (h : bblock sb b = bblock sb c) (hb : b % BPB = c % BPB) : b = c := by
  simp only [bblock] at h
  rw [← Nat.div_add_mod b BPB, ← Nat.div_add_mod c BPB, hb, Nat.add_right_cancel h]

theorem inUse_setBit (hb : disk' (bblock sb c) = update disk (bblock sb b)
      (setBit (disk (bblock sb b)) (b % BPB)) (bblock sb c)) :
    InUse sb disk' c ↔ InUse sb disk c ∨ c = b := by
  rw [InUse, InUse, hb]
  by_cases hc : bblock sb c = bblock sb b
  · rw [hc, update_self, bitOf_setBit (Nat.mod_lt _ (by decide)), Bool.or_eq_true,
      decide_eq_true_eq]
    exact or_congr_right ⟨eq_of_bit hc, fun h => by rw [h]⟩
  · rw [update_of_ne hc]
    refine (or_iff_left ?_).symm
    rintro rfl
    exact hc rfl

theorem inUse_clearBit : InUse sb (freeDisk sb disk b) c ↔ InUse sb disk c ∧ c ≠ b := by
  rw [InUse, InUse, freeDisk]
  by_cases hc : bblock sb c = bblock sb b
  · rw [hc, update_self, bitOf_clearBit (Nat.mod_lt _ (by decide)), Bool.and_eq_true,
      Bool.not_eq_true', decide_eq_false_iff_not]
    exact and_congr_right fun _ => not_congr ⟨eq_of_bit hc, fun h => by rw [h]⟩
  · rw [update_of_ne hc]
    refine (and_iff_left ?_).symm
    rintro rfl
    exact hc rfl

section

variable (hsb : sb.Ok)
include hsb

/-- A data block is not a bitmap block. -/
theorem bblock_ne (hb : sb.data ≤ b) (hc : c < sb.size) : bblock sb c ≠ b := by
  have := hsb.bitmap c hc
  omega

theorem allocDisk_bitmap (hlo : sb.data ≤ b) (hc : c < sb.size) :
    allocDisk sb disk b (bblock sb c) = update disk (bblock sb b)
      (setBit (disk (bblock sb b)) (b % BPB)) (bblock sb c) :=
  update_of_ne (bblock_ne hsb hlo hc) ..

theorem allocDisk_data (hhi : b < sb.size) (hx : sb.data ≤ x) (hne : x ≠ b) :
    allocDisk sb disk b x = disk x := by
  rw [allocDisk, update_of_ne hne, update_of_ne (Ne.symm (bblock_ne hsb hx hhi))]

theorem freeDisk_data (hhi : b < sb.size) (hx : sb.data ≤ x) : freeDisk sb disk b x = disk x :=
  update_of_ne (Ne.symm (bblock_ne hsb hx hhi)) ..

/-- The inode blocks are neither data nor bitmap. -/
theorem iblock_ne (hi : i < sb.ninodes) (hb : b < sb.size) (hx : sb.data ≤ x) :
    iblock sb i ≠ x ∧ iblock sb i ≠ bblock sb b := by
  have h1 := hsb.inodes i hi
  have h2 := hsb.bitmap b hb
  have h3 : sb.bmapstart ≤ bblock sb b := Nat.le_add_left ..
  omega

end

/-! ## Bytes that stay -/

/-- A byte is kept where its block has the same number and the same bytes. -/
theorem Has.congr (h : Has disk d k v) (hb : blockOf disk' d' (k / BSIZE) = blockOf disk d (k / BSIZE))
    (hd : disk' (blockOf disk d (k / BSIZE)) = disk (blockOf disk d (k / BSIZE))) :
    Has disk' d' k v := by
  refine ⟨hb ▸ h.1, ?_⟩
  rw [contentByte, hb, hd]
  exact h.2

/-! ## Giving a block to an inode -/

section

variable (hsb : sb.Ok) (h : Blocks sb disk D) (hlo : sb.data ≤ b) (hhi : b < sb.size)
  (hfree : ¬ InUse sb disk b)
include hsb h hlo hhi hfree

/-- Places that refer to a block are not touched by the allocation of another. -/
theorem Blocks.alloc_slot (i : Nat) (s : Slot) :
    slotOf (allocDisk sb disk b) (D i) s = slotOf disk (D i) s := by
  refine slotOf_congr fun h0 => ?_
  have hx := data_le h (i := i) (s := .direct NDIRECT) rfl h0
  exact allocDisk_data hsb hhi hx.1 (not_indirect_of_free h.owns hlo hhi hfree i)

theorem Blocks.alloc_has (hk : Has disk (D i) k v) : Has (allocDisk sb disk b) (D i) k v := by
  refine hk.congr (h.alloc_slot hsb hlo hhi hfree i _) ?_
  have hx := data_le h (i := i) (s := dataSlot (k / BSIZE)) rfl hk.1
  exact allocDisk_data hsb hhi hx.1 (blockOf_ne_of_free h.owns hlo hhi hfree i _)

/-- Block `b` is allocated and put in place `k` of inode `i`. -/
theorem Blocks.give_addr (hk : k ≤ NDIRECT) (h0 : (D i).addrs k = 0) :
    Blocks sb (allocDisk sb disk b) (update D i ((D i).setAddr k b)) := by
  have hslot := h.alloc_slot hsb hlo hhi hfree
  have hrefs : refs (update D i ((D i).setAddr k b)) (allocDisk sb disk b) =
      update (refs D disk) (i, .direct k) b := by
    refine refs_update rfl (fun i' _ s => hslot i' s) ?_
    by_cases hkn : k = NDIRECT
    · subst hkn
      rw [slotOf_setAddr_indirect h0 fun j => ?_, funext (hslot i)]
      rw [allocDisk, update_self, zeroes_u32]
    · rw [slotOf_setAddr hkn, funext (hslot i)]
  refine ⟨?_, fun c hc => ?_, fun i' l hl => ?_⟩
  · rw [hrefs]
    exact h.owns.give h0 hlo hhi hfree fun c _ hc =>
      inUse_setBit (allocDisk_bitmap hsb hlo hc)
  · exact (inUse_setBit (allocDisk_bitmap hsb hlo (by omega))).mpr (.inl (h.metadata c hc))
  · by_cases hi : i' = i
    · rw [hi, update_self, setAddr_ne (by omega)]
      exact h.rest i l hl
    · rw [update_of_ne hi]
      exact h.rest i' l hl

/-- Block `b` is allocated and put in entry `j` of the indirect block of inode `i`. -/
theorem Blocks.give_entry (hj : j < NINDIRECT) (h0 : (D i).addrs NDIRECT = x) (hx : x ≠ 0)
    (he : (disk x).u32 (4 * j) = 0) :
    Blocks sb (update (allocDisk sb disk b) x
      ((allocDisk sb disk b x).setU32 (4 * j) b)) D := by
  have hslot := h.alloc_slot hsb hlo hhi hfree
  have hrange := data_le h (i := i) (s := .direct NDIRECT) h0 hx
  have hsize := hsb.size
  have hrefs : refs D (update (allocDisk sb disk b) x
        ((allocDisk sb disk b x).setU32 (4 * j) b)) =
      update (refs D disk) (i, .indirect j) b := by
    nth_rewrite 1 [← update_eq_self i D]
    refine refs_update rfl (fun i' hi s => ?_) ?_
    · rw [slotOf_update fun hne he' => hi ?_, hslot]
      exact congrArg Prod.fst (h.owns.inj (i', .direct NDIRECT) (i, .direct NDIRECT)
        (he'.trans h0.symm) hne)
    · subst h0
      rw [slotOf_setEntry hx hj (by omega), funext (hslot i)]
  have hbit : ∀ c < sb.size, update (allocDisk sb disk b) x
      ((allocDisk sb disk b x).setU32 (4 * j) b) (bblock sb c) = update disk (bblock sb b)
      (setBit (disk (bblock sb b)) (b % BPB)) (bblock sb c) := by
    intro c hc
    rw [update_of_ne (bblock_ne hsb hrange.1 hc), allocDisk_bitmap hsb hlo hc]
  refine ⟨?_, fun c hc => ?_, h.rest⟩
  · rw [hrefs]
    refine h.owns.give ?_ hlo hhi hfree fun c _ hc => inUse_setBit (hbit c hc)
    show slotOf disk (D i) (.indirect j) = 0
    rw [slotOf, h0, if_neg hx, he]
  · exact (inUse_setBit (hbit c (by omega))).mpr (.inl (h.metadata c hc))

end

/-! ## Writing a block of a file -/

section

variable (h : Blocks sb disk D) (hx : blockOf disk (D i) bn = x) (h0 : x ≠ 0)
include h hx h0

theorem Blocks.write_slot (j : Nat) (s : Slot) :
    slotOf (update disk x w) (D j) s = slotOf disk (D j) s :=
  slotOf_update fun _ => not_indirect h.owns hx h0 j

theorem Blocks.write (hsb : sb.Ok) : Blocks sb (update disk x w) D := by
  have hrange := data_le h (i := i) (s := dataSlot bn) hx h0
  have hbit : ∀ c < sb.size, InUse sb (update disk x w) c ↔ InUse sb disk c :=
    fun c hc => inUse_congr (update_of_ne (bblock_ne hsb hrange.1 hc) ..)
  have hrefs : refs D (update disk x w) = refs D disk :=
    funext fun y => h.write_slot hx h0 y.1 y.2
  refine ⟨?_, fun c hc => (hbit c (by omega)).mpr (h.metadata c hc), h.rest⟩
  rw [hrefs]
  exact ⟨h.owns.pos, h.owns.range, h.owns.inj,
    fun c hlo hhi => (hbit c hhi).trans (h.owns.used c hlo hhi)⟩

/-- Other blocks keep their bytes. -/
theorem Blocks.write_has (hk : Has disk (D j) k v) (hne : j = i → k / BSIZE ≠ bn) :
    Has (update disk x w) (D j) k v := by
  refine hk.congr (h.write_slot hx h0 j _) (update_of_ne (fun he => ?_) ..)
  have hsame := h.owns.inj (j, dataSlot (k / BSIZE)) (i, dataSlot bn) (he.trans hx.symm) hk.1
  exact hne (congrArg Prod.fst hsame) (dataSlot_inj (congrArg Prod.snd hsame))

theorem Blocks.write_has_self (hk : k / BSIZE = bn) :
    Has (update disk x w) (D i) k (w.bytes (k % BSIZE)) := by
  have hb : blockOf (update disk x w) (D i) (k / BSIZE) = x := by
    rw [hk]
    exact (h.write_slot hx h0 i _).trans hx
  refine ⟨by rw [hb]; exact h0, ?_⟩
  rw [contentByte, hb, update_self]

/-- Some bytes of the block are written; bytes elsewhere stay. -/
theorem Blocks.patch_has {o n : Nat} {f : Bytes} (hk : Has disk (D j) k v)
    (hne : j = i → k < bn * BSIZE + o ∨ bn * BSIZE + o + n ≤ k) :
    Has (update disk x (patch (disk x) o f n)) (D j) k v := by
  by_cases hji : j = i
  · subst hji
    by_cases hbn : k / BSIZE = bn
    · have hself := h.write_has_self (w := patch (disk x) o f n) hx h0 hbn
      have hdiv := Nat.div_add_mod k BSIZE
      have hout : k % BSIZE < o ∨ o + n ≤ k % BSIZE := by
        have := hne rfl
        rw [hbn, mul_comm] at hdiv
        omega
      rw [patch_outside hout] at hself
      refine ⟨hself.1, hself.2.trans ?_⟩
      have hv := hk.2
      rwa [contentByte, hbn, hx] at hv
    · exact h.write_has hx h0 hk fun _ => hbn
  · exact h.write_has hx h0 hk fun hc => absurd hc hji

theorem Blocks.patch_has_self {o n : Nat} {f : Bytes} (ho : o + n ≤ BSIZE) (hk : k < n) :
    Has (update disk x (patch (disk x) o f n)) (D i) (bn * BSIZE + o + k) (f k) := by
  have hlt : o + k < BSIZE := by omega
  have hdiv : (bn * BSIZE + o + k) / BSIZE = bn := by
    rw [add_assoc, add_comm, Nat.add_mul_div_right _ _ (by decide), Nat.div_eq_of_lt hlt,
      zero_add]
  have hmod : (bn * BSIZE + o + k) % BSIZE = o + k := by
    rw [add_assoc, mul_comm, Nat.mul_add_mod, Nat.mod_eq_of_lt hlt]
  have hself := h.write_has_self (w := patch (disk x) o f n) hx h0 hdiv
  rwa [hmod, patch_inside ho hk] at hself

end

/-! ## Changes outside of the data blocks -/

/-- Data blocks are the same. -/
def SameData (sb : Superblock) (disk disk' : Disk) : Prop := ∀ x, sb.data ≤ x → disk' x = disk x

theorem Blocks.same_slot (h : Blocks sb disk D) (hs : SameData sb disk disk') (i : Nat) (s : Slot) :
    slotOf disk' (D i) s = slotOf disk (D i) s :=
  slotOf_congr fun h0 => hs _ (data_le h (i := i) (s := .direct NDIRECT) rfl h0).1

theorem Blocks.same_has (h : Blocks sb disk D) (hs : SameData sb disk disk')
    (hk : Has disk (D i) k v) : Has disk' (D i) k v :=
  hk.congr (h.same_slot hs i _) (hs _ (data_le h (i := i) (s := dataSlot (k / BSIZE)) rfl hk.1).1)

theorem Blocks.same (h : Blocks sb disk D) (hs : SameData sb disk disk')
    (hbit : ∀ c < sb.size, disk' (bblock sb c) = disk (bblock sb c)) : Blocks sb disk' D := by
  have hrefs : refs D disk' = refs D disk := funext fun y => h.same_slot hs y.1 y.2
  refine ⟨?_, fun c hc => (inUse_congr (hbit c ?_)).mpr (h.metadata c hc), h.rest⟩
  · rw [hrefs]
    exact ⟨h.owns.pos, h.owns.range, h.owns.inj,
      fun c hlo hhi => (inUse_congr (hbit c hhi)).trans (h.owns.used c hlo hhi)⟩
  · have : sb.data ≤ sb.size := Nat.sub_le ..
    omega

theorem Superblock.Ok.size_pos (hsb : sb.Ok) : 0 < sb.size :=
  hsb.data.trans_le (Nat.sub_le ..)

theorem setDinode_same (hsb : sb.Ok) (hi : i < sb.ninodes) :
    SameData sb disk (setDinode sb disk i d) ∧
      ∀ c < sb.size, setDinode sb disk i d (bblock sb c) = disk (bblock sb c) :=
  ⟨fun _ hx => setDinode_apply (Ne.symm (iblock_ne hsb hi hsb.size_pos hx).1),
    fun _ hc => setDinode_apply (Ne.symm (iblock_ne hsb hi hc le_rfl).2)⟩

/-! ## Taking blocks from an inode -/

/-- The places of the inodes without the first `m` entries of the indirect block of inode `i`. -/
def mask (i m : Nat) (f : Nat × Slot → Nat) (x : Nat × Slot) : Nat :=
  if x.1 = i ∧ ∃ j < m, x.2 = .indirect j then 0 else f x

theorem mask_zero {f : Nat × Slot → Nat} : mask i 0 f = f := by
  funext x
  exact if_neg fun hc => by
    obtain ⟨-, j, hj, -⟩ := hc
    exact absurd hj (Nat.not_lt_zero j)

theorem mask_succ {f : Nat × Slot → Nat} {m : Nat} :
    mask i (m + 1) f = update (mask i m f) (i, .indirect m) 0 := by
  funext x
  by_cases hx : x = (i, .indirect m)
  · rw [hx, update_self]
    exact if_pos ⟨rfl, m, Nat.lt_succ_self m, rfl⟩
  · rw [update_of_ne hx, mask, mask]
    refine if_congr (and_congr_right fun hi => ⟨?_, ?_⟩) rfl rfl
    · rintro ⟨j, hj, he⟩
      refine ⟨j, ?_, he⟩
      have : j ≠ m := by
        rintro rfl
        exact hx (Prod.ext hi he)
      omega
    · rintro ⟨j, hj, he⟩
      exact ⟨j, by omega, he⟩

/-- While inode `i` is truncated: its blocks at the places that are not masked are still its own. -/
structure Taking (sb : Superblock) (D : Nat → Dinode) (i m : Nat) (disk disk' : Disk) : Prop where
  owns : Owns sb.data sb.size (mask i m (refs D disk)) (InUse sb disk')
  metadata : ∀ b < sb.data, InUse sb disk' b
  kept : ∀ x, (∀ c < sb.size, x ≠ bblock sb c) → disk' x = disk x

theorem Taking.start (h : Blocks sb disk D) : Taking sb D i 0 disk disk :=
  ⟨by rw [mask_zero]; exact h.owns, h.metadata, fun _ _ => rfl⟩

theorem Taking.same (h : Taking sb D i k disk disk') (hsb : sb.Ok) : SameData sb disk disk' :=
  fun x hx => h.kept x fun _ hc => Ne.symm (bblock_ne hsb hx hc)

/-- The block at entry `m` is freed. -/
theorem Taking.entry {m : Nat} (h : Taking sb D i m disk disk')
    (hb : refs D disk (i, .indirect m) = b) (h0 : b ≠ 0) :
    InUse sb disk' b ∧ Taking sb D i (m + 1) disk (freeDisk sb disk' b) := by
  have hb' : mask i m (refs D disk) (i, .indirect m) = b := by
    rw [mask, if_neg, hb]
    rintro ⟨-, j, hj, he⟩
    cases he
    exact absurd hj (lt_irrefl m)
  obtain ⟨hlo, hhi⟩ := h.owns.range (i, .indirect m) (hb' ▸ h0)
  rw [hb'] at hlo hhi
  refine ⟨(h.owns.used b hlo hhi).mpr ⟨_, hb'⟩, ?_, fun c hc => ?_, fun x hx => ?_⟩
  · rw [mask_succ]
    exact h.owns.take hb' fun c _ _ => inUse_clearBit
  · exact inUse_clearBit.mpr ⟨h.metadata c hc, by omega⟩
  · rw [freeDisk, update_of_ne (hx b hhi), h.kept x hx]

/-- There is no block at entry `m`. -/
theorem Taking.skip {m : Nat} (h : Taking sb D i m disk disk')
    (hb : refs D disk (i, .indirect m) = 0) : Taking sb D i (m + 1) disk disk' := by
  refine ⟨?_, h.metadata, h.kept⟩
  rw [mask_succ]
  refine h.owns.congr fun x => ?_
  by_cases hx : x = (i, .indirect m)
  · rw [hx, update_self, mask, hb, ite_self]
  · rw [update_of_ne hx]

/-- A direct block is freed. -/
theorem Blocks.take_addr (h : Blocks sb disk D) (hsb : sb.Ok) (hk : k < NDIRECT)
    (hb : (D i).addrs k = b) (h0 : b ≠ 0) :
    InUse sb disk b ∧
      Blocks sb (freeDisk sb disk b) (update D i ((D i).setAddr k 0)) := by
  obtain ⟨hlo, hhi⟩ := data_le h (i := i) (s := .direct k) hb h0
  have hsame : SameData sb disk (freeDisk sb disk b) := fun x hx => freeDisk_data hsb hhi hx
  have hrefs : refs (update D i ((D i).setAddr k 0)) (freeDisk sb disk b) =
      update (refs D disk) (i, .direct k) 0 := by
    refine refs_update rfl (fun i' _ s => h.same_slot hsame i' s) ?_
    rw [slotOf_setAddr hk.ne, funext (h.same_slot hsame i)]
  refine ⟨(h.owns.used b hlo hhi).mpr ⟨(i, .direct k), hb⟩, ?_, fun c hc => ?_, fun i' l hl => ?_⟩
  · rw [hrefs]
    exact h.owns.take hb fun c _ _ => inUse_clearBit
  · exact inUse_clearBit.mpr ⟨h.metadata c hc, by omega⟩
  · by_cases hi : i' = i
    · rw [hi, update_self, setAddr_ne (by omega)]
      exact h.rest i l hl
    · rw [update_of_ne hi]
      exact h.rest i' l hl

/-- The indirect block is freed after the blocks it refers to. -/
theorem Taking.done (h : Blocks sb disk D) (ht : Taking sb D i NINDIRECT disk disk') (hsb : sb.Ok)
    (hb : (D i).addrs NDIRECT = b) (h0 : b ≠ 0) :
    InUse sb disk' b ∧
      Blocks sb (freeDisk sb disk' b) (update D i ((D i).setAddr NDIRECT 0)) := by
  have hb' : mask i NINDIRECT (refs D disk) (i, .direct NDIRECT) = b := by
    rw [mask, if_neg, refs]
    · exact hb
    · rintro ⟨-, j, -, he⟩
      cases he
  obtain ⟨hlo, hhi⟩ := data_le h (i := i) (s := .direct NDIRECT) hb h0
  have hsame : SameData sb disk (freeDisk sb disk' b) := fun x hx =>
    (freeDisk_data hsb hhi hx).trans (ht.same hsb x hx)
  refine ⟨(ht.owns.used b hlo hhi).mpr ⟨_, hb'⟩, ?_, fun c hc => ?_, fun i' l hl => ?_⟩
  · refine (ht.owns.take hb' fun c _ _ => inUse_clearBit).congr fun x => ?_
    obtain ⟨i', s⟩ := x
    by_cases hi : i' = i
    · subst hi
      rw [refs, update_self]
      cases s with
      | direct l =>
        by_cases hl : l = NDIRECT
        · rw [hl, update_self]
          exact setAddr_self
        · rw [update_of_ne fun he => hl (Slot.direct.inj (congrArg Prod.snd he)), mask,
            if_neg]
          · exact setAddr_ne hl
          · rintro ⟨-, j, -, he⟩
            cases he
      | indirect j =>
        rw [update_of_ne fun he => (by cases congrArg Prod.snd he), mask]
        have h12 : ((D i').setAddr NDIRECT 0).addrs NDIRECT = 0 := setAddr_self
        rw [slotOf, if_pos h12]
        split
        · rfl
        · next hj =>
          have hj : NINDIRECT ≤ j := by
            by_contra hc
            exact hj ⟨rfl, j, by omega, rfl⟩
          refine Eq.symm (ite_eq_left_iff.mpr fun _ => u32_beyond ?_)
          simp only [NINDIRECT, BSIZE] at *
          omega
    · rw [refs, update_of_ne hi, update_of_ne fun he => hi (congrArg Prod.fst he),
        mask, if_neg fun hc => hi hc.1]
      exact h.same_slot hsame i' s
  · exact inUse_clearBit.mpr ⟨ht.metadata c hc, by omega⟩
  · by_cases hi : i' = i
    · rw [hi, update_self, setAddr_ne (by omega)]
      exact h.rest i l hl
    · rw [update_of_ne hi]
      exact h.rest i' l hl

end Xv6.Fs
