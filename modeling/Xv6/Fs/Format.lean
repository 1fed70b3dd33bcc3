import Xv6.Block.Data

/-!
# The on-disk format of the file system

The structures of `kernel/fs.h` as bytes of disk blocks: the superblock, inodes, directory entries
and the free bitmap. Numbers are little-endian. `short` fields are kept as 16-bit numbers. Both
`mkfs` and the kernel read and write the disk through these definitions.
-/

namespace Xv6.Fs

open Lib Function List

/-- root i-number -/
abbrev ROOTINO : Nat := 1
abbrev FSMAGIC : Nat := 0x10203040
abbrev NDIRECT : Nat := 12
abbrev NINDIRECT : Nat := BSIZE / 4
abbrev MAXFILE : Nat := NDIRECT + NINDIRECT
/-- Inodes per block. -/
abbrev IPB : Nat := BSIZE / 64
/-- Bitmap bits per block -/
abbrev BPB : Nat := BSIZE * 8
abbrev DIRSIZ : Nat := 14

/-- Directory -/
abbrev T_DIR : Nat := 1
/-- File -/
abbrev T_FILE : Nat := 2
/-- Device -/
abbrev T_DEVICE : Nat := 3

/-- The blocks of a disk, by number. -/
abbrev Disk := Nat → Block

/-- A block of zeros. -/
def zeroes : Block := fun _ => 0

/-- `memmove(b + off, src, n)` -/
def patch (b : Block) (off : Nat) (src : Bytes) (n : Nat) : Block :=
  Block.ofBytes (blit b.bytes off src n)

/-! ## Superblock -/

structure Superblock where
  magic : Nat
  size : Nat
  nblocks : Nat
  ninodes : Nat
  nlog : Nat
  logstart : Nat
  inodestart : Nat
  bmapstart : Nat

/-- The superblock in a block. -/
def Superblock.ofBlock (b : Block) : Superblock where
  magic := b.u32 0
  size := b.u32 4
  nblocks := b.u32 8
  ninodes := b.u32 12
  nlog := b.u32 16
  logstart := b.u32 20
  inodestart := b.u32 24
  bmapstart := b.u32 28

/-- The fields in their order. -/
def Superblock.field (sb : Superblock) : Nat → Nat
  | 0 => sb.magic
  | 1 => sb.size
  | 2 => sb.nblocks
  | 3 => sb.ninodes
  | 4 => sb.nlog
  | 5 => sb.logstart
  | 6 => sb.inodestart
  | _ => sb.bmapstart

/-- The bytes of a superblock. -/
def Superblock.bytes (sb : Superblock) : Bytes := fun i => leByte (sb.field (i / 4)) (i % 4)

/-- Block containing inode `i` -/
def iblock (sb : Superblock) (i : Nat) : Nat := i / IPB + sb.inodestart

/-- Block of free map containing bit for block `b` -/
def bblock (sb : Superblock) (b : Nat) : Nat := b / BPB + sb.bmapstart

/-! ## Inodes -/

/-- On-disk inode structure -/
structure Dinode where
  type : Nat
  major : Nat
  minor : Nat
  nlink : Nat
  size : Nat
  addrs : Nat → Nat

/-- The numbers fit the fields. -/
structure Dinode.Fits (d : Dinode) : Prop where
  type : d.type < 2 ^ 16
  major : d.major < 2 ^ 16
  minor : d.minor < 2 ^ 16
  nlink : d.nlink < 2 ^ 16
  size : d.size < 2 ^ 32
  addrs : ∀ k, d.addrs k < 2 ^ 32
  rest : ∀ k, NDIRECT < k → d.addrs k = 0

/-- An inode of zeros. -/
def Dinode.zero : Dinode := ⟨0, 0, 0, 0, 0, fun _ => 0⟩

def Dinode.bytes (d : Dinode) : Bytes := fun i =>
  if i < 2 then leByte d.type i
  else if i < 4 then leByte d.major (i - 2)
  else if i < 6 then leByte d.minor (i - 4)
  else if i < 8 then leByte d.nlink (i - 6)
  else if i < 12 then leByte d.size (i - 8)
  else leByte (d.addrs ((i - 12) / 4)) ((i - 12) % 4)

def Dinode.ofBytes (m : Bytes) : Dinode where
  type := leGet 2 m 0
  major := leGet 2 m 2
  minor := leGet 2 m 4
  nlink := leGet 2 m 6
  size := leGet 4 m 8
  addrs := fun k => if k ≤ NDIRECT then leGet 4 m (12 + 4 * k) else 0

/-- `*((struct dinode*)bp->data + inum%IPB)` -/
def dinodeOf (sb : Superblock) (disk : Disk) (i : Nat) : Dinode :=
  Dinode.ofBytes fun j => (disk (iblock sb i)).bytes (i % IPB * 64 + j)

/-- The disk with inode `i` changed. -/
def setDinode (sb : Superblock) (disk : Disk) (i : Nat) (d : Dinode) : Disk :=
  update disk (iblock sb i) (patch (disk (iblock sb i)) (i % IPB * 64) d.bytes 64)

/-! ## Directory entries -/

structure Dirent where
  inum : Nat
  name : Bytes

def Dirent.bytes (de : Dirent) : Bytes := fun i =>
  if i < 2 then leByte de.inum i else if i < 16 then de.name (i - 2) else 0

def Dirent.ofBytes (m : Bytes) : Dirent where
  inum := leGet 2 m 0
  name := fun i => if i < DIRSIZ then m (2 + i) else 0

/-- A list of bytes as an array, with zeros after its end. -/
def array (s : List UInt8) : Bytes := fun i => s.getD i 0

/-- The array that `strncpy` fills from `t`: `n` characters, zeros after the end of `t`. -/
def strncpy (t : Bytes) (n : Nat) : Bytes := fun i =>
  if i < n ∧ ∀ j < i, t j ≠ 0 then t i else 0

/-- Compare the next `n` characters of two arrays. -/
def strncmp (p q : Bytes) : (n i : Nat) → Int
  | 0, _ => 0
  | n + 1, i =>
    if p i ≠ 0 ∧ p i = q i then strncmp p q n (i + 1) else (p i).toNat - (q i).toNat

def namecmp (s t : Bytes) : Int := strncmp s t DIRSIZ 0

/-- The name in an array of characters: at most `DIRSIZ` of them, up to the first zero. -/
def nameOf (s : Bytes) : List UInt8 := ((range DIRSIZ).map s).takeWhile (· ≠ 0)

/-! ## Bitmap -/

/-- Bit `bi` of a bitmap block: `bp->data[bi/8] & (1 << (bi % 8))` -/
def bitOf (b : Block) (bi : Nat) : Bool := ((b.bytes (bi / 8)).toNat &&& (1 <<< (bi % 8))) ≠ 0

/-- `bp->data[bi/8] |= 1 << (bi % 8)` -/
def setBit (b : Block) (bi : Nat) : Block :=
  Block.ofBytes (update b.bytes (bi / 8)
    (UInt8.ofNat ((b.bytes (bi / 8)).toNat ||| (1 <<< (bi % 8)))))

/-- `bp->data[bi/8] &= ~(1 << (bi % 8))` -/
def clearBit (b : Block) (bi : Nat) : Block :=
  Block.ofBytes (update b.bytes (bi / 8)
    (UInt8.ofNat ((b.bytes (bi / 8)).toNat &&& (255 ^^^ (1 <<< (bi % 8))))))

/-! ## What is read back -/

variable {b : Block} {src : Bytes} {off n i j k : Nat} {d : Dinode} {sb : Superblock} {disk : Disk}

theorem patch_inside (hn : off + n ≤ BSIZE) (hi : i < n) :
    (patch b off src n).bytes (off + i) = src i := by
  rw [patch, Block.bytes_ofBytes (by omega), blit_inside hi]

theorem patch_outside (h : i < off ∨ off + n ≤ i) : (patch b off src n).bytes i = b.bytes i := by
  by_cases hi : i < BSIZE
  · rw [patch, Block.bytes_ofBytes hi, blit_outside h]
  · simp only [Block.bytes, hi, dite_false]

theorem zeroes_bytes : zeroes.bytes i = 0 := by
  simp [zeroes, Block.bytes]

theorem zeroes_u32 : zeroes.u32 off = 0 := leGet_eq_zero fun _ _ _ => zeroes_bytes

/-- A field past the end of a block reads as zero. -/
theorem u32_beyond (h : BSIZE ≤ off) : b.u32 off = 0 := by
  refine leGet_eq_zero fun i hi _ => ?_
  rw [Block.bytes, dif_neg (by omega)]

/-- A block is determined by its bytes. -/
theorem block_ext {b c : Block} (h : ∀ i < BSIZE, b.bytes i = c.bytes i) : b = c := by
  funext i
  have := h i i.isLt
  simpa only [Block.bytes, i.isLt, dite_true] using this

theorem Dinode.ofBytes_congr {m m' : Bytes} (h : ∀ i < 64, m i = m' i) :
    Dinode.ofBytes m = Dinode.ofBytes m' := by
  have hget : ∀ k a, a + k ≤ 64 → leGet k m a = leGet k m' a :=
    fun k a ha => leGet_congr fun i _ hi => h i (by omega)
  simp only [Dinode.ofBytes, Dinode.mk.injEq]
  refine ⟨hget 2 0 (by omega), hget 2 2 (by omega), hget 2 4 (by omega), hget 2 6 (by omega),
    hget 4 8 (by omega), funext fun k => ?_⟩
  by_cases hk : k ≤ NDIRECT
  · rw [if_pos hk, if_pos hk, hget 4 _ (by simp only [NDIRECT] at hk; omega)]
  · rw [if_neg hk, if_neg hk]

theorem Dinode.ofBytes_bytes (h : d.Fits) : Dinode.ofBytes d.bytes = d := by
  have haddr : ∀ k, leGet 4 d.bytes (12 + 4 * k) = d.addrs k := by
    refine fun k => leGet_leByte (fun i hi => ?_) (h.addrs k)
    simp only [Dinode.bytes]
    rw [if_neg (by omega), if_neg (by omega), if_neg (by omega), if_neg (by omega),
      if_neg (by omega), show (12 + 4 * k + i - 12) / 4 = k by omega,
      show (12 + 4 * k + i - 12) % 4 = i by omega]
  have htype : leGet 2 d.bytes 0 = d.type := by
    refine leGet_leByte (fun i hi => ?_) h.type
    simp only [Dinode.bytes]
    rw [if_pos (by omega), zero_add]
  have hmajor : leGet 2 d.bytes 2 = d.major := by
    refine leGet_leByte (fun i hi => ?_) h.major
    simp only [Dinode.bytes]
    rw [if_neg (by omega), if_pos (by omega), Nat.add_sub_cancel_left]
  have hminor : leGet 2 d.bytes 4 = d.minor := by
    refine leGet_leByte (fun i hi => ?_) h.minor
    simp only [Dinode.bytes]
    rw [if_neg (by omega), if_neg (by omega), if_pos (by omega), Nat.add_sub_cancel_left]
  have hnlink : leGet 2 d.bytes 6 = d.nlink := by
    refine leGet_leByte (fun i hi => ?_) h.nlink
    simp only [Dinode.bytes]
    rw [if_neg (by omega), if_neg (by omega), if_neg (by omega), if_pos (by omega),
      Nat.add_sub_cancel_left]
  have hsize : leGet 4 d.bytes 8 = d.size := by
    refine leGet_leByte (fun i hi => ?_) h.size
    simp only [Dinode.bytes]
    rw [if_neg (by omega), if_neg (by omega), if_neg (by omega), if_neg (by omega),
      if_pos (by omega), Nat.add_sub_cancel_left]
  have haddrs : (fun k => if k ≤ NDIRECT then leGet 4 d.bytes (12 + 4 * k) else 0) = d.addrs := by
    funext k
    by_cases hk : k ≤ NDIRECT
    · rw [if_pos hk, haddr]
    · rw [if_neg hk, h.rest k (by omega)]
  rw [Dinode.ofBytes, htype, hmajor, hminor, hnlink, hsize, haddrs]

/-- What is read from the disk fits. -/
theorem Dinode.ofBytes_fits (m : Bytes) : (Dinode.ofBytes m).Fits := by
  refine ⟨leGet_lt 2 m 0, leGet_lt 2 m 2, leGet_lt 2 m 4, leGet_lt 2 m 6, leGet_lt 4 m 8,
    fun k => ?_, fun k hk => if_neg (by omega)⟩
  simp only [Dinode.ofBytes]
  split
  · exact leGet_lt 4 m _
  · exact Nat.two_pow_pos 32

theorem dinodeOf_fits : (dinodeOf sb disk i).Fits := Dinode.ofBytes_fits _

theorem dinodeOf_setDinode_self (h : d.Fits) : dinodeOf sb (setDinode sb disk i d) i = d := by
  rw [dinodeOf, setDinode, update_self]
  refine (Dinode.ofBytes_congr fun j hj => ?_).trans (Dinode.ofBytes_bytes h)
  refine patch_inside ?_ hj
  have : i % IPB < IPB := Nat.mod_lt _ (by decide)
  simp only [IPB, BSIZE] at this ⊢
  omega

theorem dinodeOf_setDinode_ne (h : j ≠ i) :
    dinodeOf sb (setDinode sb disk i d) j = dinodeOf sb disk j := by
  refine Dinode.ofBytes_congr fun l hl => ?_
  rw [setDinode]
  by_cases hb : iblock sb j = iblock sb i
  · rw [hb, update_self]
    refine patch_outside ?_
    simp only [iblock, IPB, BSIZE] at hb ⊢
    omega
  · rw [update_of_ne hb]

theorem dinodeOf_update (blk : Block) (h : iblock sb i ≠ k) :
    dinodeOf sb (update disk k blk) i = dinodeOf sb disk i := by
  rw [dinodeOf, dinodeOf, update_of_ne h]

theorem setDinode_apply (h : k ≠ iblock sb i) : setDinode sb disk i d k = disk k :=
  update_of_ne h ..

/-- A disk block of zeros holds inodes of zeros. -/
theorem dinodeOf_zeroes (h : disk (iblock sb i) = zeroes) : dinodeOf sb disk i = Dinode.zero := by
  have hz : ∀ k a, leGet k (fun j => (disk (iblock sb i)).bytes (i % IPB * 64 + j)) a = 0 :=
    fun k a => leGet_eq_zero fun j _ _ => by rw [h]; exact zeroes_bytes
  simp only [dinodeOf, Dinode.ofBytes, hz, ite_self]
  rfl

theorem Dirent.ofBytes_congr {m m' : Bytes} (h : ∀ i < 16, m i = m' i) :
    Dirent.ofBytes m = Dirent.ofBytes m' := by
  simp only [Dirent.ofBytes, Dirent.mk.injEq]
  refine ⟨leGet_congr fun i _ hi => h i (by omega), funext fun i => ?_⟩
  by_cases hi : i < DIRSIZ
  · rw [if_pos hi, if_pos hi, h (2 + i) (by simp only [DIRSIZ] at hi; omega)]
  · rw [if_neg hi, if_neg hi]

theorem Dirent.ofBytes_bytes {x : Dirent} (hi : x.inum < 2 ^ 16)
    (hn : ∀ i, DIRSIZ ≤ i → x.name i = 0) : Dirent.ofBytes x.bytes = x := by
  have hinum : leGet 2 x.bytes 0 = x.inum := by
    refine leGet_leByte (fun i hi => ?_) hi
    simp only [Dirent.bytes]
    rw [if_pos (by omega), zero_add]
  have hname : (fun i => if i < DIRSIZ then x.bytes (2 + i) else 0) = x.name := by
    funext i
    by_cases hi : i < DIRSIZ
    · simp only [DIRSIZ] at hi
      simp only [Dirent.bytes]
      rw [if_pos (by simp only [DIRSIZ]; omega), if_neg (by omega), if_pos (by omega),
        Nat.add_sub_cancel_left]
    · rw [if_neg hi, hn i (by omega)]
  rw [Dirent.ofBytes, hinum, hname]

/-! ## Bits -/

theorem bitOf_eq : bitOf b i = (b.bytes (i / 8)).toNat.testBit (i % 8) := by
  rw [bitOf, Nat.shiftLeft_eq, one_mul]
  by_cases h : (b.bytes (i / 8)).toNat.testBit (i % 8) = true
  · rw [h, decide_eq_true_eq]
    intro h0
    have := congrArg (Nat.testBit · (i % 8)) h0
    simp [h] at this
  · rw [Bool.not_eq_true] at h
    rw [h, decide_eq_false_iff_not, not_not]
    refine Nat.eq_of_testBit_eq fun l => ?_
    rw [Nat.testBit_and, Nat.testBit_two_pow, Nat.zero_testBit]
    by_cases hl : i % 8 = l
    · rw [← hl, h, Bool.false_and]
    · simp [hl]

private theorem byte_lor_testBit (x : UInt8) (hk : k < 8) :
    (UInt8.ofNat (x.toNat ||| (1 <<< k))).toNat.testBit j =
      (x.toNat.testBit j || decide (k = j)) := by
  have hx : x.toNat < 2 ^ 8 := x.toNat_lt
  have hp : 1 <<< k < 2 ^ 8 := by
    rw [Nat.shiftLeft_eq, one_mul]
    exact Nat.pow_lt_pow_right (by decide) hk
  rw [UInt8.toNat_ofNat_of_lt' (Nat.or_lt_two_pow hx hp), Nat.testBit_or, Nat.shiftLeft_eq,
    one_mul, Nat.testBit_two_pow]

private theorem byte_clear_testBit (x : UInt8) (hk : k < 8) (hj : j < 8) :
    (UInt8.ofNat (x.toNat &&& (255 ^^^ (1 <<< k)))).toNat.testBit j =
      (x.toNat.testBit j && !decide (k = j)) := by
  have hx : x.toNat &&& (255 ^^^ (1 <<< k)) < 2 ^ 8 := Nat.and_lt_two_pow _ (by
    refine Nat.xor_lt_two_pow (by decide) ?_
    rw [Nat.shiftLeft_eq, one_mul]
    exact Nat.pow_lt_pow_right (by decide) hk)
  rw [UInt8.toNat_ofNat_of_lt' hx, Nat.testBit_and, Nat.testBit_xor, Nat.shiftLeft_eq,
    one_mul, Nat.testBit_two_pow, show (255 : Nat) = 2 ^ 8 - 1 from rfl,
    Nat.testBit_two_pow_sub_one]
  simp [hj]

/-- A change of one byte changes only its bits. -/
private theorem bitOf_update {c : UInt8} (hi : i < BPB) :
    bitOf (Block.ofBytes (update b.bytes (k / 8) c)) i =
      if i / 8 = k / 8 then c.toNat.testBit (i % 8) else bitOf b i := by
  have hlt : i / 8 < BSIZE := by
    simp only [BPB, BSIZE] at *
    omega
  rw [bitOf_eq, Block.bytes_ofBytes hlt]
  by_cases h : i / 8 = k / 8
  · rw [if_pos h, h, update_self]
  · rw [if_neg h, update_of_ne h, bitOf_eq]

theorem bitOf_setBit (hi : i < BPB) : bitOf (setBit b k) i = (bitOf b i || decide (i = k)) := by
  rw [setBit, bitOf_update hi]
  by_cases h : i / 8 = k / 8
  · rw [if_pos h, byte_lor_testBit _ (Nat.mod_lt _ (by decide)), bitOf_eq, h]
    congr 1
    rw [decide_eq_decide]
    omega
  · rw [if_neg h]
    have hne : ¬ i = k := fun he => h (by rw [he])
    simp [hne]

theorem bitOf_clearBit (hi : i < BPB) :
    bitOf (clearBit b k) i = (bitOf b i && !decide (i = k)) := by
  rw [clearBit, bitOf_update hi]
  by_cases h : i / 8 = k / 8
  · rw [if_pos h, byte_clear_testBit _ (Nat.mod_lt _ (by decide)) (Nat.mod_lt _ (by decide)),
      bitOf_eq, h]
    congr 2
    rw [decide_eq_decide]
    omega
  · rw [if_neg h]
    have hne : ¬ i = k := fun he => h (by rw [he])
    simp [hne]

/-! ## Names -/

/-- Two names are equal for `namecmp` if they are the same string. -/
theorem strncmp_eq_zero_iff (p q : Bytes) (n i : Nat) : strncmp p q n i = 0 ↔
    ((range n).map fun j => p (i + j)).takeWhile (· ≠ 0) =
      ((range n).map fun j => q (i + j)).takeWhile (· ≠ 0) := by
  induction n generalizing i with
  | zero => simp [strncmp]
  | succ n ih =>
    have hshift : ∀ f : Bytes, ((range (n + 1)).map fun j => f (i + j)) =
        f i :: (range n).map fun j => f (i + 1 + j) := by
      intro f
      rw [range_succ_eq_map, map_cons, map_map, add_zero]
      congr 1
      refine map_congr_left fun j _ => ?_
      simp only [comp]
      congr 1
      omega
    rw [strncmp, hshift p, hshift q]
    by_cases hp : p i = 0
    · rw [if_neg fun h => h.1 hp, hp, takeWhile_cons_of_neg (by simp)]
      by_cases hq : q i = 0
      · rw [hq, takeWhile_cons_of_neg (by simp)]
        simp
      · rw [takeWhile_cons_of_pos (by simpa using hq)]
        refine iff_of_false (fun h => hq ?_) (by simp)
        have hn : (q i).toNat = 0 := by
          simp only [UInt8.toNat_zero] at h
          omega
        exact UInt8.toNat_inj.mp hn
    · rw [takeWhile_cons_of_pos (by simpa using hp)]
      by_cases hpq : p i = q i
      · rw [if_pos ⟨hp, hpq⟩, ih, ← hpq, takeWhile_cons_of_pos (by simpa using hp),
          cons.injEq, and_iff_right rfl]
      · rw [if_neg fun h => hpq h.2]
        refine iff_of_false (fun h => hpq (UInt8.toNat_inj.mp (by omega))) fun h => ?_
        by_cases hq : q i = 0
        · rw [hq, takeWhile_cons_of_neg (by simp)] at h
          cases h
        · rw [takeWhile_cons_of_pos (by simpa using hq)] at h
          exact hpq (cons.inj h).1

/-- Up to the end of a string, `strncpy` copies it. -/
theorem strncpy_eq (t : Bytes) (h : i < n) (hpre : ∀ j < i, t j ≠ 0) : strncpy t n i = t i :=
  if_pos ⟨h, hpre⟩

theorem strncpy_beyond (t : Bytes) (h : n ≤ i) : strncpy t n i = 0 :=
  if_neg fun hc => absurd hc.1 (by omega)

theorem strncmp_strncpy (t : Bytes) (n : Nat) : ∀ m i, i + m = n → (∀ j < i, t j ≠ 0) →
    strncmp (strncpy t n) t m i = 0 := by
  intro m
  induction m with
  | zero => exact fun _ _ _ => rfl
  | succ m ih =>
    intro i hi hpre
    have he := strncpy_eq t (n := n) (i := i) (by omega) hpre
    rw [strncmp, he]
    by_cases h0 : t i = 0
    · rw [if_neg fun h => h.1 h0, Int.sub_self]
    · rw [if_pos ⟨h0, rfl⟩]
      refine ih (i + 1) (by omega) fun j hj => ?_
      by_cases hji : j = i
      · rwa [hji]
      · exact hpre j (by omega)

theorem namecmp_eq_zero_iff (s t : Bytes) : namecmp s t = 0 ↔ nameOf s = nameOf t := by
  have h := strncmp_eq_zero_iff s t DIRSIZ 0
  simp only [zero_add] at h
  exact h

/-- `strncpy` keeps the name. -/
theorem nameOf_strncpy (t : Bytes) : nameOf (strncpy t DIRSIZ) = nameOf t :=
  (namecmp_eq_zero_iff _ _).mp
    (strncmp_strncpy t DIRSIZ DIRSIZ 0 (zero_add _) fun j hj => absurd hj (Nat.not_lt_zero j))

/-- The name in a string. -/
theorem nameOf_array {s : List UInt8} (h : 0 ∉ s) : nameOf (array s) = s.take DIRSIZ := by
  have hmap : (range DIRSIZ).map (array s) =
      s.take DIRSIZ ++ replicate (DIRSIZ - s.length) 0 := by
    refine ext_getElem ?_ fun i h1 h2 => ?_
    · simp only [length_map, length_range, length_append, length_take,
        length_replicate]
      omega
    · rw [length_map, length_range] at h1
      rw [getElem_map, getElem_range, array, getD_eq_getElem?_getD]
      by_cases hi : i < s.length
      · rw [getElem_append_left (by rw [length_take]; omega), getElem_take,
          getElem?_eq_getElem hi]
        rfl
      · rw [getElem_append_right (by rw [length_take]; omega), getElem_replicate,
          getElem?_eq_none (by omega)]
        rfl
  rw [nameOf, hmap, takeWhile_append_of_pos]
  · cases DIRSIZ - s.length with
    | zero => simp
    | succ k =>
      rw [replicate_succ, takeWhile_cons_of_neg (by simp), append_nil]
  · intro c hc
    have : c ≠ 0 := fun h0 => h (h0 ▸ mem_of_mem_take hc)
    simpa using this

end Xv6.Fs
