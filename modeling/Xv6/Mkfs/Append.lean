import Mathlib.Data.List.GetD
import Xv6.Mkfs.Code

/-!
# What `iappend` does to an image

`Files img fb D c len` says that the inodes `D` have the contents `c` in the image `img`, in blocks
of their own below the next free block `fb`, with the blocks of the first `len i` bytes in place.
Appending allocates the blocks it comes to and writes into them; each of the two is a lemma about
`Files`, and the loop of `iappend` alternates them.
-/

namespace Xv6.Mkfs

open Lib Fs Function List

structure Files (img : Disk) (fb : Nat) (D : Nat → Dinode) (c : Nat → List UInt8)
    (len : Nat → Nat) : Prop where
  lo : nmeta ≤ fb
  hi : fb ≤ FSSIZE
  owns : Owns nmeta FSSIZE (refs D img) (· < fb)
  fresh : ∀ b, fb ≤ b → b < FSSIZE → img b = zeroes
  short : ∀ i, (c i).length ≤ len i
  mapped : ∀ i bn, blockOf img (D i) bn ≠ 0 ↔ bn * BSIZE < len i
  byte : ∀ i k, blockOf img (D i) (k / BSIZE) ≠ 0 → contentByte img (D i) k = (c i).getD k 0
  rest : ∀ i k, NDIRECT < k → (D i).addrs k = 0

variable {img m : Disk} {fb i k bn a x off n : Nat} {D : Nat → Dinode} {d e : Dinode}
  {c : Nat → List UInt8} {len : Nat → Nat} {s : Slot} {p : List UInt8}

/-! ## Blocks -/

theorem Files.block_lt (h : Files img fb D c len) (h0 : refs D img (i, s) ≠ 0) :
    nmeta ≤ refs D img (i, s) ∧ refs D img (i, s) < fb := by
  obtain ⟨hlo, hhi⟩ := h.owns.range _ h0
  exact ⟨hlo, (h.owns.used _ hlo hhi).mpr ⟨_, rfl⟩⟩

theorem rest_setAddr (h : ∀ i k, NDIRECT < k → (D i).addrs k = 0) (hk : k ≤ NDIRECT)
    (i' j : Nat) (hj : NDIRECT < j) :
    (update D i ((D i).setAddr k fb) i').addrs j = 0 := by
  by_cases hi : i' = i
  · rw [hi, update_self, setAddr_ne (by omega)]
    exact h i j hj
  · rw [update_of_ne hi]
    exact h i' j hj

/-- The next block becomes the indirect block of a file. -/
theorem Files.give_indirect (h : Files img fb D c len) (h0 : (D i).addrs NDIRECT = 0)
    (hfb : fb < FSSIZE) :
    Files img (fb + 1) (update D i ((D i).setAddr NDIRECT fb)) c len := by
  have hz : ∀ j, (img fb).u32 (4 * j) = 0 := by
    intro j
    rw [h.fresh fb le_rfl hfb]
    exact zeroes_u32
  have hslot := slotOf_setAddr_indirect h0 hz
  have hblock : ∀ i' bn, blockOf img (update D i ((D i).setAddr NDIRECT fb) i') bn =
      blockOf img (D i') bn := by
    intro i' bn
    by_cases hi : i' = i
    · rw [hi, update_self, blockOf, hslot, update_of_ne dataSlot_ne]
      rfl
    · rw [update_of_ne hi]
  have hrefs := refs_update (D := D) (i := i) hslot (fun _ _ _ => rfl) rfl
  have hlo := h.lo
  refine ⟨by omega, hfb, ?_, fun b hb hb' => h.fresh b (by omega) hb', h.short, fun i' bn => ?_,
    fun i' k hk => ?_, rest_setAddr h.rest le_rfl⟩
  · rw [hrefs]
    exact h.owns.give h0 h.lo hfb (lt_irrefl _) fun b _ _ => by omega
  · rw [hblock]
    exact h.mapped i' bn
  · rw [hblock] at hk
    rw [contentByte, hblock]
    exact h.byte i' k hk

/-- The next block becomes the next block of the bytes of a file. -/
theorem Files.give (h : Files img fb D c len) (hfb : fb < FSSIZE) (hlen : len i = bn * BSIZE)
    (hslot : slotOf m e = update (slotOf img (D i)) (dataSlot bn) fb)
    (hother : ∀ i', i' ≠ i → ∀ s, slotOf m (D i') s = slotOf img (D i') s)
    (hfresh : ∀ b, fb ≤ b → b < FSSIZE → m b = img b)
    (hdata : ∀ i' bn', blockOf img (D i') bn' ≠ 0 →
      m (blockOf img (D i') bn') = img (blockOf img (D i') bn'))
    (hrest : ∀ i' k, NDIRECT < k → (update D i e i').addrs k = 0) :
    Files m (fb + 1) (update D i e) c (update len i (bn * BSIZE + 1)) := by
  have h0 : blockOf img (D i) bn = 0 := by
    by_contra hc
    have := (h.mapped i bn).mp hc
    omega
  have hself : ∀ bn', blockOf m e bn' = if bn' = bn then fb else blockOf img (D i) bn' := by
    intro bn'
    rw [blockOf, hslot]
    by_cases hb : bn' = bn
    · rw [if_pos hb, hb, update_self]
    · rw [if_neg hb, update_of_ne fun he => hb (dataSlot_inj he)]
      rfl
  have hlo := h.lo
  have hpos : fb ≠ 0 := by
    simp only [nmeta] at hlo
    omega
  refine ⟨by omega, hfb, ?_, fun b hb hb' => ?_, fun i' => ?_, fun i' bn' => ?_, fun i' k hk => ?_,
    hrest⟩
  · rw [refs_update hslot hother rfl]
    exact h.owns.give h0 h.lo hfb (lt_irrefl _) fun b _ _ => by omega
  · rw [hfresh b (by omega) hb', h.fresh b (by omega) hb']
  · have := h.short i'
    by_cases hi : i' = i
    · rw [hi, update_self]
      rw [hi] at this
      omega
    · rwa [update_of_ne hi]
  · by_cases hi : i' = i
    · rw [hi, update_self, update_self, hself]
      by_cases hb : bn' = bn
      · rw [if_pos hb, hb]
        exact iff_of_true hpos (by omega)
      · rw [if_neg hb, h.mapped i bn', hlen]
        simp only [BSIZE]
        omega
    · rw [update_of_ne hi, update_of_ne hi, blockOf, hother i' hi]
      exact h.mapped i' bn'
  · by_cases hi : i' = i
    · subst hi
      simp only [update_self, contentByte, hself] at hk ⊢
      have hle := h.short i'
      by_cases hb : k / BSIZE = bn
      · rw [if_pos hb, hfresh fb le_rfl hfb, h.fresh fb le_rfl hfb, zeroes_bytes,
          getD_eq_default]
        simp only [BSIZE] at *
        omega
      · rw [if_neg hb] at hk ⊢
        rw [hdata i' _ hk]
        exact h.byte i' k hk
    · have hblock : ∀ bn', blockOf m (D i') bn' = blockOf img (D i') bn' :=
        fun bn' => hother i' hi _
      simp only [update_of_ne hi, contentByte, hblock] at hk ⊢
      rw [hdata i' _ hk]
      exact h.byte i' k hk

theorem Files.give_direct (h : Files img fb D c len) (hfb : fb < FSSIZE)
    (hlen : len i = bn * BSIZE) (hbn : bn < NDIRECT) :
    Files img (fb + 1) (update D i ((D i).setAddr bn fb)) c
      (update len i (bn * BSIZE + 1)) := by
  refine h.give hfb hlen ?_ (fun _ _ _ => rfl) (fun _ _ _ => rfl) (fun _ _ _ => rfl)
    (rest_setAddr h.rest hbn.le)
  rw [slotOf_setAddr hbn.ne, dataSlot, if_pos hbn]

theorem Files.give_entry (h : Files img fb D c len) (hfb : fb < FSSIZE)
    (hlen : len i = bn * BSIZE) (hbn : NDIRECT ≤ bn) (hmax : bn < MAXFILE)
    (h0 : (D i).addrs NDIRECT ≠ 0) :
    Files (update img ((D i).addrs NDIRECT)
        ((img ((D i).addrs NDIRECT)).setU32 (4 * (bn - NDIRECT)) fb)) (fb + 1) D c
      (update len i (bn * BSIZE + 1)) := by
  obtain ⟨-, hlt⟩ := h.block_lt (i := i) (s := .direct NDIRECT) h0
  have hslot : slotOf (update img ((D i).addrs NDIRECT)
        ((img ((D i).addrs NDIRECT)).setU32 (4 * (bn - NDIRECT)) fb)) (D i) =
      update (slotOf img (D i)) (.indirect (bn - NDIRECT)) fb :=
    slotOf_setEntry h0 (by simp only [MAXFILE] at hmax; omega)
      (by simp only [FSSIZE] at hfb; omega)
  -- the indirect block is no other block of a file
  have hne : ∀ i' s, refs D img (i', s) ≠ 0 → (i', s) ≠ (i, .direct NDIRECT) →
      refs D img (i', s) ≠ (D i).addrs NDIRECT :=
    fun i' s hs hx he => hx (h.owns.inj _ _ he hs)
  have := h.give (i := i) (e := D i) hfb hlen
    (m := update img ((D i).addrs NDIRECT)
      ((img ((D i).addrs NDIRECT)).setU32 (4 * (bn - NDIRECT)) fb))
    (by rw [hslot, dataSlot, if_neg (by omega)])
    (fun i' hi s => slotOf_update fun hs => hne i' (.direct NDIRECT) hs
      fun he => hi (congrArg Prod.fst he))
    (fun b hb _ => update_of_ne (by
      have hlt' : (D i).addrs NDIRECT < fb := hlt
      omega) ..)
    (fun i' bn' hb => update_of_ne (hne i' (dataSlot bn') hb
      fun he => dataSlot_ne (congrArg Prod.snd he)) ..)
    (by rw [update_eq_self]; exact h.rest)
  rwa [update_eq_self] at this

/-! ## Bytes -/

/-- The bytes of `p` that go into the current block. -/
theorem getD_append_take (l p : List UInt8) (n k : Nat) :
    (l ++ p.take n).getD k 0 =
      if k < l.length then l.getD k 0 else if k < l.length + n then p.getD (k - l.length) 0 else 0 := by
  simp only [getD_eq_getElem?_getD]
  by_cases h1 : k < l.length
  · rw [if_pos h1, getElem?_append_left h1]
  · rw [if_neg h1, getElem?_append_right (by omega), getElem?_take]
    by_cases h2 : k < l.length + n
    · rw [if_pos h2, if_pos (by omega)]
    · rw [if_neg h2, if_neg (by omega)]
      rfl

/-- Bytes are appended in a block that is in place. -/
theorem Files.write (h : Files img fb D c len) (hc : (c i).length = off) (hlen : len i = off + 1)
    (hn : 0 < n) (hp : n ≤ p.length) (hend : off % BSIZE + n ≤ BSIZE)
    (hx : x = blockOf img (D i) (off / BSIZE)) :
    Files (update img x (patch (img x) (off % BSIZE) (array p) n)) fb D
      (update c i (c i ++ p.take n)) (update len i (off + n)) := by
  have h0 : blockOf img (D i) (off / BSIZE) ≠ 0 := by
    rw [h.mapped, hlen]
    simp only [BSIZE]
    omega
  have hlt : blockOf img (D i) (off / BSIZE) < fb := (h.block_lt h0).2
  rw [← hx] at h0 hlt
  generalize hb : patch (img x) (off % BSIZE) (array p) n = blk
  have hslot : ∀ i' s, slotOf (update img x blk) (D i') s = slotOf img (D i') s :=
    fun i' s => slotOf_update fun _ => not_indirect h.owns hx.symm h0 i'
  have hblock : ∀ i' bn, blockOf (update img x blk) (D i') bn = blockOf img (D i') bn :=
    fun i' bn => hslot i' _
  have hother : ∀ i' k, blockOf img (D i') (k / BSIZE) ≠ 0 → (i', k / BSIZE) ≠ (i, off / BSIZE) →
      contentByte (update img x blk) (D i') k = (c i').getD k 0 := by
    intro i' k hk hne
    rw [contentByte, hblock, update_of_ne]
    · exact h.byte i' k hk
    · intro he
      have hsame := h.owns.inj (i', dataSlot (k / BSIZE)) (i, dataSlot (off / BSIZE))
        (he.trans hx) hk
      obtain ⟨hi, hs⟩ := Prod.mk.inj hsame
      exact hne (by rw [hi, dataSlot_inj hs])
  refine ⟨h.lo, h.hi, h.owns.congr fun y => hslot _ _, fun b hb' hb'' => ?_, fun i' => ?_,
    fun i' bn => ?_, fun i' k hk => ?_, h.rest⟩
  · rw [update_of_ne (by omega), h.fresh b hb' hb'']
  · by_cases hi : i' = i
    · rw [hi, update_self, update_self, length_append, length_take, hc]
      omega
    · rw [update_of_ne hi, update_of_ne hi]
      exact h.short i'
  · rw [hblock, h.mapped i' bn]
    by_cases hi : i' = i
    · rw [hi, update_self, hlen]
      simp only [BSIZE] at *
      omega
    · rw [update_of_ne hi]
  · rw [hblock] at hk
    by_cases hi : i' = i
    · subst hi
      have hm := (h.mapped i' (k / BSIZE)).mp hk
      rw [update_self, getD_append_take, hc]
      by_cases hkb : k / BSIZE = off / BSIZE
      · have hold := h.byte i' k hk
        rw [contentByte] at hold ⊢
        rw [hblock, hkb, ← hx, update_self, ← hb]
        rw [hkb, ← hx] at hold
        by_cases h1 : k < off
        · rw [if_pos h1, patch_outside (by simp only [BSIZE] at *; omega), hold]
        · rw [if_neg h1]
          by_cases h2 : k < off + n
          · rw [if_pos h2, show k % BSIZE = off % BSIZE + (k - off) by simp only [BSIZE] at *; omega,
              patch_inside hend (by omega)]
            rfl
          · rw [if_neg h2, patch_outside (by simp only [BSIZE] at *; omega), hold,
              getD_eq_default _ _ (by omega)]
      · rw [hother i' k hk fun he => hkb (congrArg Prod.snd he),
          if_pos (by simp only [BSIZE] at *; omega)]
    · rw [update_of_ne hi]
      exact hother i' k hk fun he => hi (congrArg Prod.fst he)

/-! ## The code -/

section

variable {σ τ : Mk} {E : Option String → Prop} {ok : Prop} {inum fbn : Nat}

/-- Everything but the blocks from `nmeta` on and the counter of blocks is as it was. -/
structure Kept (σ τ : Mk) : Prop where
  nsect : τ.nsect = σ.nsect
  freeinode : τ.freeinode = σ.freeinode
  img : ∀ b < nmeta, τ.img b = σ.img b

theorem Kept.refl (σ : Mk) : Kept σ σ := ⟨rfl, rfl, fun _ _ => rfl⟩

theorem xint_eq (h : n < FSSIZE) : xint n = n :=
  Nat.mod_eq_of_lt (h.trans (by decide))

theorem rsect_runs {Q : Block → Mk → Prop} (hE : ¬ x < σ.nsect → E (some "read"))
    (h : x < σ.nsect → Q (σ.img x) σ) : (rsect x).Runs σ E Q := by
  by_cases hx : x < σ.nsect
  · exact Prog.Runs.atomic (if_pos hx) (h hx)
  · have hf : (if x < σ.nsect then Outcome.ok (σ.img x) σ else .panic "read") = .panic "read" :=
      if_neg hx
    unfold Prog.Runs rsect Prog.atomic
    rw [Prog.run_step, hf]
    exact hE hx

theorem write_self {buf : Block} : (σ.write x buf).img x = buf := update_self ..

theorem write_ne {buf : Block} (h : a ≠ x) : (σ.write x buf).img a = σ.img a :=
  update_of_ne h ..

theorem wsect_runs {buf : Block} {Q : Unit → Mk → Prop} (h : Q () (σ.write x buf)) :
    (wsect x buf).Runs σ E Q := .modify h

theorem iblockAt_new {Q : Dinode → Mk → Prop} (h0 : d.addrs k = 0)
    (h : Q (d.setAddr k (xint σ.freeblock)) { σ with freeblock := σ.freeblock + 1 }) :
    (iblockAt d k).Runs σ E Q := by
  rw [iblockAt, h0, if_pos (by rfl)]
  exact .seq (.atomic rfl (.ret h))

theorem iblockAt_old {Q : Dinode → Mk → Prop} (h0 : d.addrs k ≠ 0) (hlt : d.addrs k < FSSIZE)
    (h : Q d σ) : (iblockAt d k).Runs σ E Q := by
  rw [iblockAt, xint_eq hlt, if_neg h0]
  exact .ret h

theorem nextBlock_runs {Q : Nat → Mk → Prop}
    (h : Q σ.freeblock { σ with freeblock := σ.freeblock + 1 }) : nextBlock.Runs σ E Q :=
  .atomic rfl h

/-- What is known when the block of the next byte is in place. -/
structure Placed (σ τ : Mk) (D : Nat → Dinode) (c : Nat → List UInt8) (len : Nat → Nat)
    (inum off : Nat) (r : Dinode × Nat) : Prop where
  kept : Kept σ τ
  files : Files τ.img τ.freeblock (update D inum r.1) c
    (update len inum (off + 1))
  block : r.2 = blockOf τ.img r.1 (off / BSIZE)
  node : r.1 = { D inum with addrs := r.1.addrs }
  room : τ.freeblock ≤ σ.freeblock + if off % BSIZE = 0 then 2 else 0

/-- A block that is there already. -/
theorem Placed.there (h : Files σ.img σ.freeblock D c len) (hlen : len inum = off)
    (h0 : blockOf σ.img (D inum) (off / BSIZE) ≠ 0) :
    Files σ.img σ.freeblock D c (update len inum (off + 1)) := by
  have hoff := (h.mapped inum (off / BSIZE)).mp h0
  rw [hlen] at hoff
  refine ⟨h.lo, h.hi, h.owns, h.fresh, fun i => ?_, fun i bn => ?_, h.byte, h.rest⟩
  · have := h.short i
    by_cases hi : i = inum
    · rw [hi, update_self]
      rw [hi, hlen] at this
      omega
    · rwa [update_of_ne hi]
  · rw [h.mapped i bn]
    by_cases hi : i = inum
    · rw [hi, update_self, hlen]
      simp only [BSIZE] at *
      omega
    · rw [update_of_ne hi]

/-- There is no next block. -/
def Full (σ τ : Mk) (off x : Nat) : Prop :=
  τ.nsect = σ.nsect ∧ x = FSSIZE ∧ off % BSIZE = 0 ∧ FSSIZE < σ.freeblock + 2

theorem Files.block_zero (h : Files img fb D c len) (hlen : len i = off)
    (h0 : blockOf img (D i) (off / BSIZE) = 0) : off / BSIZE * BSIZE = off := by
  by_contra hc
  refine (h.mapped i (off / BSIZE)).mpr ?_ h0
  rw [hlen]
  simp only [BSIZE] at *
  omega

/-- The block for the next byte, among the direct blocks. -/
theorem iaddr_direct (h : Files σ.img σ.freeblock D c len) (hlen : len inum = off)
    (hd : off / BSIZE < NDIRECT) :
    (iaddr (D inum) (off / BSIZE)).Runs σ E fun r τ =>
      Placed σ τ D c len inum off r ∨ Full σ τ off r.2 := by
  have hb : ∀ d : Dinode, blockOf σ.img d (off / BSIZE) = d.addrs (off / BSIZE) := by
    intro d
    rw [blockOf, dataSlot, if_pos hd]
    rfl
  have hlo := h.lo
  have hhi := h.hi
  rw [iaddr, if_pos hd]
  by_cases h0 : (D inum).addrs (off / BSIZE) = 0
  · have hoff := h.block_zero hlen ((hb _).trans h0)
    have hmod : off % BSIZE = 0 := by
      simp only [BSIZE] at *
      omega
    refine .seq (iblockAt_new h0 (.ret ?_))
    simp only [setAddr_self]
    by_cases hfb : σ.freeblock < FSSIZE
    · rw [xint_eq hfb, xint_eq hfb]
      refine .inl ⟨⟨rfl, rfl, fun _ _ => rfl⟩, ?_, (hb _).symm ▸ setAddr_self.symm, rfl, ?_⟩
      · have := h.give_direct hfb (hlen.trans hoff.symm) hd
        rwa [hoff] at this
      · rw [if_pos hmod]
        simp only
        omega
    · refine .inr ⟨rfl, ?_, hmod, by omega⟩
      rw [show σ.freeblock = FSSIZE by omega]
      rfl
  · have hlt : (D inum).addrs (off / BSIZE) < FSSIZE :=
      (h.owns.range (inum, .direct (off / BSIZE)) h0).2
    refine .seq (iblockAt_old h0 hlt ?_)
    refine .ret (.inl ⟨Kept.refl σ, ?_, ?_, rfl, Nat.le_add_right ..⟩)
    · rw [update_eq_self]
      exact Placed.there h hlen (by rwa [hb])
    · simp only [hb, xint_eq hlt]

/-- The block for the next byte, at an entry of the indirect block. -/
theorem ientry_runs (h : Files σ.img σ.freeblock D c len) (hn : σ.nsect = FSSIZE)
    (hlen : len inum = off) (hd : NDIRECT ≤ off / BSIZE) (hmax : off / BSIZE < MAXFILE)
    (ha : (D inum).addrs NDIRECT ≠ 0) :
    (ientry (D inum) (off / BSIZE - NDIRECT)).Runs σ E fun x τ =>
      (Kept σ τ ∧ Files τ.img τ.freeblock D c (update len inum (off + 1)) ∧
        x = blockOf τ.img (D inum) (off / BSIZE) ∧
        τ.freeblock ≤ σ.freeblock + if off % BSIZE = 0 then 1 else 0) ∨
      (τ.nsect = σ.nsect ∧ x = FSSIZE ∧ off % BSIZE = 0 ∧ FSSIZE < σ.freeblock + 1) := by
  obtain ⟨hlo, hlt⟩ := h.block_lt (i := inum) (s := .direct NDIRECT) ha
  have hhi := h.hi
  have hlt' : (D inum).addrs NDIRECT < FSSIZE := hlt.trans_le hhi
  have hb : ∀ img : Disk, blockOf img (D inum) (off / BSIZE) =
      (img ((D inum).addrs NDIRECT)).u32 (4 * (off / BSIZE - NDIRECT)) := by
    intro img
    rw [blockOf, dataSlot, if_neg (by omega), slotOf, if_neg ha]
  rw [ientry, xint_eq hlt']
  refine .seq (rsect_runs (fun hc => absurd (hn ▸ hlt') hc) fun _ => ?_)
  rw [← hb]
  by_cases h0 : blockOf σ.img (D inum) (off / BSIZE) = 0
  · have hoff := h.block_zero hlen h0
    have hmod : off % BSIZE = 0 := by
      simp only [BSIZE] at *
      omega
    rw [if_pos h0]
    refine .seq (nextBlock_runs (.seq (wsect_runs (.ret ?_))))
    by_cases hfb : σ.freeblock < FSSIZE
    · rw [xint_eq hfb]
      have hfiles := h.give_entry hfb (hlen.trans hoff.symm) hd hmax ha
      rw [hoff] at hfiles
      refine .inl ⟨⟨?_, rfl, fun b hb' => update_of_ne ?_ ..⟩, hfiles, ?_, ?_⟩
      · show max σ.nsect ((D inum).addrs NDIRECT + 1) = σ.nsect
        omega
      · have : nmeta ≤ (D inum).addrs NDIRECT := hlo
        omega
      · rw [hb]
        simp only [Mk.write, update_self]
        rw [Block.u32_setU32_self]
        · simp only [BSIZE, NDIRECT, MAXFILE, NINDIRECT] at *
          omega
        · simp only [FSSIZE] at hfb
          omega
      · rw [if_pos hmod]
        exact le_rfl
    · refine .inr ⟨?_, ?_, hmod, by omega⟩
      · show max σ.nsect ((D inum).addrs NDIRECT + 1) = σ.nsect
        omega
      · rw [show σ.freeblock = FSSIZE by omega]
        rfl
  · have hlt2 : blockOf σ.img (D inum) (off / BSIZE) < FSSIZE :=
      (h.owns.range (inum, dataSlot (off / BSIZE)) h0).2
    rw [if_neg h0]
    exact .ret
      (.inl ⟨Kept.refl σ, Placed.there h hlen h0, xint_eq hlt2, Nat.le_add_right ..⟩)

/-- `iaddr` finds or makes the block of the next byte, unless there is no room. -/
theorem iaddr_runs (h : Files σ.img σ.freeblock D c len) (hn : σ.nsect = FSSIZE)
    (hlen : len inum = off) (hmax : off / BSIZE < MAXFILE)
    (hE : off % BSIZE = 0 → FSSIZE < σ.freeblock + 2 → E (some "read")) :
    (iaddr (D inum) (off / BSIZE)).Runs σ E fun r τ =>
      Placed σ τ D c len inum off r ∨ Full σ τ off r.2 := by
  by_cases hd : off / BSIZE < NDIRECT
  · exact iaddr_direct h hlen hd
  have hlo := h.lo
  have hhi := h.hi
  rw [iaddr, if_neg hd]
  by_cases h0 : (D inum).addrs NDIRECT = 0
  · -- without an indirect block there is no block yet
    have hb : blockOf σ.img (D inum) (off / BSIZE) = 0 := by
      rw [blockOf, dataSlot, if_neg hd, slotOf, if_pos h0]
    have hoff := h.block_zero hlen hb
    have hmod : off % BSIZE = 0 := by
      simp only [BSIZE] at *
      omega
    refine .seq (iblockAt_new h0 ?_)
    by_cases hfb : σ.freeblock < FSSIZE
    · rw [xint_eq hfb]
      have hfiles := h.give_indirect h0 hfb
      have hself : update D inum ((D inum).setAddr NDIRECT σ.freeblock) inum =
        (D inum).setAddr NDIRECT σ.freeblock := update_self ..
      have hrun := ientry_runs (σ := { σ with freeblock := σ.freeblock + 1 }) (E := E) hfiles hn hlen
        (by omega) hmax (by
          rw [hself, setAddr_self]
          simp only [nmeta] at hlo
          omega)
      rw [hself] at hrun
      refine .bind hrun fun x τ hx => .ret ?_
      rw [if_pos hmod] at hx
      rcases hx with ⟨hk, hf, hx, hr⟩ | ⟨hk, hx, -, hr⟩
      · refine .inl ⟨⟨hk.nsect, hk.freeinode, hk.img⟩, hf, hx, rfl, ?_⟩
        rw [if_pos hmod]
        exact hr
      · exact .inr ⟨hk, hx, hmod, hr⟩
    · have hfull : σ.freeblock = FSSIZE := by omega
      rw [ientry, setAddr_self, hfull]
      refine (Prog.Runs.stop (rsect_runs (fun _ => hE hmod (by omega)) fun hc => ?_)).stop
      have hc' : FSSIZE < σ.nsect := hc
      omega
  · have hlt : (D inum).addrs NDIRECT < FSSIZE := (h.owns.range (inum, .direct NDIRECT) h0).2
    refine .seq (iblockAt_old h0 hlt ?_)
    refine .bind (ientry_runs (E := E) h hn hlen (by omega) hmax h0) fun x τ hx =>
      Prog.Runs.ret ?_
    rcases hx with ⟨hk, hf, hx, hr⟩ | ⟨hk, hx, hm, hr⟩
    · refine .inl ⟨hk, ?_, hx, rfl, ?_⟩
      · rwa [update_eq_self]
      · by_cases hm : off % BSIZE = 0
        · rw [if_pos hm] at hr ⊢
          omega
        · rwa [if_neg hm] at hr ⊢
    · exact .inr ⟨hk, hx, hm, by omega⟩

/-- The number of blocks of `l` bytes. -/
def nblk (l : Nat) : Nat := (l + (BSIZE - 1)) / BSIZE

theorem nblk_mono {l l' : Nat} (h : l ≤ l') : nblk l ≤ nblk l' :=
  Nat.div_le_div_right (Nat.add_le_add_right h _)

/-- A round of the loop needs a new block if it starts at the end of one. -/
theorem nblk_round (hn : 0 < n) (hend : off % BSIZE + n ≤ BSIZE) :
    2 * nblk (off + n) = 2 * nblk off + if off % BSIZE = 0 then 2 else 0 := by
  split
  · simp only [nblk, BSIZE] at *
    omega
  · simp only [nblk, BSIZE] at *
    omega

/-- What is known after bytes were appended. -/
structure Appended (σ τ : Mk) (D : Nat → Dinode) (c : Nat → List UInt8) (inum : Nat)
    (p : List UInt8) (r : Dinode × Nat) : Prop where
  kept : Kept σ τ
  files : Files τ.img τ.freeblock (update D inum r.1)
    (update c inum (c inum ++ p))
    fun i => (update c inum (c inum ++ p) i).length
  node : r.1 = { D inum with addrs := r.1.addrs }
  off : r.2 = (c inum).length + p.length
  room : τ.freeblock ≤ σ.freeblock +
    2 * (nblk ((c inum).length + p.length) - nblk (c inum).length)

/-- There is room for the blocks of `n` more bytes. -/
def Fits (fb off n : Nat) : Prop :=
  fb + 2 * (nblk (off + n) - nblk off) ≤ FSSIZE ∧ off + n ≤ MAXFILE * BSIZE

theorem iappendLoop_runs {ok : Prop} (hE : ∀ m, ¬ ok → E m) (m : Nat) :
    ∀ {σ : Mk} {D : Nat → Dinode} {c : Nat → List UInt8} {p : List UInt8},
      Files σ.img σ.freeblock D c (fun i => (c i).length) → σ.nsect = FSSIZE → p.length ≤ m →
      (ok → Fits σ.freeblock (c inum).length p.length) →
      (iappendLoop m (D inum) (c inum).length p).Runs σ E fun r τ =>
        Appended σ τ D c inum p r := by
  induction m with
  | zero =>
    intro σ D c p h hn hp _
    obtain rfl : p = [] := eq_nil_of_length_eq_zero (by omega)
    refine .ret ⟨Kept.refl σ, ?_, rfl, rfl, Nat.le_add_right ..⟩
    rwa [append_nil, update_eq_self, update_eq_self]
  | succ m ih =>
    intro σ D c p h hn hp hfit
    rw [iappendLoop]
    by_cases hnil : p = []
    · rw [if_pos hnil, hnil]
      refine .ret ⟨Kept.refl σ, ?_, rfl, rfl, Nat.le_add_right ..⟩
      rwa [append_nil, update_eq_self, update_eq_self]
    rw [if_neg hnil]
    have hpos : 0 < p.length := length_pos_iff.mpr hnil
    dsimp only
    by_cases hmax : (c inum).length / BSIZE < MAXFILE
    swap
    · rw [if_neg hmax]
      refine .panic (hE _ fun hok => ?_)
      have := (hfit hok).2
      simp only [MAXFILE, BSIZE, NDIRECT, NINDIRECT] at *
      omega
    rw [if_pos hmax]
    generalize hoff : (c inum).length = off at *
    refine .bind (iaddr_runs (E := E) h hn hoff hmax fun hm hfb => ?_) fun r τ hr => ?_
    · refine hE _ fun hok => ?_
      have := (hfit hok).1
      simp only [nblk, BSIZE] at *
      omega
    generalize hn1 : min p.length ((off / BSIZE + 1) * BSIZE - off) = n1
    have hn1p : 0 < n1 := by
      simp only [BSIZE] at *
      omega
    have hn1e : off % BSIZE + n1 ≤ BSIZE := by
      simp only [BSIZE] at *
      omega
    have hshift : off - off / BSIZE * BSIZE = off % BSIZE := by
      simp only [BSIZE]
      omega
    rcases hr with hr | ⟨hk, hx, hm, hfb⟩
    swap
    · -- the block would be the first one after the end of the image
      refine Prog.Runs.stop (rsect_runs (fun _ => hE _ fun hok => ?_) fun hc => ?_)
      · have := (hfit hok).1
        simp only [nblk, BSIZE] at *
        omega
      · rw [hk, hn, hx] at hc
        exact lt_irrefl _ hc
    obtain ⟨hkept, hfiles, hblock, hnode, hroom⟩ := hr
    have hself : update D inum r.1 inum = r.1 := update_self ..
    have hx0 : r.2 ≠ 0 := by
      have := (hfiles.mapped inum (off / BSIZE)).mpr (by
        rw [update_self]
        simp only [BSIZE]
        omega)
      rwa [hself, ← hblock] at this
    obtain ⟨hxlo, hxlt⟩ : nmeta ≤ r.2 ∧ r.2 < FSSIZE := by
      have := hfiles.owns.range (inum, dataSlot (off / BSIZE))
      rw [refs] at this
      simp only [hself] at this
      rw [hblock] at hx0 ⊢
      exact this hx0
    refine .seq (rsect_runs (fun hc => absurd (by rw [hkept.nsect, hn]; exact hxlt) hc) fun _ => ?_)
    refine .seq (wsect_runs ?_)
    rw [hshift]
    -- one round of the loop
    have hw := hfiles.write (i := inum) (p := p) (x := r.2) hoff (update_self ..) hn1p
      (by omega) hn1e (by rw [hself]; exact hblock)
    rw [update_idem] at hw
    have hlen : (fun i => (update c inum (c inum ++ p.take n1) i).length) =
        update (fun i => (c i).length) inum (off + n1) := by
      funext i
      by_cases hi : i = inum
      · rw [hi, update_self, update_self, length_append, length_take,
          hoff]
        omega
      · rw [update_of_ne hi, update_of_ne hi]
    rw [← hlen] at hw
    have hlen1 : (update c inum (c inum ++ p.take n1) inum).length = off + n1 := by
      rw [congrFun hlen inum, update_self]
    have hsum : off + n1 + (p.length - n1) = off + p.length := by omega
    have hround := nblk_round hn1p hn1e
    have hmono : nblk (off + n1) ≤ nblk (off + p.length) := nblk_mono (by omega)
    have hnext := ih (σ := τ.write r.2 (patch (τ.img r.2) (off % BSIZE) (array p) n1))
      (D := update D inum r.1) (c := update c inum (c inum ++ p.take n1))
      (p := p.drop n1) hw (by simp only [Mk.write, hkept.nsect, hn]; omega)
      (by rw [length_drop]; omega)
      (fun hok => by
        obtain ⟨h1, h2⟩ := hfit hok
        rw [hlen1, length_drop, Fits, hsum]
        simp only [Mk.write]
        omega)
    rw [hlen1, hself] at hnext
    refine hnext.mono fun r' ρ hr' => ?_
    obtain ⟨hk', hf', hnode', hoff', hroom'⟩ := hr'
    rw [hself] at hnode'
    rw [hlen1] at hoff' hroom'
    rw [update_idem, update_self, append_assoc, take_append_drop,
      update_idem] at hf'
    refine ⟨⟨?_, hk'.freeinode.trans hkept.freeinode, fun b hb => ?_⟩, hf', ?_, ?_, ?_⟩
    · rw [hk'.nsect]
      simp only [Mk.write, hkept.nsect, hn]
      omega
    · rw [hk'.img b hb, Mk.write]
      simp only
      rw [update_of_ne (by omega), hkept.img b hb]
    · rw [hnode', hnode]
    · rw [hoff', hoff, length_drop]
      omega
    · rw [hoff]
      rw [length_drop, hsum] at hroom'
      simp only [Mk.write] at hroom'
      omega

end

end Xv6.Mkfs
