import Xv6.Mkfs.Boot
import Xv6.Fs.Content

/-!
# The file system that `mkfs` makes

An image of `mkfs` is a file system that the kernel can work on: every block has one place and no
file has a hole, if the root directory does not end with its last block.
-/

namespace Xv6.Mkfs

open Lib Fs Function

variable {files : List Input} {img : Disk} {fb b i j k : Nat} {D : Nat → Dinode}

theorem sb_ok : sb.Ok where
  inodes i hi := by
    have h : sb.ninodes = NINODES := rfl
    have := (iblock_lt (h ▸ hi)).2
    exact this
  bitmap b hb := by
    have h : sb.size = 2000 := rfl
    have hs : sb.bmapstart = 45 := rfl
    have hd : sb.data = 46 := rfl
    rw [bblock, hs, hd, Nat.div_eq_of_lt (by simp only [BPB, BSIZE]; omega)]
    omega
  data := by decide
  size := by decide

theorem inUse_iff (h : Image files img fb D) (hb : b < sb.size) : InUse sb img b ↔ b < fb := by
  have hs : sb.size = 2000 := rfl
  have hlt : b < BPB := by
    simp only [BPB, BSIZE]
    omega
  rw [InUse, bblock, Nat.div_eq_of_lt hlt, zero_add, Nat.mod_eq_of_lt hlt, h.bitmap b hlt,
    decide_eq_true_eq]

section

variable (h : Image files img fb D) (hn : files.length + 1 < NINODES)
include h hn

theorem Image.live_eq : live sb img = D := by
  funext i
  rw [live]
  by_cases hi : i < sb.ninodes
  · rw [h.dinode i hi]
    by_cases ht : (D i).type = 0
    · rw [if_neg fun hc => hc.2 ht]
      rw [h.node] at ht
      exact (h.free i ht).symm
    · exact if_pos ⟨hi, ht⟩
  · rw [if_neg fun hc => hi hc.1]
    refine (h.free i ?_).symm
    have hN : sb.ninodes = NINODES := rfl
    rw [hN] at hi
    rw [kinds, if_neg, if_neg]
    · omega
    · simp only [ROOTINO, NINODES] at *
      omega

theorem Image.no_holes (hroot : (files.length + 2) % 64 ≠ 0) : Fs.Consistent sb img := by
  have hlive := h.live_eq hn
  have hlo := h.content.lo
  refine ⟨?_, fun i bn hbn => ?_⟩
  · rw [hlive]
    have howns := h.content.owns
    refine ⟨⟨howns.pos, howns.range, howns.inj, fun b hb hb' => ?_⟩, fun b hb => ?_, h.content.rest⟩
    · exact (inUse_iff h hb').trans (howns.used b hb hb')
    · have hd : sb.data = nmeta := rfl
      refine (inUse_iff h (hb.trans (by decide))).mpr ?_
      omega
  · rw [hlive] at hbn ⊢
    refine (h.content.mapped i bn).mpr ?_
    rw [h.node] at hbn
    by_cases hi : i = ROOTINO
    · rw [if_pos hi, rootSize] at hbn
      rw [hi, contents_root_length]
      simp only [BSIZE] at *
      omega
    · rwa [if_neg hi] at hbn

theorem Image.file (hj : j < files.length) :
    Fs.files sb img (j + 2) = ⟨T_FILE, 0, 0, 1, files[j].data⟩ := by
  have hkind : kinds files (j + 2) = T_FILE := by
    rw [kinds, if_neg file_ne_root, if_pos (by omega)]
  have hdata : Fs.content img (D (j + 2)) = files[j].data := by
    rw [Fs.content, h.size_file hj, h.slice_file hj (by omega), List.drop_zero, List.take_length]
  rw [Fs.files, h.live_eq hn, nodeOf, hdata, h.node, hkind]
  rfl

end

/-! ## An image in use -/

/-- The blocks of operations that have used up the log. -/
def taken : List Nat := List.range' 1000 (LOGSIZE - 1)

/-- Entry 1 of the table is inode 2, which process 0 has locked, and a transaction is going on with
    the blocks `logged` in the log. -/
def inUse (img : Disk) (logged : List Nat) : State :=
  { (Sys.start img).fs with
    outstanding := 1, logged
    inode := update (Sys.start img).fs.inode 1 ⟨2, 1, some 0, true, dinodeOf sb img 2⟩ }

theorem exists_cat : ∃ img fb D, Image [catFile] img fb D := by
  have hn : [catFile].length + 1 < NINODES := by decide
  obtain ⟨img, hm⟩ := makes_of_admissible hn ⟨by decide, by decide, by decide⟩
  obtain ⟨fb, D, h⟩ := makes_image hn hm
  exact ⟨img, fb, D, h⟩

variable {logged : List Nat}

theorem holds_cat (h : Image [catFile] img fb D) : Holds sb (inUse img logged) 1 2 := by
  have hd : dinodeOf sb img 2 = D 2 := h.dinode 2 (by decide)
  refine ⟨?_, by decide, ?_, ?_⟩
  · simp only [inUse, update_self]
  · simp only [inUse, update_self]
    rfl
  · show (dinodeOf sb img 2).type ≠ 0
    rw [hd, Image.type_file h (show 0 < [catFile].length by decide)]
    decide

end Xv6.Mkfs
