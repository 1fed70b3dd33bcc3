import Xv6.Mkfs.Start
import Xv6.Fs.Dirs

/-!
# The root directory that `mkfs` makes

The root directory of an image as a table of names, and a state of the kernel in which the root is
locked and a transaction is going on.
-/

namespace Xv6.Mkfs

open Lib Fs Function

variable {files : List Input} {img : Disk} {fb e : Nat} {D : Nat → Dinode}

/-- The bytes of the root directory. -/
def rootData (img : Disk) : List UInt8 := (Fs.files sb img ROOTINO).data

section

variable (h : Image files img fb D) (hn : files.length + 1 < NINODES) (hp : Partial files)
include h hn

theorem Image.root : Fs.files sb img ROOTINO = ⟨T_DIR, 0, 0, 1, rootData img⟩ := by
  have hlive := h.live_eq hn
  have hnode := h.node ROOTINO
  rw [Fs.files, nodeOf, hlive, hnode]
  rw [rootData, Fs.files, nodeOf, hlive, hnode]
  rfl

theorem Image.root_length : (rootData img).length = rootSize files := by
  rw [rootData, Fs.files, nodeOf, h.live_eq hn, content_length, h.root_size]

theorem Image.root_entry (he : e < rootSize files / 16) :
    entryOf (rootData img) e = direntOf img (D ROOTINO) e := by
  have hdata : rootData img = Fs.content img (D ROOTINO) := by
    rw [rootData, Fs.files, nodeOf, h.live_eq hn]
  rw [hdata]
  refine (direntOf_eq ?_).symm
  rw [h.root_size]
  omega

theorem Image.root_name (he : e < (names files).length) :
    (dir (rootData img)).slot e = some (((names files)[e]).take DIRSIZ, entryInum e) := by
  have hlt : e < rootSize files / 16 := by
    rw [names_length] at he
    exact he.trans_le (rootSize_ge files)
  have hinum : (direntOf img (D ROOTINO) e).inum = entryInum e := by rw [h.entry hn he]
  show Dirent.slot (entryOf (rootData img) e) = _
  rw [h.root_entry hn hlt, Dirent.slot, h.entry_name hn he, hinum, if_neg]
  simp only [entryInum, ROOTINO]
  omega

include hp

theorem Image.root_gap (he : files.length + 2 ≤ e) : (dir (rootData img)).slot e = none := by
  have hzero : (entryOf (rootData img) e).inum = 0 := by
    by_cases hlt : e < rootSize files / 16
    · rw [h.root_entry hn hlt]
      exact h.entry_free he (hp.entry_lt hlt)
    · refine leGet_eq_zero fun j _ hj => ?_
      rw [List.getD_eq_default]
      rw [h.root_length hn, rootSize] at *
      simp only [BSIZE] at *
      omega
  exact if_pos hzero

end

/-! ## A state in which the root is locked -/

/-- Entry 0 of the table is the root, which process 0 has locked in a transaction. -/
def atRoot (img : Disk) : State :=
  { (Sys.start img).fs with
    outstanding := 1
    inode := update (Sys.start img).fs.inode 0
      ⟨ROOTINO, 1, some 0, true, dinodeOf sb img ROOTINO⟩ }

theorem atRoot_self : (atRoot img).inode 0 = ⟨ROOTINO, 1, some 0, true, dinodeOf sb img ROOTINO⟩ := by
  simp only [atRoot, update_self]

theorem atRoot_ne (he : e ≠ 0) : (atRoot img).inode e = Inode.zero := by
  show update _ 0 _ e = _
  rw [update_of_ne he]
  simp only [Sys.start, update_of_ne he]

theorem Image.holds_root (h : Image files img fb D) : Holds sb (atRoot img) 0 ROOTINO := by
  refine ⟨by rw [atRoot_self], by decide, by rw [atRoot_self]; rfl, ?_⟩
  show (dinodeOf sb img ROOTINO).type ≠ 0
  rw [h.dinode ROOTINO (by decide), h.node]
  show kinds files ROOTINO ≠ 0
  rw [kinds_root]
  decide

theorem cat_partial : Partial [catFile] := by
  unfold Partial
  decide

/-- The names in the root directory of an image with one file. -/
theorem cat_names {n : List UInt8} {v : Nat} (h : Image [catFile] img fb D)
    (hs : (dir (rootData img)).slot e = some (n, v)) :
    e = 0 ∧ n = [46] ∨ e = 1 ∧ n = [46, 46] ∨ e = 2 ∧ n = [99, 97, 116] := by
  have hn : [catFile].length + 1 < NINODES := by decide
  by_cases he : e < (Mkfs.names [catFile]).length
  · rw [h.root_name hn he] at hs
    have hname := congrArg Prod.fst (Option.some_inj.mp hs)
    have he' : e < 3 := he
    interval_cases e
    · exact .inl ⟨rfl, hname.symm⟩
    · exact .inr (.inl ⟨rfl, hname.symm⟩)
    · exact .inr (.inr ⟨rfl, hname.symm⟩)
  · have hge : 3 ≤ e := not_lt.mp he
    rw [h.root_gap hn cat_partial hge] at hs
    cases hs

theorem cat_unique (h : Image [catFile] img fb D) : (dir (rootData img)).Unique := by
  intro e _ e' _ k v v' hs hs'
  rcases cat_names h hs with ⟨rfl, rfl⟩ | ⟨rfl, rfl⟩ | ⟨rfl, rfl⟩ <;>
    rcases cat_names h hs' with ⟨rfl, hk⟩ | ⟨rfl, hk⟩ | ⟨rfl, hk⟩ <;>
      first | rfl | exact absurd hk (by decide)

/-- Slot 3 of the root directory is free. -/
theorem cat_gap (h : Image [catFile] img fb D) :
    (dir (rootData img)).gap < (dir (rootData img)).size := by
  have hsize : (dir (rootData img)).size = 64 := by
    show (rootData img).length / 16 = 64
    rw [h.root_length (by decide)]
    rfl
  have hle : (dir (rootData img)).gap ≤ 3 := Nat.le_of_not_lt fun hlt =>
    Slots.slot_before_gap hlt (h.root_gap (by decide) cat_partial (Nat.le_refl 3))
  omega

end Xv6.Mkfs
