import Xv6.Fs.Calls
import Xv6.Fs.Read
import Xv6.Mkfs.Consistent

/-!
# The kernel reads what `mkfs` writes

The kernel starts on the image, looks a file up in the root directory and reads from it. The file is
found even if the root directory has a hole, since the hole is behind its entries.
-/

namespace Xv6.Mkfs

open Lib Fs Function

variable {files : List Input} {img : Disk} {fb e i j k off n t : Nat} {D : Nat → Dinode}
  {E : Option String → Prop} {junk : Bytes} {s : State}

/-! ## Starting -/

theorem superblock : Superblock.ofBlock (patch zeroes 0 sb.bytes 32) = sb := rfl

/-- There is nothing to recover. -/
theorem recoverFromLog_runs {Q : Unit → State → Prop} (hlog : s.disk k = zeroes) (h : Q () s) :
    (recoverFromLog k).Runs s E Q := by
  refine .seq (bread_runs ?_)
  rw [hlog, zeroes_u32]
  refine .seq (.ret ?_)
  refine .modify ?_
  have hself : s.setBlock k ((s.disk k).setU32 0 0) = s := by
    have : (s.disk k).setU32 0 0 = s.disk k := by
      rw [hlog]
      refine block_ext fun i hi => ?_
      rw [Block.setU32, Block.bytes_ofBytes hi, lePut, zeroes_bytes]
      split
      · rw [Nat.zero_div]
        rfl
      · rfl
    rw [this, State.setBlock, update_eq_self]
  rwa [hself]

theorem Image.fsinit_runs {Q : Superblock → State → Prop} (h : Image files img fb D)
    (hs : s.disk = img) (hsafe : s.safe = img) (hq : Q sb s) : fsinit.Runs s E Q := by
  refine .seq (bread_runs ?_)
  rw [hs, h.super, superblock, if_neg (not_not.mpr (show sb.magic = FSMAGIC from rfl))]
  refine .seq (recoverFromLog_runs (by rw [hs]; exact h.log) (.seq (.modify (.ret ?_))))
  have hself : { s with safe := s.disk } = s := by
    have h := hsafe.trans hs.symm
    cases s
    cases h
    rfl
  rwa [hself]

/-! ## Looking up -/

theorem file_ne_root : j + 2 ≠ ROOTINO := by simp only [ROOTINO]; omega

theorem contents_file (hj : j < files.length) : contents files (j + 2) = files[j].data := by
  rw [contents, if_neg file_ne_root]
  simp [hj]

section

variable (h : Image files img fb D) (hn : files.length + 1 < NINODES)
include h

theorem Image.type_file (hj : j < files.length) : (D (j + 2)).type = T_FILE := by
  rw [h.node, kinds, if_neg file_ne_root, if_pos ⟨by omega, by omega⟩]

theorem Image.size_file (hj : j < files.length) : (D (j + 2)).size = files[j].data.length := by
  rw [h.node, if_neg file_ne_root, contents_file hj]

/-- The bytes of a file. -/
theorem Image.slice_file (hj : j < files.length) (hk : off + k ≤ files[j].data.length) :
    slice img (D (j + 2)) off k = (files[j].data.drop off).take k := by
  refine List.ext_getElem (by rw [slice_length, List.length_take, List.length_drop]; omega)
    fun m h1 h2 => ?_
  rw [slice_length] at h1
  have hlt : off + m < files[j].data.length := by omega
  have hmap : blockOf img (D (j + 2)) ((off + m) / BSIZE) ≠ 0 := by
    refine (h.content.mapped _ _).mpr ?_
    rw [contents_file hj]
    exact (Nat.div_mul_le_self ..).trans_lt hlt
  rw [List.getElem_take, List.getElem_drop]
  simp only [slice, List.getElem_map, List.getElem_range]
  rw [h.content.byte _ _ hmap, contents_file hj, List.getD_eq_getElem?_getD,
    List.getElem?_eq_getElem hlt]
  rfl

theorem Image.mapped_file (hj : j < files.length) (hk : off + k ≤ files[j].data.length) :
    Mapped img (D (j + 2)) off k := by
  intro m hm
  refine (h.content.mapped _ _).mpr ?_
  rw [contents_file hj]
  exact (Nat.div_mul_le_self ..).trans_lt (by omega)

include hn

/-- The entry of a file is the first with its name. -/
theorem Image.found (hdots : ∀ f ∈ files, f.fsname ≠ [46] ∧ f.fsname ≠ [46, 46])
    (hdist : (files.map fun f => f.fsname.take DIRSIZ).Nodup) (hj : j < files.length) {name : Bytes}
    (hname : nameOf name = files[j].fsname.take DIRSIZ) :
    Found img (D ROOTINO) name (j + 2) := by
  have hlen := names_length files
  have hentry : ∀ e (he : e < (names files).length), Matches img (D ROOTINO) name e ↔
      (names files)[e].take DIRSIZ = files[j].fsname.take DIRSIZ := by
    intro e he
    rw [Matches, namecmp_eq_zero_iff, h.entry_name hn he, hname, h.entry hn he, eq_comm]
    exact and_iff_right (by simp only [entryInum, ROOTINO]; omega)
  have hf := hdots _ (List.getElem_mem hj)
  refine ⟨?_, (hentry _ (by omega)).mpr (by rw [names_file hj]), fun e he hm => ?_, fun e he => ?_⟩
  · have := rootSize_ge files
    rw [h.root_size]
    omega
  · rw [hentry e (by omega)] at hm
    rcases e with _ | _ | i
    · exact hf.1 ((take_eq_short (by decide)).mp hm.symm)
    · exact hf.2 ((take_eq_short (by decide)).mp hm.symm)
    · have hi : i < files.length := by omega
      rw [names_file hi] at hm
      exact List.pairwise_iff_getElem.mp hdist i j (by simpa using hi) (by simpa using hj) (by omega)
        (by simpa using hm)
  · refine (h.content.mapped _ _).mpr ?_
    rw [contents_root_length]
    simp only [BSIZE]
    omega

end

/-! ## Looking up and reading -/

/-- The system starts; then the process `t` looks up a path and reads `n` bytes from `off` on into
    kernel memory. The result is the inode number, what `readi` returned and what it read. -/
def bootRead (t : Nat) (junk : Bytes) (path : List UInt8) (off n : Nat) :
    Prog State (Option (Nat × Option Nat × List UInt8)) := do
  let sb ← fsinit
  match ← namei sb t 0 path junk with
  | none => return none
  | some ip => do
    ilock sb t ip
    let (r, data) ← readi sb ip n off n
    return some ((← inodeAt ip).inum, r, data)

theorem start_ref (he : 0 < ((Sys.start img).fs.inode e).ref) : e = 0 := by
  by_contra h0
  have : (Sys.start img).fs.inode e = Inode.zero := by
    simp only [Sys.start, update_of_ne h0]
  rw [this] at he
  exact absurd he (by decide)

/-- An inode of the table that is referred to once and has not been read. -/
structure Fresh (σ : State) (ip inum : Nat) : Prop where
  inum : (σ.inode ip).inum = inum
  ref : (σ.inode ip).ref = 1
  lock : (σ.inode ip).lock = none
  valid : (σ.inode ip).valid = false

theorem Image.namei_runs (h : Image files img fb D) (hn : files.length + 1 < NINODES)
    (hdots : ∀ f ∈ files, f.fsname ≠ [46] ∧ f.fsname ≠ [46, 46])
    (hdist : (files.map fun f => f.fsname.take DIRSIZ).Nodup) (hj : j < files.length)
    {name : List UInt8} (h0 : name ≠ []) (hslash : 47 ∉ name) (hstr : 0 ∉ name)
    (hname : name.take DIRSIZ = files[j].fsname.take DIRSIZ) :
    (namei sb t 0 (47 :: name) junk).Runs (Sys.start img).fs E fun r σ =>
      ∃ ip, r = some ip ∧ σ.disk = img ∧ Fresh σ ip (j + 2) := by
  have hroot : dinodeOf sb img ROOTINO = D ROOTINO := h.dinode _ (by decide)
  have htype : (D ROOTINO).type = T_DIR := by rw [h.node]; rfl
  have hsize : (D ROOTINO).size < 2 ^ 32 := by
    rw [h.root_size, rootSize]
    simp only [BSIZE, NINODES] at *
    omega
  have hfound : Found img (D ROOTINO) (elemName name junk) (j + 2) :=
    h.found hn hdots hdist hj (by rw [nameOf_elemName hstr, hname])
  -- the root is in the table already, as the current directory
  refine .seq (.seq (iget_runs (fun e he hr _ => ?_) (fun hno => ?_) fun hall => ?_))
  rotate_left
  · exact absurd rfl (hno 0 (by decide) one_pos)
  · exact absurd (start_ref (hall 1 (by decide))) (by decide)
  · rw [start_ref hr]
    show (namexLoop sb t false (name.length + 1 + 1) 0 (47 :: name) junk).Runs
      ((Sys.start img).fs.setInode 0 ⟨ROOTINO, 2, none, false, Dinode.zero⟩) _ _
    rw [namexLoop, skipelem_single h0 hslash]
    simp only []
    refine .bind (ilock_runs (Q := fun _ σ => (Sys.start img).fs.setInode 0
      ⟨ROOTINO, 2, some t, true, D ROOTINO⟩ = σ) (by rw [setInode_self]; decide)
      (by rw [setInode_self]) (fun _ hc => ?_) ?_) ?_
    · rw [setInode_self, setInode_disk] at hc
      rw [show (Sys.start img).fs.disk = img from rfl, hroot, htype] at hc
      exact absurd hc (by decide)
    · rw [setInode_self, setInode_disk, setInode_setInode, Inode.locked]
      rw [show (Sys.start img).fs.disk = img from rfl, hroot]
      rfl
    rintro _ σ rfl
    generalize hs : (Sys.start img).fs.setInode 0 ⟨ROOTINO, 2, some t, true, D ROOTINO⟩ = s
    have hdisk : s.disk = img := hs ▸ rfl
    have hip : s.inode 0 = ⟨ROOTINO, 2, some t, true, D ROOTINO⟩ := hs ▸ setInode_self _
    have hfree : ∀ e, e ≠ 0 → s.inode e = Inode.zero := by
      intro e he
      rw [← hs, setInode_ne _ he]
      simp only [Sys.start, update_of_ne he]
    refine .seq (inodeAt_runs ?_)
    rw [if_neg (by rw [hip]; exact not_not.mpr htype), if_neg (by simp)]
    refine .bind (dirlookup_found (e := j + 2)
      (Q := fun r σ => ∃ e, e ≠ 0 ∧ r = some (e, 16 * (j + 2)) ∧
        s.setInode e ⟨j + 2, 1, none, false, Dinode.zero⟩ = σ)
      (by rw [hip]; exact htype) (by rw [hip, hdisk]; exact hfound) (by rw [hip]; exact hsize) ?_) ?_
    · have hinum : (direntOf s.disk (s.inode 0).din (j + 2)).inum = j + 2 := by
        have hlen := names_length files
        rw [hip, hdisk, h.entry hn (by omega), entryInum]
        simp only [ROOTINO]
        omega
      rw [hinum]
      refine iget_runs (fun e he hr hi => ?_) (fun _ e he hr => ?_) fun hall => ?_
      · by_cases h0 : e = 0
        · rw [h0, hip] at hi
          simp only [ROOTINO] at hi
          omega
        · rw [hfree e h0] at hr
          exact absurd hr (by decide)
      · have h0 : e ≠ 0 := by
          rintro rfl
          rw [hip] at hr
          cases hr
        refine ⟨e, h0, rfl, ?_⟩
        rw [hfree e h0]
        rfl
      · have := hall 1 (by decide)
        rw [hfree 1 (by decide)] at this
        exact absurd this (by decide)
    · rintro _ _ ⟨e, he, rfl, rfl⟩
      simp only []
      generalize hs' : s.setInode e ⟨j + 2, 1, none, false, Dinode.zero⟩ = τ
      have hip' : τ.inode 0 = ⟨ROOTINO, 2, some t, true, D ROOTINO⟩ := by
        rw [← hs', setInode_ne _ (Ne.symm he), hip]
      have he' : τ.inode e = ⟨j + 2, 1, none, false, Dinode.zero⟩ := hs' ▸ setInode_self _
      have hdisk' : τ.disk = img := by rw [← hs', setInode_disk, hdisk]
      refine .seq (.seq (iunlock_runs (by rw [hip']) (by rw [hip']; exact Nat.le_succ 1) ?_))
      rw [hip']
      refine iput_runs (by rw [setInode_self]; exact fun hc => (by cases hc.1)) ?_
      refine .ret (.ret ⟨e, rfl, hdisk', ?_⟩)
      have hkept : ∀ x y, ((τ.setInode 0 x).setInode 0 y).inode e =
          ⟨j + 2, 1, none, false, Dinode.zero⟩ := by
        intro x y
        rw [setInode_ne _ he, setInode_ne _ he, he']
      constructor <;> rw [hkept]

/-- The kernel finds every file of the list and reads its bytes. -/
theorem mkfs_boot_read (t off n : Nat) (junk : Bytes) (hn : files.length + 1 < NINODES) (hm : Makes files img)
    (hnames : ∀ f ∈ files, f.fsname ≠ [] ∧ f.fsname ≠ [46] ∧ f.fsname ≠ [46, 46])
    (hdist : (files.map fun f => f.fsname.take DIRSIZ).Nodup) (hj : j < files.length)
    (name : List UInt8) (hstr : 0 ∉ name) (hslash : 47 ∉ name)
    (hname : name.take DIRSIZ = files[j].fsname.take DIRSIZ)
    (hoff : off ≤ files[j].data.length) (hwrap : off + n < 2 ^ 32) :
    ∃ s, (bootRead t junk (47 :: name) off n).run (Sys.start img).fs =
      .ok (some (j + 2, some (min n (files[j].data.length - off)),
        (files[j].data.drop off).take n)) s := by
  obtain ⟨fb, D, h⟩ := makes_image hn hm
  have hd : dinodeOf sb img (j + 2) = D (j + 2) := h.dinode _ (by omega)
  have h0 : name ≠ [] := by
    rintro rfl
    have hf := (hnames _ (List.getElem_mem hj)).1
    exact hf ((take_eq_short (by decide)).mp hname.symm)
  have hruns : (bootRead t junk (47 :: name) off n).Runs (Sys.start img).fs (fun _ => False)
      fun r _ => r = some (j + 2, some (min n (files[j].data.length - off)),
        (files[j].data.drop off).take n) := by
    refine .seq (h.fsinit_runs rfl rfl ?_)
    refine .bind (h.namei_runs hn (fun f hf => (hnames f hf).2) hdist hj h0 hslash hstr
      hname) ?_
    rintro _ s ⟨ip, rfl, hdisk, hip⟩
    simp only []
    refine .bind (ilock_runs (Q := fun _ σ => s.setInode ip
      ⟨j + 2, 1, some t, true, D (j + 2)⟩ = σ) (by rw [hip.ref]) hip.lock (fun _ hc => ?_) ?_) ?_
    · rw [hip.inum, hdisk, hd, h.type_file hj] at hc
      exact absurd hc (by decide)
    · rw [Inode.locked, hip.inum, hip.ref, hip.valid, hdisk, hd]
      rfl
    rintro _ _ rfl
    have hk : off + min n (files[j].data.length - off) ≤ files[j].data.length := by omega
    refine .seq (readi_runs ?_ hwrap ?_ (.seq (inodeAt_runs (.ret ?_))))
    · rw [setInode_self, h.size_file hj]
      exact hoff
    · rw [setInode_self, setInode_disk, hdisk, h.size_file hj]
      exact h.mapped_file hj hk
    · rw [setInode_self, setInode_disk, hdisk, h.size_file hj, readResult,
        if_pos (min_le_left ..), min_eq_left (min_le_left ..), h.slice_file hj hk]
      have htake : (files[j].data.drop off).take (min n (files[j].data.length - off)) =
          (files[j].data.drop off).take n := by
        rw [List.take_eq_take_iff, List.length_drop]
        omega
      rw [htake]
  obtain ⟨r, s, hr, rfl⟩ := hruns.ends fun _ => id
  exact ⟨s, hr⟩

theorem mkfs_boot_read_cat : ∃ img s, Makes [catFile] img ∧
    (bootRead 0 (fun _ => 0) [47, 99, 97, 116] 1 10).run (Sys.start img).fs =
      .ok (some (2, some 2, [2, 3])) s := by
  have hn : [catFile].length + 1 < NINODES := by decide
  obtain ⟨img, hm⟩ := makes_of_admissible hn ⟨by decide, by decide, by decide⟩
  obtain ⟨s, hs⟩ := mkfs_boot_read 0 1 10 (fun _ => 0) hn hm (by decide) (by decide)
    (show 0 < [catFile].length by decide) [99, 97, 116] (by decide) (by decide) (by decide)
    (by decide) (by decide)
  exact ⟨img, s, hm, hs⟩

end Xv6.Mkfs
