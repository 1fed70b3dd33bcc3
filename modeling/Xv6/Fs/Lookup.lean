import Xv6.Fs.Paths
import Xv6.Mkfs.Root

/-!
# Path resolution

In a directory tree `namei` and `nameiparent` do what `walk` and `walkParent` say, and all that they
leave behind is the reference to the inode that they return.
-/

namespace Xv6.Fs

open Lib Function

variable {sb : Superblock} {s s' : State} {path : List UInt8} {cwd c : Nat}

/-- Directories are made of entries, which name inodes that are in use and have links. -/
structure Tree (f : Nat → Node) : Prop where
  whole : ∀ d, (f d).type = T_DIR → (f d).data.length % 16 = 0
  used : ∀ d e n v, (f d).type = T_DIR → e < (dir (f d).data).size →
    (dir (f d).data).slot e = some (n, v) → (f v).type ≠ 0 ∧ (f v).nlink ≠ 0
  root : (f ROOTINO).type ≠ 0 ∧ (f ROOTINO).nlink ≠ 0

/-- The reference counts are the same but for one more reference to what is returned, and no inode
    is locked. -/
structure Returns (s s' : State) (r : Option Nat) : Prop where
  ref : ∀ e, (s'.inode e).ref = (s.inode e).ref + if r = some e then 1 else 0
  lock : ∀ e, (s'.inode e).lock = none
  inum : ∀ e, 0 < (s.inode e).ref → (s'.inode e).inum = (s.inode e).inum

/-- The inodes that a walk can come to. -/
theorem Tree.walkable {E : Option String → Prop} (htree : Tree (files sb s.disk))
    (hlocks : ∀ e, (s.inode e).lock = none) (hcwd : Refs s cwd c)
    (hfull : (∀ e < NINODE, ∀ e' < NINODE, (s.inode e).ref = 0 → (s.inode e').ref = 0 → e = e') →
      E (some "iget: no inodes")) (hout : 1 ≤ s.outstanding) :
    Walkable sb s E fun i => (files sb s.disk i).type ≠ 0 ∧
      ((files sb s.disk i).nlink ≠ 0 ∨ i = c) where
  inside := hout
  whole d _ hd := htree.whole d hd
  next d e n v _ hd he hs := by
    obtain ⟨htype, hnl⟩ := htree.used d e n v hd he hs
    exact ⟨(files_type.mp htype).1, htype, .inl hnl⟩
  wait e he := absurd (hlocks e) he
  full := hfull
  dead i hi hdead := by
    rcases hdead with h0 | ⟨hidle, hnl⟩
    · exact absurd h0 hi.1
    · rcases hi.2 with h | rfl
      · exact absurd hnl h
      · exact absurd hcwd.inum (hidle cwd hcwd.lt hcwd.ref)

theorem Since.returns {F : Nat → Node} (hlocks : ∀ e, (s.inode e).lock = none)
    (hs : Since sb s s' F (fun e => (s.inode e).ref) fun e => (s.inode e).lock) :
    Returns s s' none :=
  ⟨fun e => by rw [hs.ref]; rfl, fun e => (hs.lock e).trans (hlocks e), fun e he => (hs.stays e he).1⟩

theorem Since.returns_some {F : Nat → Node} {ip : Nat} (hlocks : ∀ e, (s.inode e).lock = none)
    (hs : Since sb s s' F (bump (fun e => (s.inode e).ref) ip) fun e => (s.inode e).lock) :
    Returns s s' (some ip) := by
  refine ⟨fun e => ?_, fun e => (hs.lock e).trans (hlocks e), fun e he => (hs.stays e he).1⟩
  rw [hs.ref, bump]
  by_cases he : e = ip
  · rw [he, update_self, if_pos rfl]
  · rw [update_of_ne he, if_neg fun hc => he (Option.some_inj.mp hc).symm]
    rfl

theorem namex_resolves (t : Nat) (junk : Bytes) (hsb : sb.Ok) (hc : Consistent sb s.disk)
    (ht : Table sb s) (htree : Tree (files sb s.disk)) (hlocks : ∀ e, (s.inode e).lock = none)
    (hcwd : Refs s cwd c) (hused : (files sb s.disk c).type ≠ 0) (hout : 1 ≤ s.outstanding)
    (hfree : ∃ e < NINODE, ∃ e' < NINODE, (s.inode e).ref = 0 ∧ (s.inode e').ref = 0 ∧ e ≠ e')
    (h0 : 0 ∉ path) :
    (∃ r s', (namei sb t cwd path junk).run s = .ok r s' ∧ Returns s s' r ∧
      (r.map fun ip => (s'.inode ip).inum) =
        walk (files sb s.disk) (startOf c path) (components path)) ∧
    ∃ r s', (nameiparent sb t cwd path junk).run s = .ok r s' ∧ Returns s s' (r.map Prod.fst) ∧
      (r.map fun x => ((s'.inode x.1).inum, nameOf x.2)) =
        walkParent (files sb s.disk) (startOf c path) (components path) := by
  have hw := htree.walkable (E := fun _ => False) hlocks hcwd (fun hall => ?_) hout
  rotate_left
  · obtain ⟨e, he, e', he', hz, hz', hne⟩ := hfree
    exact hne (hall e he e' he' hz hz')
  have hroot := files_type.mp htree.root.1
  constructor
  · have hruns : (namei sb t cwd path junk).Runs s (fun _ => False) fun r s' => Returns s s' r ∧
        (r.map fun ip => (s'.inode ip).inum) =
          walk (files sb s.disk) (startOf c path) (components path) := by
      refine .bind (R := fun r σ => Returns s σ r.1 ∧
        (r.1.map fun ip => (σ.inode ip).inum) =
          walk (files sb s.disk) (startOf c path) (components path)) ?_ fun r σ hr => .ret hr
      rw [← resolve_walk]
      refine namex_since hsb hw hc ht hcwd ⟨hused, .inr rfl⟩ hroot.1
        ⟨htree.root.1, .inl htree.root.2⟩ h0 (fun hn name' σ hσ => ?_)
        fun j n hn ip name' σ hσ hr _ _ => ?_
      · exact ⟨hσ.returns hlocks, by rw [hn]; rfl⟩
      · refine ⟨hσ.returns_some hlocks, ?_⟩
        rw [hn, Option.map_some, Option.map_some, hr.inum]
    exact hruns.ends fun _ => id
  · have hruns : (nameiparent sb t cwd path junk).Runs s (fun _ => False) fun r s' =>
        Returns s s' (r.map Prod.fst) ∧ (r.map fun x => ((s'.inode x.1).inum, nameOf x.2)) =
          walkParent (files sb s.disk) (startOf c path) (components path) := by
      refine .bind (R := fun r σ => Returns s σ r.1 ∧
        (r.1.map fun ip => ((σ.inode ip).inum, nameOf r.2)) =
          walkParent (files sb s.disk) (startOf c path) (components path)) ?_ ?_
      · rw [← resolve_walkParent]
        refine namex_since hsb hw hc ht hcwd ⟨hused, .inr rfl⟩ hroot.1
          ⟨htree.root.1, .inl htree.root.2⟩ h0 (fun hn name' σ hσ => ?_)
          fun j n hn ip name' σ hσ hr _ hname => ?_
        · exact ⟨hσ.returns hlocks, by rw [hn]; rfl⟩
        · refine ⟨hσ.returns_some hlocks, ?_⟩
          rw [hn, Option.map_some, hr.inum, hname rfl]
      · rintro ⟨r, name⟩ σ ⟨hret, hval⟩
        refine .ret ⟨?_, ?_⟩
        · rw [Option.map_map]
          show Returns s σ (r.map id)
          rwa [Option.map_id_fun, id]
        · rw [Option.map_map]
          exact hval
    exact hruns.ends fun _ => id

/-! ## Images of `mkfs` -/

section

variable {inputs : List Mkfs.Input} {img : Disk} {fb : Nat} {D : Nat → Dinode}
  (h : Mkfs.Image inputs img fb D) (hn : inputs.length + 1 < Mkfs.NINODES)
include h hn

theorem image_node (i : Nat) : (files Mkfs.sb img i).type = Mkfs.kinds inputs i ∧
    (files Mkfs.sb img i).nlink = if Mkfs.kinds inputs i = 0 then 0 else 1 := by
  rw [files, nodeOf, h.live_eq hn, h.node]
  exact ⟨rfl, rfl⟩

theorem image_used {i : Nat} (h0 : 0 < i) (hi : i < inputs.length + 2) :
    (files Mkfs.sb img i).type ≠ 0 ∧ (files Mkfs.sb img i).nlink ≠ 0 := by
  have hk : Mkfs.kinds inputs i ≠ 0 := by
    rw [Mkfs.kinds]
    split
    · decide
    · next hne =>
      rw [if_pos ⟨by simp only [ROOTINO] at hne; omega, hi⟩]
      decide
  obtain ⟨htype, hnl⟩ := image_node h hn i
  rw [htype, hnl, if_neg hk]
  exact ⟨hk, Nat.one_ne_zero⟩

theorem image_tree (hp : Mkfs.Partial inputs) : Tree (files Mkfs.sb img) := by
  have hroot : ∀ d, (files Mkfs.sb img d).type = T_DIR → d = ROOTINO := fun d hd =>
    Mkfs.kinds_dir ((image_node h hn d).1.symm.trans hd)
  refine ⟨fun d hd => ?_, fun d e n v hd he hs => ?_, image_used h hn one_pos
    (show 1 < inputs.length + 2 by omega)⟩
  · rw [hroot d hd]
    show (Mkfs.rootData img).length % 16 = 0
    rw [h.root_length hn, Mkfs.rootSize]
    simp only [BSIZE]
    omega
  · rw [hroot d hd] at hs
    by_cases hlt : e < (Mkfs.names inputs).length
    · rw [show (dir (files Mkfs.sb img ROOTINO).data).slot e = _ from h.root_name hn hlt] at hs
      cases hs
      rw [Mkfs.names_length] at hlt
      refine image_used h hn ?_ ?_ <;> simp only [Mkfs.entryInum, ROOTINO] <;> omega
    · rw [Mkfs.names_length] at hlt
      rw [show (dir (files Mkfs.sb img ROOTINO).data).slot e = none from
        h.root_gap hn hp (by omega)] at hs
      cases hs

/-- A name is found where it is first in the root directory. -/
theorem image_find {e : Nat} {n : List UInt8} (he : e < inputs.length + 2)
    (hn' : ((Mkfs.names inputs).getD e []).take DIRSIZ = n)
    (hfirst : ∀ e' < e, ((Mkfs.names inputs).getD e' []).take DIRSIZ ≠ n) :
    (dir (files Mkfs.sb img ROOTINO).data).look n = some (Mkfs.entryInum e) := by
  have hslot : ∀ e < inputs.length + 2, (dir (files Mkfs.sb img ROOTINO).data).slot e =
      some (((Mkfs.names inputs).getD e []).take DIRSIZ, Mkfs.entryInum e) := by
    intro e he
    have hlt : e < (Mkfs.names inputs).length := by
      rw [Mkfs.names_length]
      exact he
    rw [List.getD_eq_getElem _ _ hlt]
    exact h.root_name hn hlt
  have hsize : e < (dir (files Mkfs.sb img ROOTINO).data).size := by
    show e < (Mkfs.rootData img).length / 16
    rw [h.root_length hn]
    exact he.trans_le (Mkfs.rootSize_ge inputs)
  have hlast := hslot e he
  rw [hn'] at hlast
  refine Slots.look_of_find (Slots.find_eq_some.mpr ⟨hsize, ⟨_, hlast⟩, fun e' he' v hs => ?_⟩) hlast
  rw [hslot e' (by omega)] at hs
  exact hfirst e' he' (congrArg Prod.fst (Option.some_inj.mp hs))

end

/-- The first process is about to look up a path. -/
def begun (img : Disk) : State := { (Sys.start img).fs with outstanding := 1 }

theorem begun_table (img : Disk) (hn : ROOTINO < sb.ninodes) : Table sb (begun img) := by
  have hself : (begun img).inode 0 = { Inode.zero with inum := ROOTINO, ref := 1 } := by
    simp only [begun, Sys.start, update_self]
  have hne : ∀ e, 0 < ((begun img).inode e).ref → e = 0 := by
    intro e he
    have he : 0 < ((Sys.start img).fs.inode e).ref := he
    exact Mkfs.start_ref he
  refine ⟨fun e _ hr hv => ?_, fun e _ hr => ?_, fun e _ e' _ hr hr' _ => ?_⟩
  · rw [hne e hr, hself] at hv
    exact absurd hv (by simp [Inode.zero])
  · rw [hne e hr, hself]
    exact hn
  · rw [hne e hr, hne e' hr']

theorem namex_resolves_cat : ∃ (img : Disk) (r : Option Nat) (s' : State),
    (namei Mkfs.sb 0 0 [99, 97, 116] (fun _ => 0)).run (begun img) = .ok r s' ∧
    Returns (begun img) s' r ∧ (r.map fun ip => (s'.inode ip).inum) =
      walk (files Mkfs.sb img) ROOTINO [[99, 97, 116]] := by
  obtain ⟨img, fb, D, h⟩ := Mkfs.exists_cat
  have hself : (begun img).inode 0 = { Inode.zero with inum := ROOTINO, ref := 1 } := by
    simp only [begun, Sys.start, update_self]
  have hne : ∀ e, e ≠ 0 → (begun img).inode e = Inode.zero := by
    intro e he
    simp only [begun, Sys.start, update_of_ne he]
  have hlocks : ∀ e, ((begun img).inode e).lock = none := by
    intro e
    by_cases he : e = 0
    · rw [he, hself]
      rfl
    · rw [hne e he]
      rfl
  have hcwd : Refs (begun img) 0 ROOTINO :=
    ⟨by decide, by rw [hself]; exact one_pos, by rw [hself]⟩
  have hspec := namex_resolves 0 (fun _ => 0) Mkfs.sb_ok (h.no_holes (by decide) Mkfs.cat_partial)
    (begun_table img (by decide)) (image_tree h (by decide) Mkfs.cat_partial) hlocks hcwd
    (image_used h (by decide) one_pos (by decide)).1 le_rfl
    ⟨1, by decide, 2, by decide, by rw [hne 1 (by decide)]; rfl, by rw [hne 2 (by decide)]; rfl,
      by decide⟩ (show 0 ∉ [99, 97, 116] by decide)
  obtain ⟨r, s', hrun, hret, hval⟩ := hspec.1
  exact ⟨img, r, s', hrun, hret, hval⟩

/-- All entries of the table are in use, the first by the current directory. -/
def crowded (img : Disk) : State :=
  { (Sys.start img).fs with
    outstanding := 1
    inode := fun e => ⟨e + 1, 1, none, false, Dinode.zero⟩ }

/-- The inodes of the root and of 49 files of 50 are in the table. -/
theorem namei_no_inodes : ∃ img : Disk,
    Consistent Mkfs.sb img ∧ Table Mkfs.sb (crowded img) ∧ Tree (files Mkfs.sb img) ∧
    Refs (crowded img) 0 ROOTINO ∧
    (∀ e < NINODE, (files Mkfs.sb img ((crowded img).inode e).inum).type ≠ 0) ∧
    (walk (files Mkfs.sb img) ROOTINO [[102, 114]]).isSome ∧
    (namei Mkfs.sb 0 0 [102, 114] (fun _ => 0)).run (crowded img) = .panic "iget: no inodes" := by
  have hn : (Mkfs.emptyFiles.take 50).length + 1 < Mkfs.NINODES := by decide
  have hp : Mkfs.Partial (Mkfs.emptyFiles.take 50) := by
    unfold Mkfs.Partial
    decide
  obtain ⟨img, hm⟩ := Mkfs.makes_of_admissible hn ⟨by decide, by decide, by decide⟩
  obtain ⟨fb, D, h⟩ := Mkfs.makes_image hn hm
  have hc := h.no_holes hn hp
  have htree := image_tree h hn hp
  have ht : Table Mkfs.sb (crowded img) := by
    refine ⟨fun e _ _ hv => absurd hv Bool.false_ne_true, fun e he _ => ?_,
      fun e _ e' _ _ _ heq => ?_⟩
    · show e + 1 < 200
      simp only [NINODE] at he
      omega
    · exact Nat.succ_injective heq
  have hcwd : Refs (crowded img) 0 ROOTINO := ⟨by decide, one_pos, rfl⟩
  have hlook : (dir (files Mkfs.sb img ROOTINO).data).look [102, 114] = some 51 :=
    image_find h hn (show 51 < 50 + 2 by decide) rfl (by decide)
  have hdir : (files Mkfs.sb img ROOTINO).type = T_DIR := (image_node h hn ROOTINO).1
  have hres : resolve (files Mkfs.sb img) false ROOTINO [[102, 114]] = some (51, []) := by
    rw [resolve, if_neg (not_not.mpr hdir), if_neg (by simp)]
    show ((dir (files Mkfs.sb img ROOTINO).data).look [102, 114]).bind _ = _
    rw [hlook]
    rfl
  refine ⟨img, hc, ht, htree, hcwd, fun e he => ?_, ?_, ?_⟩
  · refine (image_used h hn (Nat.succ_pos e) ?_).1
    show e + 1 < 52
    simp only [NINODE] at he
    omega
  · rw [← resolve_walk, hres]
    rfl
  · refine Prog.Runs.panics ?_
    have hw : Walkable Mkfs.sb (crowded img) (fun m => m = some "iget: no inodes") _ :=
      htree.walkable (fun _ => rfl) hcwd (fun _ => rfl) le_rfl
    refine .stop ?_
    refine namex_since Mkfs.sb_ok hw hc ht hcwd ⟨(image_used h hn one_pos (by decide)).1, .inr rfl⟩
      (by decide) ⟨htree.root.1, .inl htree.root.2⟩ (by decide) (fun hf => ?_)
      fun j n hf ip _ σ hσ hr _ _ => ?_
    · have hf : resolve (files Mkfs.sb img) false ROOTINO [[102, 114]] = none := hf
      rw [hres] at hf
      cases hf
    · have hf : resolve (files Mkfs.sb img) false ROOTINO [[102, 114]] = some (j, n) := hf
      rw [hres] at hf
      cases hf
      have hinum : (σ.inode ip).inum = ip + 1 := (hσ.stays ip one_pos).1
      have hlt := hr.lt
      have := hr.inum
      simp only [NINODE] at hlt
      omega

end Xv6.Fs
