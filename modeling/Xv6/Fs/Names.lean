import Xv6.Mkfs.Root

/-!
# Names in a directory

A directory is a map from names to inodes: no name is in it twice, `dirlink` adds a name with its
inode and changes no other, and it fails only if the name is there or there is no space. Names are
arrays of characters of which the first `DIRSIZ` count, up to a zero. An inode number is kept in 16
bits.
-/

namespace Xv6.Fs

open Lib Function

variable {sb : Superblock} {s s' : State} {E : Option String → Prop} {dp d e i t inum : Nat}
  {name : Bytes}

/-- The entry `dp` of the table is for a directory `d` that can be changed. -/
structure IsDir (sb : Superblock) (s : State) (dp d : Nat) : Prop where
  consistent : Consistent sb s.disk
  holds : Holds sb s dp d
  ref : 0 < (s.inode dp).ref
  type : (files sb s.disk d).type = T_DIR
  whole : (files sb s.disk d).data.length % 16 = 0
  inside : 1 ≤ s.outstanding

/-- The names in the directory `d`. -/
abbrev names (sb : Superblock) (s : State) (d : Nat) : Slots (List UInt8) Nat :=
  dir (files sb s.disk d).data

theorem IsDir.congr (h : IsDir sb s dp d) (hdisk : s'.disk = s.disk)
    (hin : s'.inode dp = s.inode dp) (hout : s'.outstanding = s.outstanding) :
    IsDir sb s' dp d := by
  obtain ⟨hc, ⟨hinum, hlt, hdin, htype⟩, href, hdir, hwhole, hinside⟩ := h
  rw [← hdisk] at hc hdin htype hdir hwhole
  rw [← hin] at hinum hdin href
  rw [← hout] at hinside
  exact ⟨hc, ⟨hinum, hlt, hdin, htype⟩, href, hdir, hwhole, hinside⟩

theorem IsDir.touched (h : IsDir sb s dp d) (ht : Touched s s') :
    IsDir sb s' dp d ∧ names sb s' d = names sb s d := by
  obtain rfl | ⟨e, y, h0, -, -, rfl⟩ := ht
  · exact ⟨h, rfl⟩
  have hne : dp ≠ e := by
    rintro rfl
    exact absurd h0 h.ref.ne'
  exact ⟨h.congr rfl (setInode_ne _ hne) rfl, rfl⟩

/-- The bytes of the directory are changed. -/
theorem IsDir.sets {data : List UInt8} (h : IsDir sb s dp d)
    (hset : Sets sb dp d s s' { files sb s.disk d with data }) (hw : data.length % 16 = 0) :
    IsDir sb s' dp d ∧ names sb s' d = dir data := by
  have hfile := hset.file
  refine ⟨⟨hset.consistent, hset.holds h.holds h.holds.type_ne, ?_, ?_, ?_, ?_⟩, ?_⟩
  · rw [hset.memory, update_self]
    exact h.ref
  · rw [hfile]
    exact h.type
  · rw [hfile]
    exact hw
  · rw [hset.rest.1]
    exact h.inside
  · rw [names, hfile]

/-! ## No name is there twice -/

/-- What is done to a directory: a name is linked, an entry is cleared as by `sys_unlink`, or
    something else happens that leaves it alone. -/
inductive Edit (sb : Superblock) (t dp d : Nat) : State → State → Prop where
  | link {s s' : State} (name : Bytes) (inum : Nat) (r : Bool)
      (ends : (dirlink sb t dp name inum).run s = .ok r s') : Edit sb t dp d s s'
  | remove {s s' : State} (e : Nat) (r : Option Nat) (lt : e < (names sb s d).size)
      (ends : (writeDirent sb dp (16 * e) Dirent.empty).run s = .ok r s') : Edit sb t dp d s s'
  | other {s s' : State} (stays : IsDir sb s' dp d) (same : names sb s' d = names sb s d) :
      Edit sb t dp d s s'

theorem Edit.unique (hsb : sb.Ok) (hd : IsDir sb s dp d) (hu : (names sb s d).Unique)
    (h : Edit sb t dp d s s') : IsDir sb s' dp d ∧ (names sb s' d).Unique := by
  cases h with
  | link name inum r ends =>
    have hruns : (dirlink sb t dp name inum).Runs s (fun _ => True) fun _ σ =>
        IsDir sb σ dp d ∧ (names sb σ d).Unique := by
      refine dirlink_runs hsb hd.consistent hd.holds hd.whole hd.type (.inl trivial) hd.inside
        (fun _ _ => trivial) (fun _ σ ht => ?_) (fun _ _ σ hset => ?_) fun hf _ σ hset => ?_
      · obtain ⟨hd', hn⟩ := hd.touched ht
        exact ⟨hd', hn ▸ hu⟩
      · obtain ⟨hd', hn⟩ := hd.sets hset hd.whole
        exact ⟨hd', hn ▸ hu⟩
      · obtain ⟨hd', hn⟩ := hd.sets hset (setEntry_whole hd.whole Slots.gap_le)
        refine ⟨hd', ?_⟩
        rw [hn, dir_linkEntry hd.whole]
        by_cases hi : inum % 2 ^ 16 = 0
        · rw [Dirent.slot, linkEntry, if_pos hi]
          exact hu.clear Slots.gap_le
        · rw [linkEntry_slot hi]
          exact hu.put hf
    exact hruns.ok ends
  | remove e r lt ends =>
    have hle : 16 * e ≤ (files sb s.disk d).data.length := by
      have : e < (files sb s.disk d).data.length / 16 := lt
      omega
    have hruns : (writeDirent sb dp (16 * e) Dirent.empty).Runs s (fun _ => True) fun _ σ =>
        IsDir sb σ dp d ∧ (names sb σ d).Unique := by
      refine writeDirent_runs hsb hd.consistent hd.holds (.inl trivial) hd.inside hle
        (fun _ σ _ _ hset => ?_) fun σ _ hset => ?_
      · obtain ⟨hd', hn⟩ := hd.sets hset hd.whole
        exact ⟨hd', hn ▸ hu⟩
      · obtain ⟨hd', hn⟩ := hd.sets hset (setEntry_whole hd.whole lt.le)
        refine ⟨hd', ?_⟩
        rw [hn, dir_setEntry hd.whole lt.le (Nat.two_pow_pos 16) fun _ _ => rfl]
        exact hu.clear lt.le
    exact hruns.ok ends
  | other stays same => exact ⟨stays, same ▸ hu⟩

theorem edits_unique (hsb : sb.Ok) (hd : IsDir sb s dp d) (hu : (names sb s d).Unique)
    (h : Relation.ReflTransGen (Edit sb t dp d) s s') :
    IsDir sb s' dp d ∧ (names sb s' d).Unique := by
  induction h with
  | refl => exact ⟨hd, hu⟩
  | tail _ hstep ih => exact hstep.unique hsb ih.1 ih.2

/-! ## A directory is a map -/

/-- `dirlookup` of the name in the directory ends with the inode number `v`, or with none. -/
def Finds (sb : Superblock) (s : State) (dp : Nat) (name : Bytes) (v : Option Nat) : Prop :=
  ∃ r s', (dirlookup sb dp name).run s = .ok r s' ∧ (r.map fun x => (s'.inode x.1).inum) = v

/-- `dirlookup` finds what the table has. -/
theorem finds_iff (hd : IsDir sb s dp d) (hfree : ∃ e < NINODE, (s.inode e).ref = 0)
    (v : Option Nat) : Finds sb s dp name v ↔ (names sb s d).look (nameOf name) = v := by
  have hruns : (dirlookup sb dp name).Runs s (fun _ => False) fun r σ =>
      (r.map fun x => (σ.inode x.1).inum) = (names sb s d).look (nameOf name) := by
    refine dirlookup_runs hd.consistent hd.holds hd.whole hd.type (fun hf => ?_) fun e i hf hs => ?_
    · exact (Slots.look_eq_none.mpr hf).symm
    · rw [Slots.look_of_find hf hs]
      refine iget_runs (fun e _ _ hi => ?_) (fun _ e _ _ => ?_) fun hall => ?_
      · rw [Option.map_some, setInode_self]
        exact congrArg some hi
      · rw [Option.map_some, setInode_self]
      · obtain ⟨e, he, h0⟩ := hfree
        exact absurd h0 (Nat.ne_of_gt (hall e he))
  obtain ⟨r, σ, hrun, hlook⟩ := hruns.ends fun _ => id
  rw [← hlook, Finds, hrun]
  constructor
  · rintro ⟨_, _, ⟨rfl, rfl⟩, hv⟩
    exact hv
  · exact fun hv => ⟨r, σ, rfl, hv⟩

theorem dirlink_is_map (hsb : sb.Ok) (hd : IsDir sb s dp d) (hu : (names sb s d).Unique)
    (h : Relation.ReflTransGen (Edit sb t dp d) s s') :
    (names sb s' d).Unique ∧ ∀ name i, 0 < i → i < 2 ^ 16 →
      (∃ e < NINODE, (s'.inode e).ref = 0) →
      s'.logged.length + 7 ≤ LOGSIZE → s'.logged.length + 7 < sb.nlog →
      ∃ r σ, (dirlink sb t dp name i).run s' = .ok r σ ∧
        (r = false ↔ (∃ v, Finds sb s' dp name (some v)) ∨
          NoSpace sb s'.disk d (names sb s' d).gap) ∧
        (r = false → (files sb σ.disk d).data = (files sb s'.disk d).data) ∧
        (r = true → ∀ name' v, Finds sb σ dp name' v ↔
          if nameOf name' = nameOf name then v = some i else Finds sb s' dp name' v) := by
  obtain ⟨hd', hu'⟩ := edits_unique hsb hd hu h
  refine ⟨hu', fun name i h0 hi hfree hlog hlog' => ?_⟩
  have hthere : (∃ v, Finds sb s' dp name (some v)) ↔
      (names sb s' d).find (nameOf name) ≠ none := by
    simp only [finds_iff hd' hfree]
    rw [← Option.isSome_iff_exists, Option.isSome_iff_ne_none, ne_eq, Slots.look_eq_none]
  have hslot : (linkEntry name i).slot = some (nameOf name, i) := by
    have hmod := Nat.mod_eq_of_lt hi
    rw [linkEntry_slot (by omega), hmod]
  have hruns : (dirlink sb t dp name i).Runs s' (fun _ => False) fun r σ =>
      (r = false ↔ (∃ v, Finds sb s' dp name (some v)) ∨
          NoSpace sb s'.disk d (names sb s' d).gap) ∧
        (r = false → (files sb σ.disk d).data = (files sb s'.disk d).data) ∧
        (r = true → ∀ name' v, Finds sb σ dp name' v ↔
          if nameOf name' = nameOf name then v = some i else Finds sb s' dp name' v) := by
    refine dirlink_runs hsb hd'.consistent hd'.holds hd'.whole hd'.type (.inr ⟨hlog, hlog'⟩)
      hd'.inside (fun _ hall => ?_) (fun hf σ ht => ?_) (fun _ hno σ hset => ?_)
      fun hf hsp σ hset => ?_
    · obtain ⟨e, he, h0⟩ := hfree
      exact absurd h0 (Nat.ne_of_gt (hall e he))
    · refine ⟨iff_of_true rfl (.inl (hthere.mpr hf)), fun _ => ?_, fun hc => absurd hc (by simp)⟩
      obtain rfl | ⟨e, y, -, -, -, rfl⟩ := ht
      · rfl
      · rfl
    · exact ⟨iff_of_true rfl (.inr hno), fun _ => by rw [hset.file],
        fun hc => absurd hc (by simp)⟩
    · refine ⟨iff_of_false (by simp) ?_, fun hc => absurd hc (by simp), fun _ name' v => ?_⟩
      · rintro (hc | hc)
        · exact hthere.mp hc hf
        · exact hsp hc
      · obtain ⟨hdσ, hn⟩ := hd'.sets hset (setEntry_whole hd'.whole Slots.gap_le)
        have hfreeσ : ∃ e < NINODE, (σ.inode e).ref = 0 := by
          obtain ⟨e, he, h0⟩ := hfree
          refine ⟨e, he, ?_⟩
          by_cases hep : e = dp
          · rw [hep] at h0
            exact absurd h0 hd'.ref.ne'
          · rw [hset.memory, update_of_ne hep]
            exact h0
        rw [finds_iff hdσ hfreeσ, finds_iff hd' hfree, hn, dir_linkEntry hd'.whole, hslot,
          Slots.look_put hf]
        split
        · exact eq_comm
        · exact Iff.rfl
  exact hruns.ends fun _ => id

/-- The root directory of an image with one file can be changed. -/
theorem isDir_cat {img : Disk} {fb : Nat} {D : Nat → Dinode} (h : Mkfs.Image [Mkfs.catFile] img fb D) :
    IsDir Mkfs.sb (Mkfs.atRoot img) 0 ROOTINO := by
  have hroot : files Mkfs.sb (Mkfs.atRoot img).disk ROOTINO = ⟨T_DIR, 0, 0, 1, Mkfs.rootData img⟩ :=
    h.root (by decide)
  refine ⟨h.no_holes (by decide) Mkfs.cat_partial, h.holds_root, ?_, ?_, ?_, Nat.le_refl 1⟩
  · rw [Mkfs.atRoot_self]
    exact one_pos
  · rw [hroot]
  · rw [hroot]
    show (Mkfs.rootData img).length % 16 = 0
    rw [h.root_length (by decide)]
    rfl

theorem cat_missing {img : Disk} {fb : Nat} {D : Nat → Dinode}
    (h : Mkfs.Image [Mkfs.catFile] img fb D) :
    (names Mkfs.sb (Mkfs.atRoot img) ROOTINO).find (nameOf (array [110])) = none := by
  have hname : nameOf (array [110]) = [110] := by decide
  refine Slots.find_eq_none.mpr fun e _ v hs => ?_
  rw [hname] at hs
  rcases Mkfs.cat_names h hs with ⟨-, hc⟩ | ⟨-, hc⟩ | ⟨-, hc⟩ <;> exact absurd hc (by decide)

theorem cat_look {img : Disk} {fb : Nat} {D : Nat → Dinode}
    (h : Mkfs.Image [Mkfs.catFile] img fb D) :
    (names Mkfs.sb (Mkfs.atRoot img) ROOTINO).look (nameOf (array [99, 97, 116])) = some 2 := by
  have hname : nameOf (array [99, 97, 116]) = [99, 97, 116] := by decide
  have hslot : (dir (Mkfs.rootData img)).slot 2 = some ([99, 97, 116], 2) :=
    h.root_name (by decide) (show 2 < 3 by decide)
  rw [hname]
  refine Slots.look_of_find (Slots.find_eq_some.mpr ⟨?_, ⟨2, hslot⟩, fun e he v hs => ?_⟩) hslot
  · show 2 < (Mkfs.rootData img).length / 16
    rw [h.root_length (by decide)]
    decide
  · rcases Mkfs.cat_names h hs with ⟨-, hc⟩ | ⟨-, hc⟩ | ⟨rfl, -⟩
    · exact absurd hc (by decide)
    · exact absurd hc (by decide)
    · exact absurd he (Nat.lt_irrefl 2)

theorem cat_free {img : Disk} : ∃ e < NINODE, ((Mkfs.atRoot img).inode e).ref = 0 :=
  ⟨1, by decide, by rw [Mkfs.atRoot_ne (by decide)]; rfl⟩

/-- A new name in the root directory. -/
theorem dirlink_is_map_cat : ∃ (img : Disk) (σ : State),
    (dirlink Mkfs.sb 0 0 (array [110]) 2).run (Mkfs.atRoot img) = .ok true σ ∧
      Finds Mkfs.sb σ 0 (array [110]) (some 2) ∧
      ∀ v, Finds Mkfs.sb σ 0 (array [46]) v ↔ Finds Mkfs.sb (Mkfs.atRoot img) 0 (array [46]) v := by
  obtain ⟨img, fb, D, h⟩ := Mkfs.exists_cat
  have hd := isDir_cat h
  have hlog : 0 + 7 ≤ LOGSIZE ∧ 0 + 7 < Mkfs.sb.nlog := by decide
  obtain ⟨r, σ, hrun, hfalse, -, htrue⟩ := (dirlink_is_map (t := 0) Mkfs.sb_ok hd
    (Mkfs.cat_unique h) .refl).2 (array [110]) 2 (by decide) (by decide) cat_free hlog.1 hlog.2
  have hr : r = true := by
    refine Bool.eq_true_of_not_eq_false fun hr => ?_
    rcases hfalse.mp hr with ⟨v, hv⟩ | hno
    · rw [finds_iff hd cat_free, Slots.look_eq_none.mpr (cat_missing h)] at hv
      cases hv
    · exact hd.holds.space hd.consistent (Mkfs.cat_gap h) hno
  subst hr
  refine ⟨img, σ, hrun, ?_, fun v => ?_⟩
  · rw [htrue rfl, if_pos rfl]
  · rw [htrue rfl, if_neg (by decide)]

/-! ## What `dirlink` needs -/

/-- An inode number of more than 16 bits is cut. -/
theorem dirlink_cuts_inum {img : Disk} {fb : Nat} {D : Nat → Dinode}
    (h : Mkfs.Image [Mkfs.catFile] img fb D) :
    ∃ σ, (dirlink Mkfs.sb 0 0 (array [110]) (2 ^ 16)).run (Mkfs.atRoot img) = .ok true σ ∧
      Finds Mkfs.sb σ 0 (array [110]) none := by
  have hd := isDir_cat h
  have hlog : 0 + 7 ≤ LOGSIZE ∧ 0 + 7 < Mkfs.sb.nlog := by decide
  have hruns : (dirlink Mkfs.sb 0 0 (array [110]) (2 ^ 16)).Runs (Mkfs.atRoot img) (fun _ => False)
      fun r σ => r = true ∧ Finds Mkfs.sb σ 0 (array [110]) none := by
    refine dirlink_runs Mkfs.sb_ok hd.consistent hd.holds hd.whole hd.type (.inr hlog) hd.inside
      (fun hc => absurd (cat_missing h) hc) (fun hc => absurd (cat_missing h) hc)
      (fun _ hno => ?_) fun hf _ σ hset => ?_
    · exact absurd hno (hd.holds.space hd.consistent (Mkfs.cat_gap h))
    · obtain ⟨hdσ, hn⟩ := hd.sets hset (setEntry_whole hd.whole Slots.gap_le)
      have hfreeσ : ∃ e < NINODE, (σ.inode e).ref = 0 := by
        refine ⟨1, by decide, ?_⟩
        rw [hset.memory, update_of_ne (by decide), Mkfs.atRoot_ne (by decide)]
        rfl
      refine ⟨rfl, (finds_iff hdσ hfreeσ none).mpr ?_⟩
      rw [hn, dir_linkEntry hd.whole, Slots.look_eq_none]
      exact Slots.find_clear Slots.gap_le hf
  obtain ⟨r, σ, hrun, rfl, hfinds⟩ := hruns.ends fun _ => id
  exact ⟨σ, hrun, hfinds⟩

/-- The name is there, and the inode table has neither its inode nor an unused entry. -/
theorem dirlink_no_inodes (hd : IsDir sb s dp d)
    (there : (names sb s d).look (nameOf name) = some i)
    (hfull : ∀ e < NINODE, 0 < (s.inode e).ref ∧ (s.inode e).inum ≠ i) :
    (dirlink sb t dp name inum).run s = .panic "iget: no inodes" := by
  refine Prog.Runs.panics (.seq (dirlookup_runs hd.consistent hd.holds hd.whole hd.type
    (fun hf => ?_) fun e v hf hs => ?_))
  · rw [Slots.look_eq_none.mpr hf] at there
    cases there
  · obtain rfl : v = i := Option.some_inj.mp ((Slots.look_of_find hf hs).symm.trans there)
    refine iget_runs (fun e he _ hi => absurd hi (hfull e he).2) (fun _ e he h0 => ?_) fun _ => rfl
    exact absurd h0 (hfull e he).1.ne'

/-- The log is full, and the name is new. -/
theorem dirlink_log_full (hd : IsDir sb s dp d) (hnew : (names sb s d).find (nameOf name) = none)
    (hgap : (names sb s d).gap < (names sb s d).size) (hfull : sb.nlog ≤ s.logged.length + 1) :
    (dirlink sb t dp name inum).run s = .panic "too big a transaction" := by
  have hsize := hd.holds.size
  have hwhole := hd.whole
  have hmax := hd.consistent.size_le d
  rw [hd.holds.live] at hmax
  change (dir (files sb s.disk d).data).gap < (files sb s.disk d).data.length / 16 at hgap
  have hthere := hd.holds.mapped_entry hd.consistent
    (e := (dir (files sb s.disk d).data).gap) (by omega)
  rw [← Nat.mul_div_mul_left _ 64 (show 0 < 16 by decide)] at hthere
  refine Prog.Runs.panics (.seq (dirlookup_runs hd.consistent hd.holds hd.whole hd.type
    (fun _ => ?_) fun e v hf _ => absurd hf (by simp [hnew])))
  refine .seq (inodeAt_runs (.seq (emptyDirent_runs hd.consistent hd.holds hd.whole ?_
    (Nat.zero_le _) ?_)))
  · exact .stop (writei_full (by omega) (by decide) (by omega) hthere le_rfl hfull)
  · show 0 + entries _ = (files sb s.disk d).data.length / 16
    rw [entries]
    omega

/-- The root directory of an image can be changed, but: an inode number of more than 16 bits is cut,
    a name that is there makes `dirlink` panic if no entry of the inode table is unused, and a new
    name if the log is full. -/
theorem dirlink_fails : ∃ (img : Disk) (crowded busy : State),
    (IsDir Mkfs.sb (Mkfs.atRoot img) 0 ROOTINO ∧ IsDir Mkfs.sb crowded 0 ROOTINO ∧
      IsDir Mkfs.sb busy 0 ROOTINO ∧ (names Mkfs.sb (Mkfs.atRoot img) ROOTINO).Unique ∧
      crowded.disk = img ∧ busy.disk = img) ∧
    (∃ σ, (dirlink Mkfs.sb 0 0 (array [110]) (2 ^ 16)).run (Mkfs.atRoot img) = .ok true σ ∧
      Finds Mkfs.sb σ 0 (array [110]) none) ∧
    (dirlink Mkfs.sb 0 0 (array [99, 97, 116]) 2).run crowded = .panic "iget: no inodes" ∧
    (dirlink Mkfs.sb 0 0 (array [110]) 2).run busy = .panic "too big a transaction" := by
  obtain ⟨img, fb, D, h⟩ := Mkfs.exists_cat
  have hd := isDir_cat h
  let crowded : State := { Mkfs.atRoot img with
    inode := fun e => { (Mkfs.atRoot img).inode e with inum := ROOTINO + 2 * e, ref := 1 } }
  let busy : State := { Mkfs.atRoot img with logged := Mkfs.taken }
  have hcrowded : IsDir Mkfs.sb crowded 0 ROOTINO :=
    hd.congr rfl (by simp only [crowded, Mkfs.atRoot_self]) rfl
  have hbusy : IsDir Mkfs.sb busy 0 ROOTINO := hd.congr rfl rfl rfl
  refine ⟨img, crowded, busy, ⟨hd, hcrowded, hbusy, Mkfs.cat_unique h, rfl, rfl⟩,
    dirlink_cuts_inum h, dirlink_no_inodes hcrowded (cat_look h) fun e _ => ⟨one_pos, ?_⟩,
    dirlink_log_full hbusy (cat_missing h) (Mkfs.cat_gap h) ?_⟩
  · show 1 + 2 * e ≠ 2
    omega
  · show Mkfs.sb.nlog ≤ Mkfs.taken.length + 1
    decide

end Xv6.Fs
