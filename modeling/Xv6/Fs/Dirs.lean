import Xv6.Fs.Since
import Xv6.Lib.Slots

/-!
# Directories as tables

A directory is a file of entries, and what it is for is a table of slots: `dir data` has a slot for
each entry of the bytes `data`, which is empty or has a name and an inode number. `dirlookup` finds
the first slot with a name, and `dirlink` puts a name into the gap of the table, unless it is there
already or the directory cannot grow.
-/

namespace Xv6.Fs

open Lib Function List

variable {sb : Superblock} {s₀ s s' : State} {E : Option String → Prop} {F : Nat → Node}
  {g : Nat → Nat} {L : Nat → Option Nat} {disk : Disk} {din : Dinode} {data : List UInt8}
  {dp d e i k m t inum : Nat} {name : Bytes} {x : Dirent}

/-- Entry `e` of a directory with the bytes `data`. -/
def entryOf (data : List UInt8) (e : Nat) : Dirent :=
  Dirent.ofBytes fun j => data.getD (16 * e + j) 0

/-- What an entry stands for: nothing, or a name of an inode. -/
def Dirent.slot (x : Dirent) : Option (List UInt8 × Nat) :=
  if x.inum = 0 then none else some (nameOf x.name, x.inum)

/-- The table that the bytes of a directory stand for. -/
def dir (data : List UInt8) : Slots (List UInt8) Nat where
  size := data.length / 16
  slot := fun e => (entryOf data e).slot

/-- The bytes of a directory with another entry `e`. -/
def setEntry (data : List UInt8) (e : Nat) (x : Dirent) : List UInt8 :=
  splice data (16 * e) ((range 16).map x.bytes)

/-! ## Entries -/

theorem setEntry_length (h : 16 * e ≤ data.length) :
    (setEntry data e x).length = max data.length (16 * e + 16) := by
  rw [setEntry, splice_length h, length_map, length_range]

theorem entryOf_setEntry_self (h : 16 * e ≤ data.length) (hi : x.inum < 2 ^ 16)
    (hn : ∀ i, DIRSIZ ≤ i → x.name i = 0) : entryOf (setEntry data e x) e = x := by
  refine (Dirent.ofBytes_congr fun j hj => ?_).trans (Dirent.ofBytes_bytes hi hn)
  rw [getD_eq_getElem?_getD, setEntry, splice_get h, length_map, length_range,
    if_pos ⟨by omega, by omega⟩, Nat.add_sub_cancel_left, getElem?_map,
    getElem?_range hj]
  rfl

theorem entryOf_setEntry_ne (h : 16 * e ≤ data.length) (hk : k ≠ e) :
    entryOf (setEntry data e x) k = entryOf data k := by
  refine Dirent.ofBytes_congr fun j hj => ?_
  rw [getD_eq_getElem?_getD, getD_eq_getElem?_getD, setEntry, splice_get h,
    length_map, length_range, if_neg (by omega)]

/-- Writing an entry sets a slot. -/
theorem dir_setEntry (hw : data.length % 16 = 0) (h : e ≤ (dir data).size) (hi : x.inum < 2 ^ 16)
    (hn : ∀ i, DIRSIZ ≤ i → x.name i = 0) :
    dir (setEntry data e x) = (dir data).set e x.slot := by
  have hle : 16 * e ≤ data.length := by
    have : e ≤ data.length / 16 := h
    omega
  have hsize : (setEntry data e x).length / 16 = max (data.length / 16) (e + 1) := by
    rw [setEntry_length hle]
    omega
  have hslot : (fun k => (entryOf (setEntry data e x) k).slot) =
      update (fun k => (entryOf data k).slot) e x.slot := by
    funext k
    by_cases hk : k = e
    · rw [hk, update_self, entryOf_setEntry_self hle hi hn]
    · rw [update_of_ne hk, entryOf_setEntry_ne hle hk]
  rw [dir, hsize, hslot]
  rfl

theorem direntOf_eq (h : 16 * e + 16 ≤ din.size) :
    direntOf disk din e = entryOf (content disk din) e := by
  refine Dirent.ofBytes_congr fun j hj => ?_
  rw [getD_eq_getElem?_getD, content_get, if_pos (by omega)]
  rfl

/-- Slot `e` has the name if entry `e` is one that `dirlookup` takes. -/
theorem slot_iff_matches (h : 16 * e + 16 ≤ din.size) : Matches disk din name e ↔
    (dir (content disk din)).slot e = some (nameOf name, (entryOf (content disk din) e).inum) := by
  rw [Matches, direntOf_eq h, namecmp_eq_zero_iff]
  show _ ↔ Dirent.slot _ = _
  rw [Dirent.slot]
  by_cases h0 : (entryOf (content disk din) e).inum = 0
  · rw [if_pos h0]
    exact iff_of_false (fun hc => hc.1 h0) (by simp)
  · rw [if_neg h0, Option.some_inj, Prod.mk.injEq]
    exact ⟨fun hm => ⟨hm.2.symm, rfl⟩, fun hs => ⟨h0, hs.1.symm⟩⟩

theorem slot_eq_none : (dir data).slot e = none ↔ (entryOf data e).inum = 0 := by
  show Dirent.slot _ = none ↔ _
  rw [Dirent.slot]
  split
  · next h0 => exact iff_of_true rfl h0
  · next h0 => exact iff_of_false (by simp) h0

theorem slot_inum {n : List UInt8} {v : Nat} (h : (dir data).slot e = some (n, v)) :
    (entryOf data e).inum = v ∧ v ≠ 0 := by
  have hs : Dirent.slot (entryOf data e) = some (n, v) := h
  rw [Dirent.slot] at hs
  by_cases h0 : (entryOf data e).inum = 0
  · rw [if_pos h0] at hs
    cases hs
  · rw [if_neg h0] at hs
    cases hs
    exact ⟨rfl, h0⟩

/-! ## `dirlookup` -/

section

variable (hc : Consistent sb s.disk) (hh : Holds sb s dp d)
  (hw : (files sb s.disk d).data.length % 16 = 0)

include hh

theorem Holds.bytes : (files sb s.disk d).data = content s.disk (s.inode dp).din := by
  rw [hh.node]
  rfl

theorem Holds.size : (files sb s.disk d).data.length = (s.inode dp).din.size := by
  rw [hh.bytes, content_length]

include hc

/-- The blocks of the entries of a directory are there. -/
theorem Holds.mapped_entry (he : 16 * e < (s.inode dp).din.size) :
    blockOf s.disk (s.inode dp).din (e / 64) ≠ 0 := by
  have := hc.mapped d (e / 64) (by rw [hh.live]; simp only [BSIZE]; omega)
  rwa [hh.live] at this

theorem Holds.size_lt : (s.inode dp).din.size < 2 ^ 32 := by
  have := hc.size_le d
  rw [hh.live] at this
  exact this.trans_lt (by decide)

include hw

theorem dirlookup_runs {Q : Option (Nat × Nat) → State → Prop}
    (hdir : (files sb s.disk d).type = T_DIR)
    (missing : (dir (files sb s.disk d).data).find (nameOf name) = none → Q none s)
    (found : ∀ e v, (dir (files sb s.disk d).data).find (nameOf name) = some e →
      (dir (files sb s.disk d).data).slot e = some (nameOf name, v) →
      (iget v).Runs s E fun ip => Q (some (ip, 16 * e))) :
    (dirlookup sb dp name).Runs s E Q := by
  have htype : (s.inode dp).din.type = T_DIR := by
    rw [hh.node] at hdir
    exact hdir
  have hsize := hh.size
  rw [hh.bytes] at missing found hw
  rw [hh.bytes] at hsize
  have hin : ∀ e, e < (dir (content s.disk (s.inode dp).din)).size ↔
      16 * e + 16 ≤ (s.inode dp).din.size := by
    intro e
    show e < (content s.disk (s.inode dp).din).length / 16 ↔ _
    omega
  cases hf : (dir (content s.disk (s.inode dp).din)).find (nameOf name) with
  | none =>
    have hnone := Slots.find_eq_none.mp hf
    refine dirlookup_missing htype ⟨by omega, fun e he hm => ?_, fun e he => ?_⟩ (hh.size_lt hc)
      (missing hf)
    · have he' : 16 * e + 16 ≤ (s.inode dp).din.size := by omega
      exact hnone e ((hin e).mpr he') _ ((slot_iff_matches he').mp hm)
    · exact hh.mapped_entry hc he
  | some e =>
    obtain ⟨he, ⟨v, hv⟩, hfirst⟩ := Slots.find_eq_some.mp hf
    have he' := (hin e).mp he
    obtain ⟨hinum, -⟩ := slot_inum hv
    refine dirlookup_found htype ⟨he', ?_, fun e' hlt hm => ?_, fun e' hle => ?_⟩
      (hh.size_lt hc) ?_
    · rw [slot_iff_matches he', hinum]
      exact hv
    · exact hfirst e' hlt _ ((slot_iff_matches (by omega)).mp hm)
    · exact hh.mapped_entry hc (by omega)
    · rw [direntOf_eq he', hinum]
      exact found e v hf hv

theorem emptyDirent_runs {Q : Nat → State → Prop}
    (h : Q (16 * (dir (files sb s.disk d).data).gap) s) (hk : k ≤ (dir (files sb s.disk d).data).gap)
    (hm : k + m = (dir (files sb s.disk d).data).size) :
    (emptyDirent sb dp m (16 * k)).Runs s E Q := by
  have hsize := hh.size
  have hgap : (dir (files sb s.disk d).data).gap ≤ _ := Slots.gap_le
  induction m generalizing k with
  | zero =>
    obtain rfl : k = (dir (files sb s.disk d).data).gap := by omega
    exact .ret h
  | succ m ih =>
    have hin : 16 * k + 16 ≤ (s.inode dp).din.size := by
      have : k + (m + 1) = (files sb s.disk d).data.length / 16 := hm
      omega
    refine .seq (readDirent_runs hin (hh.size_lt hc) (hh.mapped_entry hc (by omega)) ?_)
    rw [direntOf_eq hin, ← hh.bytes]
    split
    · next h0 =>
      have : k = (dir (files sb s.disk d).data).gap := by
        refine Nat.le_antisymm hk (Nat.le_of_not_lt fun hlt => ?_)
        exact Slots.slot_before_gap hlt (slot_eq_none.mpr h0)
      rw [this]
      exact .ret h
    · next h0 =>
      refine ih (k := k + 1) ?_ (by omega)
      refine Nat.lt_of_le_of_ne hk ?_
      rintro rfl
      exact h0 (slot_eq_none.mp (Slots.slot_gap (by omega)))

end

/-! ## Space for an entry -/

/-- There are not enough free blocks to map block `bn` of the inode `din`: none, or only one where
    an indirect block is needed too. -/
def Full (sb : Superblock) (disk : Disk) (din : Dinode) (bn : Nat) : Prop :=
  (∀ c < sb.size, InUse sb disk c) ∨
    NDIRECT ≤ bn ∧ din.addrs NDIRECT = 0 ∧ ∃ b, ∀ c < sb.size, c ≠ b → InUse sb disk c

/-- An entry of an indirect block that has just been allocated can be mapped if another block is
    free. -/
theorem bmapEntry_new {c : Nat} {y : Inode} (hsb : sb.Ok) (h : Blocks sb s.disk D)
    (hfree : ¬ InUse sb s.disk c) (hout : 1 ≤ s.outstanding) :
    (bmapEntry sb c bn).Runs ((s.alloc sb c).setInode ip y) (fun _ => True) fun addr _ =>
      addr = 0 ↔ ∀ b < sb.size, b ≠ c → InUse sb s.disk b := by
  have hlo := h.free_data hfree
  have huse : ∀ b < sb.size, InUse sb (allocDisk sb s.disk c) b ↔ InUse sb s.disk b ∨ b = c :=
    fun b hb => inUse_setBit (allocDisk_bitmap hsb hlo hb)
  have hzero : (((s.alloc sb c).setInode ip y).disk c).u32 (4 * bn) = 0 := by
    show (allocDisk sb s.disk c c).u32 (4 * bn) = 0
    rw [allocDisk, update_self]
    exact zeroes_u32
  refine bmapEntry_runs (.inl trivial) hout (fun hc => absurd hzero hc) (fun _ hall => ?_)
    fun _ b hb hbfree => ?_
  · exact iff_of_true rfl fun b hb hne => ((huse b hb).mp (hall b hb)).resolve_right hne
  · have hnot := mt (huse b hb).mpr hbfree
    rw [not_or] at hnot
    refine iff_of_false (fun h0 => ?_) fun hall => hnot.1 (hall b hb hnot.2)
    have := h.free_data hnot.1
    have := hsb.data
    omega

theorem bmap_eq_zero (hsb : sb.Ok) (h : Blocks sb s.disk D) (hip : (s.inode ip).din = D i)
    (hbn : bn < MAXFILE) (hout : 1 ≤ s.outstanding) :
    (bmap sb ip bn).Runs s (fun _ => True) fun addr _ =>
      addr = 0 ↔ blockOf s.disk (D i) bn = 0 ∧ Full sb s.disk (D i) bn := by
  have hpos : ∀ c, ¬ InUse sb s.disk c → c ≠ 0 := by
    intro c hfree
    have := h.free_data hfree
    have := hsb.data
    omega
  unfold bmap
  by_cases hd : bn < NDIRECT
  · have hslot : blockOf s.disk (D i) bn = (s.inode ip).din.addrs bn := by
      rw [blockOf, dataSlot, if_pos hd, hip]
      rfl
    rw [if_pos hd, hslot]
    refine bmapAddr_runs (.inl trivial) hout (fun h0 => ?_) (fun h0 hall => ?_) fun h0 c hc hfree => ?_
    · exact iff_of_false h0 fun hc => h0 hc.1
    · exact iff_of_true rfl ⟨h0, .inl hall⟩
    · refine iff_of_false (hpos c hfree) ?_
      rintro ⟨-, hall | ⟨hge, -⟩⟩
      · exact hfree (hall c hc)
      · omega
  · have hj : bn - NDIRECT < NINDIRECT := by
      simp only [MAXFILE] at hbn
      omega
    rw [if_neg hd, if_pos hj]
    have hslot : blockOf s.disk (D i) bn = if (D i).addrs NDIRECT = 0 then 0 else
        (s.disk ((D i).addrs NDIRECT)).u32 (4 * (bn - NDIRECT)) := by
      rw [blockOf, dataSlot, if_neg hd]
      rfl
    rw [hslot, ← hip]
    refine .bind (R := fun addr σ =>
      (addr ≠ 0 ∧ (s.inode ip).din.addrs NDIRECT = addr ∧ s = σ) ∨
      (addr = 0 ∧ (s.inode ip).din.addrs NDIRECT = 0 ∧ ∀ c < sb.size, InUse sb s.disk c) ∨
      (addr ≠ 0 ∧ (s.inode ip).din.addrs NDIRECT = 0 ∧ addr < sb.size ∧ ¬ InUse sb s.disk addr ∧
        ∃ y, σ = (s.alloc sb addr).setInode ip y)) ?_ ?_
    · refine bmapAddr_runs (.inl trivial) hout (fun h0 => .inl ⟨h0, rfl, rfl⟩)
        (fun h0 hall => .inr (.inl ⟨rfl, h0, hall⟩)) fun h0 c hc hfree => .inr (.inr ?_)
      rw [if_neg (hpos c hfree)]
      exact ⟨hpos c hfree, h0, hc, hfree, _, rfl⟩
    · rintro addr σ (⟨h0, rfl, rfl⟩ | ⟨rfl, hind, hall⟩ | ⟨h0, hind, hc, hfree, y, rfl⟩)
      · rw [if_neg h0, if_neg h0]
        refine bmapEntry_runs (.inl trivial) hout (fun h1 => ?_) (fun h1 hall => ?_)
          fun h1 c hc hfree => ?_
        · exact iff_of_false h1 fun hc => h1 hc.1
        · exact iff_of_true rfl ⟨h1, .inl hall⟩
        · refine iff_of_false (hpos c hfree) ?_
          rintro ⟨-, hall | ⟨-, hind, -⟩⟩
          · exact hfree (hall c hc)
          · exact h0 hind
      · rw [if_pos rfl, if_pos hind]
        exact .ret (iff_of_true rfl ⟨rfl, .inl hall⟩)
      · rw [if_neg h0, if_pos hind]
        refine (bmapEntry_new hsb h hfree hout).mono fun a _ ha => ha.trans ?_
        refine ⟨fun hall => ⟨rfl, .inr ⟨by omega, hind, addr, hall⟩⟩, ?_⟩
        rintro ⟨-, hall | ⟨-, -, b, hall⟩⟩ c' hc' hne
        · exact absurd (hall addr hc) hfree
        · by_contra hc''
          have hb : addr = b := by_contra fun hab => hfree (hall addr hc hab)
          exact hc'' (hall c' hc' (hb ▸ hne))

/-- There is no space for entry `e` of inode `d`. -/
def NoSpace (sb : Superblock) (disk : Disk) (d e : Nat) : Prop :=
  MAXFILE * BSIZE < 16 * e + 16 ∨
    blockOf disk (live sb disk d) (e / 64) = 0 ∧ Full sb disk (live sb disk d) (e / 64)

theorem writeDirent_space (hsb : sb.Ok) (hc : Consistent sb s.disk) (hh : Holds sb s dp d)
    (hout : 1 ≤ s.outstanding) (he : 16 * e ≤ (s.inode dp).din.size) :
    (writeDirent sb dp (16 * e) x).Runs s (fun _ => True) fun r _ =>
      r = some 16 ↔ ¬ NoSpace sb s.disk d e := by
  have hlt := hh.size_lt hc
  refine .seq (inodeAt_runs ?_)
  have hmax := hc.size_le d
  rw [hh.live] at hmax
  have hwrap : ¬ ((s.inode dp).din.size < 16 * e ∨ (16 * e + 16) % 2 ^ 32 < 16 * e) := by
    simp only [MAXFILE, NDIRECT, NINDIRECT, BSIZE] at hmax
    omega
  rw [if_neg hwrap]
  split
  · next hbig =>
    exact .ret (iff_of_false (by simp) fun hn => hn (.inl hbig))
  rename_i hbig
  have hdiv : 16 * e / BSIZE = e / 64 := entry_div (j := 0) (by decide)
  have hmod : 16 * e % BSIZE + 16 ≤ BSIZE := by
    simp only [BSIZE]
    omega
  have hbn : e / 64 < MAXFILE := by
    simp only [MAXFILE, NDIRECT, NINDIRECT, BSIZE] at hbig ⊢
    omega
  -- one round writes the whole entry, if it gets a block
  refine .bind (R := fun r σ => (r.1 = 16 ↔ ¬ NoSpace sb s.disk d e) ∧ 1 ≤ σ.outstanding)
    ?_ ?_
  · unfold writeiLoop
    rw [if_pos (by decide), hdiv]
    refine .bind ((bmap_eq_zero hsb hc.blocks hh.live.symm hbn hout).and
      (bmap_runs (E := fun _ => True) hsb hc.blocks hh.live.symm hbn (.inl trivial) hout)) ?_
    rintro addr σ ⟨ha, D', hb⟩
    have houtσ : 1 ≤ σ.outstanding := hb.logs.outstanding ▸ hout
    split
    · next h0 =>
      exact .ret ⟨iff_of_false (by simp) fun hn => hn (.inr (ha.mp h0)), houtσ⟩
    · next h0 =>
      have hspace : ¬ NoSpace sb s.disk d e := fun hn =>
        hn.elim hbig fun hf => h0 (ha.mpr hf)
      have hk : min (16 - 0) (BSIZE - 16 * e % BSIZE) = 16 := by
        simp only [BSIZE] at hmod ⊢
        omega
      simp only [hk]
      refine .seq (copyBlock_runs (.inl trivial) houtσ (fun _ => ?_) fun hr =>
        absurd hr (by simp))
      rw [if_pos rfl]
      exact .ret ⟨iff_of_true rfl hspace, houtσ⟩
  · rintro ⟨tot, off⟩ σ ⟨htot, hσ⟩
    refine .seq (onDin_runs (.seq (iupdate_runs (.inl trivial) hσ (.ret ?_))))
    rw [Option.some_inj]
    exact htot

/-! ## `dirlink` -/

theorem Sets.refl (hc : Consistent sb s.disk) (hh : Holds sb s dp d) :
    Sets sb dp d s s (files sb s.disk d) := by
  refine ⟨hc, (update_eq_self ..).symm, ?_, fun _ _ _ => rfl, rfl, rfl⟩
  rw [← hh.din]
  exact (update_eq_self ..).symm

theorem setEntry_rounds : rounds (16 * e) 16 = 1 := by
  rw [rounds, if_neg (by decide)]
  simp only [BSIZE]
  omega

/-- An entry is written in full or not at all. -/
theorem writeDirent_runs {Q : Option Nat → State → Prop} (hsb : sb.Ok) (hc : Consistent sb s.disk)
    (hh : Holds sb s dp d) (hroom : Room sb E s 7) (hout : 1 ≤ s.outstanding)
    (he : 16 * e ≤ (files sb s.disk d).data.length)
    (fail : ∀ r s', r ≠ some 16 → NoSpace sb s.disk d e →
      Sets sb dp d s s' (files sb s.disk d) → Q r s')
    (done : ∀ s', ¬ NoSpace sb s.disk d e → Sets sb dp d s s' { files sb s.disk d with
      data := setEntry (files sb s.disk d).data e x } → Q (some 16) s') :
    (writeDirent sb dp (16 * e) x).Runs s E Q := by
  have hsize := hh.size
  have hlt := hh.size_lt hc
  have hsets : (writeDirent sb dp (16 * e) x).Runs s E fun r s' =>
      r ≠ some 16 ∧ Sets sb dp d s s' (files sb s.disk d) ∨ r = some 16 ∧
        Sets sb dp d s s' { files sb s.disk d with
          data := setEntry (files sb s.disk d).data e x } := by
    refine writei_sets hsb hc hh (by rw [setEntry_rounds]; exact hroom) hout (by omega) (by decide)
      le_rfl (fun _ => .inl ⟨by simp, Sets.refl hc hh⟩) fun _ n s' hn _ hwhole hset => ?_
    have hn' : n = 0 ∨ n = 16 := by
      simp only [BSIZE] at hwhole
      omega
    rcases hn' with rfl | rfl
    · have hsame : splice (files sb s.disk d).data (16 * e) (Src.first ⟨x.bytes, 16⟩ 0) =
          (files sb s.disk d).data := by
        simp [splice, Src.first]
      rw [hsame] at hset
      exact .inl ⟨by simp, hset⟩
    · exact .inr ⟨rfl, hset⟩
  refine (hsets.and (writeDirent_space hsb hc hh hout (hsize ▸ he))).mono ?_
  rintro r s' ⟨⟨hr, hset⟩ | ⟨rfl, hset⟩, hspace⟩
  · exact fail r s' hr (by_contra fun hn => hr (hspace.mpr hn)) hset
  · exact done s' (hspace.mp rfl) hset

/-- The entry of an inode that nothing refers to was used for a moment. -/
def Touched (s s' : State) : Prop :=
  s' = s ∨ ∃ e y, (s.inode e).ref = 0 ∧ y.ref = 0 ∧ y.lock = (s.inode e).lock ∧ s' = s.setInode e y

/-- A reference is taken and given back. -/
theorem igetput_runs {Q : Unit → State → Prop}
    (full : (∀ e < NINODE, 0 < (s.inode e).ref) → E (some "iget: no inodes"))
    (next : ∀ s', Touched s s' → Q () s') :
    (iget i).Runs s E fun ip σ => (iput sb t ip).Runs σ E Q := by
  refine iget_runs (fun ip _ hr _ => ?_) (fun _ ip _ hr => ?_) full
  · refine iput_runs (fun hl => ?_) (next _ (.inl ?_))
    · rw [setInode_self] at hl
      have : (s.inode ip).ref + 1 = 1 := hl.1
      omega
    · rw [setInode_self, setInode_setInode]
      exact setInode_inode
  · refine iput_runs (fun hl => ?_) (next _ (.inr ⟨ip, _, hr, ?_, ?_, setInode_setInode ..⟩))
    · rw [setInode_self] at hl
      exact absurd hl.2.1 (by simp)
    · rw [setInode_self]
      rfl
    · rw [setInode_self]

/-- The entry for a name that `dirlink` writes. -/
def linkEntry (name : Bytes) (inum : Nat) : Dirent := ⟨inum % 2 ^ 16, strncpy name DIRSIZ⟩

theorem setEntry_whole (hw : data.length % 16 = 0)
    (he : e ≤ (dir data).size) : (setEntry data e x).length % 16 = 0 := by
  have he' : e ≤ data.length / 16 := he
  rw [setEntry_length (by omega)]
  omega

/-- What `dirlink` puts into the gap. -/
theorem dir_linkEntry (hw : data.length % 16 = 0) :
    dir (setEntry data (dir data).gap (linkEntry name inum)) =
      (dir data).set (dir data).gap (linkEntry name inum).slot :=
  dir_setEntry hw Slots.gap_le (Nat.mod_lt _ (Nat.two_pow_pos 16)) fun _ hi => strncpy_beyond _ hi

theorem linkEntry_slot (hi : inum % 2 ^ 16 ≠ 0) :
    (linkEntry name inum).slot = some (nameOf name, inum % 2 ^ 16) := by
  rw [Dirent.slot, linkEntry, if_neg hi, nameOf_strncpy]

theorem dirlink_runs {Q : Bool → State → Prop} (hsb : sb.Ok) (hc : Consistent sb s.disk)
    (hh : Holds sb s dp d) (hw : (files sb s.disk d).data.length % 16 = 0)
    (hdir : (files sb s.disk d).type = T_DIR) (hroom : Room sb E s 7) (hout : 1 ≤ s.outstanding)
    (full : (dir (files sb s.disk d).data).find (nameOf name) ≠ none →
      (∀ e < NINODE, 0 < (s.inode e).ref) → E (some "iget: no inodes"))
    (there : (dir (files sb s.disk d).data).find (nameOf name) ≠ none →
      ∀ s', Touched s s' → Q false s')
    (fail : (dir (files sb s.disk d).data).find (nameOf name) = none →
      NoSpace sb s.disk d (dir (files sb s.disk d).data).gap →
      ∀ s', Sets sb dp d s s' (files sb s.disk d) → Q false s')
    (done : (dir (files sb s.disk d).data).find (nameOf name) = none →
      ¬ NoSpace sb s.disk d (dir (files sb s.disk d).data).gap →
      ∀ s', Sets sb dp d s s' { files sb s.disk d with
        data := setEntry (files sb s.disk d).data (dir (files sb s.disk d).data).gap
          (linkEntry name inum) } → Q true s') :
    (dirlink sb t dp name inum).Runs s E Q := by
  have hgap : (dir (files sb s.disk d).data).gap ≤ (files sb s.disk d).data.length / 16 :=
    Slots.gap_le
  cases hf : (dir (files sb s.disk d).data).find (nameOf name) with
  | some e =>
    have hne : (dir (files sb s.disk d).data).find (nameOf name) ≠ none := by simp [hf]
    -- what is looked up is dropped at once
    refine .seq (dirlookup_runs hc hh hw hdir (fun hc => absurd hc hne) fun e v _ _ => ?_)
    exact (igetput_runs (full hne) (there hne)).mono fun ip σ hput =>
      hput.bind fun _ σ' hq => .ret hq
  | none =>
    refine .seq (dirlookup_runs hc hh hw hdir (fun _ => ?_)
      fun e v hs _ => absurd hs (by simp [hf]))
    refine .seq (inodeAt_runs ?_)
    have hentries : 0 + entries (s.inode dp).din.size = (dir (files sb s.disk d).data).size := by
      rw [← hh.size, entries]
      show _ = (files sb s.disk d).data.length / 16
      omega
    refine .seq (emptyDirent_runs hc hh hw ?_ (Nat.zero_le _) hentries)
    refine .seq (writeDirent_runs hsb hc hh hroom hout (by omega)
      (fun r s' hr hno hset => .ret ?_) fun s' hsp hset => .ret ?_)
    · rw [decide_eq_false hr]
      exact fail hf hno s' hset
    · rw [decide_eq_true rfl]
      exact done hf hsp s' hset

/-! ## Directories in a call -/

/-- There is space for an entry that is there. -/
theorem Holds.space (hh : Holds sb s dp d) (hc : Consistent sb s.disk)
    (he : e < (dir (files sb s.disk d).data).size) : ¬ NoSpace sb s.disk d e := by
  have hsize := hh.size
  have hmax := hc.size_le d
  have hin : e < (files sb s.disk d).data.length / 16 := he
  rw [NoSpace, hh.live]
  rw [hh.live] at hmax
  rintro (hno | ⟨hno, -⟩)
  · omega
  · exact hh.mapped_entry hc (by omega) hno

section

variable (hsb : sb.Ok) (hs : Since sb s₀ s F g L) (hr : Refs s dp d)
  (hv : (s.inode dp).valid = true)
include hs hr hv

/-- `dirlookup` finds what the table of the directory has. -/
theorem dirlookup_since {Q : Option (Nat × Nat) → State → Prop}
    (hw : (F d).data.length % 16 = 0) (hdir : (F d).type = T_DIR)
    (hlt : ∀ e n v, e < (dir (F d).data).size → (dir (F d).data).slot e = some (n, v) →
      v < sb.ninodes)
    (hfull : (∀ e < NINODE, 0 < g e) → E (some "iget: no inodes"))
    (missing : (dir (F d).data).find (nameOf name) = none → Q none s)
    (found : ∀ e v, (dir (F d).data).find (nameOf name) = some e →
      (dir (F d).data).slot e = some (nameOf name, v) → ∀ ip s',
      Since sb s₀ s' F (update g ip (g ip + 1)) L → Refs s' ip v → s'.disk = s.disk →
      Steady s s' → (g ip = 0 ↔ Idle s v) → Q (some (ip, 16 * e)) s') :
    (dirlookup sb dp name).Runs s E Q := by
  have hnode := hs.node hr hv
  rw [← hnode] at hw hdir hlt missing found
  refine dirlookup_runs hs.consistent (hs.table.holds hr hv) hw hdir missing fun e v hf hsl => ?_
  exact iget_since hs (hlt e _ v (Slots.find_eq_some.mp hf).1 hsl) hfull (found e v hf hsl)

variable (hlog : E (some "too big a transaction")) (hout : 1 ≤ s₀.outstanding)
include hsb hlog hout

end

end Xv6.Fs
