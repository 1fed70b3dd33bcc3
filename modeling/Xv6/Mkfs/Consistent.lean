import Xv6.Mkfs.Image

/-!
# Is the image consistent?

`Consistent` is what a file system checker would look for in an image. `mkfs` rounds the size of
the root directory up to a whole number of blocks by adding one to the quotient, so that a root
directory that already fills its last block gets the size of one block more than it has.
-/

namespace Xv6.Mkfs

open Lib Fs List

/-- The number of entries of all directories, other than ".", that name inode `i`. -/
def links (img : Disk) (i : Nat) : Nat :=
  ((range NINODES).map fun dir =>
    let d := dinodeOf sb img dir
    if d.type = T_DIR then
      (range (d.size / 16)).countP fun e =>
        (direntOf img d e).inum = i ∧ nameOf (direntOf img d e).name ≠ [46]
    else 0).sum

structure Consistent (img : Disk) : Prop where
  mapped : ∀ i < NINODES, ∀ bn, bn * BSIZE < (dinodeOf sb img i).size →
    nmeta ≤ blockOf img (dinodeOf sb img i) bn ∧ blockOf img (dinodeOf sb img i) bn < FSSIZE
  once : ∀ i < NINODES, ∀ i' < NINODES, ∀ s s',
    slotOf img (dinodeOf sb img i) s = slotOf img (dinodeOf sb img i') s' →
    slotOf img (dinodeOf sb img i) s ≠ 0 → i = i' ∧ s = s'
  bitmap : ∀ b < FSSIZE, bitOf (img (bblock sb b)) (b % BPB) = true ↔
    b < nmeta ∨ ∃ i < NINODES, ∃ s, slotOf img (dinodeOf sb img i) s = b
  nlink : ∀ i < NINODES, 0 < i → (dinodeOf sb img i).nlink = links img i

variable {files : List Input} {img : Disk} {fb e i j k : Nat} {D : Nat → Dinode}

/-! ## The root directory -/

/-- An element of a list made of pieces of the same length. -/
theorem getD_flatten_of_length {L : List (List UInt8)} (hL : ∀ l ∈ L, l.length = k) (hj : j < k) :
    L.flatten.getD (k * e + j) 0 = (L.getD e []).getD j 0 := by
  induction L generalizing e with
  | nil => simp
  | cons l L ih =>
    have hl : l.length = k := hL l mem_cons_self
    rw [flatten_cons]
    simp only [getD_eq_getElem?_getD] at ih ⊢
    cases e with
    | zero => rw [mul_zero, zero_add, getElem?_append_left (by omega)]; rfl
    | succ e =>
      rw [getElem?_append_right (by rw [hl, Nat.mul_succ]; omega), hl,
        show k * (e + 1) + j - k = k * e + j by rw [Nat.mul_succ]; omega,
        ih fun l hl => hL l (mem_cons_of_mem _ hl)]
      rfl

theorem rootBytes_getD {ns : List (List UInt8)} (he : e < ns.length) (hj : j < 16) :
    (rootBytes ns).getD (16 * e + j) 0 =
      Dirent.bytes ⟨xshort (entryInum e), strncpy (array ns[e]) DIRSIZ⟩ j := by
  have hL : ∀ l ∈ ns.mapIdx (fun e n => direntBytes (entryInum e) n), l.length = 16 := by
    intro l hl
    obtain ⟨i, h, rfl⟩ := mem_mapIdx.mp hl
    exact direntBytes_length ..
  rw [rootBytes, getD_flatten_of_length hL hj, getD_eq_getElem _ [] (by simpa using he),
    getElem_mapIdx, direntBytes, getD_eq_getElem _ 0 (by simpa using hj),
    getElem_map, getElem_range]

theorem Image.root_size (h : Image files img fb D) : (D ROOTINO).size = rootSize files := by
  rw [h.node, if_pos rfl]

theorem contents_root_length : (contents files ROOTINO).length = 16 * (files.length + 2) := by
  rw [contents, if_pos rfl, rootBytes_length, names_length]

/-- Bytes of the root directory. -/
theorem Image.root_byte (h : Image files img fb D) (hk : k / BSIZE * BSIZE < 16 * (files.length + 2)) :
    contentByte img (D ROOTINO) k = (rootBytes (names files)).getD k 0 := by
  have := h.content.byte ROOTINO k ((h.content.mapped ROOTINO _).mpr (by rwa [contents_root_length]))
  rwa [contents, if_pos rfl] at this

/-- The entries that `mkfs` writes. -/
theorem Image.entry (h : Image files img fb D) (hn : files.length + 1 < NINODES)
    (he : e < (names files).length) :
    direntOf img (D ROOTINO) e = ⟨entryInum e, strncpy (array (names files)[e]) DIRSIZ⟩ := by
  have he' : e < files.length + 2 := by rwa [names_length] at he
  have hlt : entryInum e < 2 ^ 16 := by
    simp only [entryInum, ROOTINO, NINODES] at *
    omega
  have hx : xshort (entryInum e) = entryInum e := Nat.mod_eq_of_lt hlt
  refine (Dirent.ofBytes_congr fun j hj => ?_).trans
    (Dirent.ofBytes_bytes (x := ⟨entryInum e, strncpy (array (names files)[e]) DIRSIZ⟩) hlt ?_)
  · rw [h.root_byte (by simp only [BSIZE]; omega), rootBytes_getD he hj, hx]
  · exact fun i hi => strncpy_beyond _ hi

/-- The entries after them, up to the end of the last block, are free. -/
theorem Image.entry_free (h : Image files img fb D) (he : files.length + 2 ≤ e)
    (hlt : 16 * e / BSIZE * BSIZE < 16 * (files.length + 2)) :
    (direntOf img (D ROOTINO) e).inum = 0 := by
  refine leGet_eq_zero fun j _ hj => ?_
  have hk : (16 * e + j) / BSIZE * BSIZE < 16 * (files.length + 2) := by
    rwa [entry_div (by omega), ← entry_div (j := 0) (by omega), add_zero]
  rw [h.root_byte hk, getD_eq_default]
  rw [rootBytes_length, names_length]
  omega

theorem fsname_string (f : Input) : 0 ∉ f.fsname := by
  have hshort : 0 ∉ f.shortname := by
    rw [Input.shortname]
    split
    · exact fun h => f.string (mem_of_mem_drop h)
    · exact f.string
  rw [Input.fsname]
  split
  · exact fun h => hshort (mem_of_mem_tail h)
  · exact hshort

theorem names_string (he : e < (names files).length) : 0 ∉ (names files)[e] := by
  have hmem := getElem_mem he
  generalize (names files)[e] = n at hmem
  rcases mem_cons.mp hmem with rfl | hmem
  · decide
  rcases mem_cons.mp hmem with rfl | hmem
  · decide
  obtain ⟨f, -, rfl⟩ := mem_map.mp hmem
  exact fsname_string f

theorem Image.entry_name (h : Image files img fb D) (hn : files.length + 1 < NINODES)
    (he : e < (names files).length) :
    nameOf (direntOf img (D ROOTINO) e).name = ((names files)[e]).take DIRSIZ := by
  rw [h.entry hn he, nameOf_strncpy, nameOf_array (names_string he)]

/-! ## Links -/

theorem kinds_dir (hi : kinds files i = T_DIR) : i = ROOTINO := by
  rw [kinds] at hi
  split at hi
  · assumption
  · split at hi <;> cases hi

/-- Only the root directory has entries. -/
theorem Image.links_eq (h : Image files img fb D) (i : Nat) : links img i =
    (range (rootSize files / 16)).countP fun e =>
      (direntOf img (D ROOTINO) e).inum = i ∧ nameOf (direntOf img (D ROOTINO) e).name ≠ [46] := by
  have hterm : ∀ dir ∈ range NINODES, (let d := dinodeOf sb img dir
      if d.type = T_DIR then (range (d.size / 16)).countP fun e =>
        (direntOf img d e).inum = i ∧ nameOf (direntOf img d e).name ≠ [46] else 0) =
      if dir = ROOTINO then (range (rootSize files / 16)).countP fun e =>
        (direntOf img (D ROOTINO) e).inum = i ∧ nameOf (direntOf img (D ROOTINO) e).name ≠ [46]
      else 0 := by
    intro dir hdir
    simp only [h.dinode dir (mem_range.mp hdir)]
    by_cases hr : dir = ROOTINO
    · rw [hr, if_pos rfl, if_pos (by rw [h.node]; rfl), h.root_size]
    · rw [if_neg hr, if_neg]
      rw [h.node]
      exact fun hk => hr (kinds_dir hk)
  rw [links, map_congr_left hterm, sum_map_eq_nsmul_single ROOTINO _
    fun dir hdir _ => if_neg hdir, count_eq_one_of_mem nodup_range
    (mem_range.mpr (by decide)), one_nsmul, if_pos rfl]

/-- There is one entry with a property that one entry has. -/
theorem countP_range_eq_one {P : Nat → Prop} [DecidablePred P] {m e : Nat} (he : e < m)
    (hP : ∀ e' < m, P e' ↔ e' = e) : (range m).countP (fun e => decide (P e)) = 1 := by
  rw [← count_eq_one_of_mem nodup_range (mem_range.mpr he), count]
  refine countP_congr fun e' he' => ?_
  rw [decide_eq_true_eq, hP e' (mem_range.mp he'), beq_iff_eq]

theorem countP_range_eq_zero {P : Nat → Prop} [DecidablePred P] {m : Nat}
    (hP : ∀ e < m, ¬ P e) : (range m).countP (fun e => decide (P e)) = 0 := by
  rw [countP_eq_zero]
  intro e he
  rw [decide_eq_true_eq]
  exact hP e (mem_range.mp he)

/-- The root directory does not fill its last block. -/
def Partial (files : List Input) : Prop := (files.length + 2) % 64 ≠ 0

theorem Partial.entry_lt (h : Partial files) (he : e < rootSize files / 16) :
    16 * e / BSIZE * BSIZE < 16 * (files.length + 2) := by
  simp only [Partial, rootSize, BSIZE] at *
  omega

theorem rootSize_ge (files : List Input) : files.length + 2 ≤ rootSize files / 16 := by
  simp only [rootSize, BSIZE]
  omega

/-- Which entry names an inode. -/
theorem Image.entry_inum (h : Image files img fb D) (hn : files.length + 1 < NINODES)
    (hp : Partial files) (he : e < rootSize files / 16) (hi : 0 < i) :
    (direntOf img (D ROOTINO) e).inum = i ↔ e < files.length + 2 ∧ entryInum e = i := by
  by_cases hlt : e < files.length + 2
  · rw [h.entry hn (by rwa [names_length]), and_iff_right hlt]
  · rw [h.entry_free (by omega) (hp.entry_lt he)]
    exact iff_of_false (by omega) fun hc => hlt hc.1

/-- A name that is shorter than `DIRSIZ` is not cut. -/
theorem take_eq_short {s l : List UInt8} (hl : l.length < DIRSIZ) : s.take DIRSIZ = l ↔ s = l := by
  refine ⟨fun h => ?_, fun h => by rw [h, take_of_length_le (by omega)]⟩
  have hlen := congrArg length h
  rw [length_take] at hlen
  rwa [take_of_length_le (by omega)] at h

theorem names_file (hj : j < files.length) (h : j + 2 < (names files).length) :
    (names files)[j + 2] = files[j].fsname := by
  simp [names]

/-! ## The image -/

section

variable (h : Image files img fb D) (hn : files.length + 1 < NINODES)
include h

/-- Where there are no holes, the root directory does not fill its last block. -/
theorem Image.partial_of_consistent (hc : Consistent img) : Partial files := by
  intro h0
  have hlt := hc.mapped ROOTINO (by decide) ((files.length + 2) / 64)
  rw [h.dinode ROOTINO (by decide), h.root_size] at hlt
  have hge := (hlt (by simp only [rootSize, BSIZE]; omega)).1
  have hb : blockOf img (D ROOTINO) ((files.length + 2) / 64) = 0 := by
    by_contra hb
    have := (h.content.mapped ROOTINO _).mp hb
    rw [contents_root_length] at this
    simp only [BSIZE] at this
    omega
  rw [hb] at hge
  exact absurd hge (by decide)

theorem Image.mapped (hp : Partial files) (i bn : Nat) (hb : bn * BSIZE < (D i).size) :
    nmeta ≤ blockOf img (D i) bn ∧ blockOf img (D i) bn < FSSIZE := by
  have hlen : bn * BSIZE < (contents files i).length := by
    rw [h.node] at hb
    by_cases hi : i = ROOTINO
    · rw [hi, contents_root_length]
      simp only [if_pos hi, rootSize, BSIZE, Partial] at hb hp ⊢
      omega
    · simpa only [if_neg hi] using hb
  exact h.content.owns.range (i, dataSlot bn) ((h.content.mapped i bn).mpr hlen)

theorem Image.slot_free (hk : kinds files i = 0) (s : Slot) : slotOf img (D i) s = 0 := by
  rw [h.free i hk]
  cases s <;> rfl

theorem Image.bits (hn : files.length + 1 < NINODES) (b : Nat) (hb : b < FSSIZE) :
    bitOf (img (bblock sb b)) (b % BPB) = true ↔
      b < nmeta ∨ ∃ i < NINODES, ∃ s, slotOf img (dinodeOf sb img i) s = b := by
  have hlt : b < BPB := hb.trans (by decide)
  rw [bblock, Nat.div_eq_of_lt hlt, zero_add, Nat.mod_eq_of_lt hlt, h.bitmap b hlt,
    decide_eq_true_eq]
  have hlo := h.content.lo
  by_cases hm : b < nmeta
  · exact iff_of_true (by omega) (.inl hm)
  · rw [or_iff_right hm, h.content.owns.used b (by omega) hb]
    constructor
    · rintro ⟨⟨i, s⟩, hs⟩
      have hi : i < NINODES := by
        by_contra hi
        rw [refs, h.slot_free (by
          rw [kinds, if_neg (by simp only [ROOTINO, NINODES] at *; omega), if_neg (by omega)])] at hs
        exact hm (hs ▸ by decide)
      refine ⟨i, hi, s, ?_⟩
      rw [h.dinode i hi]
      exact hs
    · rintro ⟨i, hi, s, hs⟩
      rw [h.dinode i hi] at hs
      exact ⟨(i, s), hs⟩

include hn

/-- The links of the root directory: its own "..". -/
theorem Image.links_root (hp : Partial files) : links img ROOTINO = 1 := by
  have hlen := names_length files
  have hge := rootSize_ge files
  rw [h.links_eq]
  refine countP_range_eq_one (e := 1) (by omega) fun e he => ?_
  rw [h.entry_inum hn hp he (by decide)]
  constructor
  · rintro ⟨⟨hlt, hi⟩, hname⟩
    have hle : e ≤ 1 := by
      simp only [entryInum, ROOTINO] at hi
      omega
    by_contra hne
    obtain rfl : e = 0 := by omega
    exact hname (h.entry_name hn (by omega))
  · rintro rfl
    refine ⟨⟨by omega, rfl⟩, ?_⟩
    rw [h.entry_name hn (by omega)]
    simp [names]

/-- The links of a file: its entry, unless it is called ".". -/
theorem Image.links_file (hp : Partial files) (hj : j < files.length) :
    links img (j + 2) = if files[j].fsname = [46] then 0 else 1 := by
  have hlen := names_length files
  have hge := rootSize_ge files
  have hentry : ∀ e < rootSize files / 16, (direntOf img (D ROOTINO) e).inum = j + 2 ↔
      e = j + 2 := by
    intro e he
    rw [h.entry_inum hn hp he (by omega)]
    simp only [entryInum, ROOTINO]
    omega
  have hname : nameOf (direntOf img (D ROOTINO) (j + 2)).name = files[j].fsname.take DIRSIZ := by
    rw [h.entry_name hn (by omega), names_file hj]
  rw [h.links_eq]
  split
  · next hdot =>
    refine countP_range_eq_zero fun e he hc => ?_
    rw [hentry e he] at hc
    obtain ⟨rfl, hne⟩ := hc
    rw [hname, hdot] at hne
    exact hne rfl
  · next hdot =>
    refine countP_range_eq_one (e := j + 2) (by omega) fun e he => ?_
    rw [hentry e he]
    refine ⟨fun hc => hc.1, ?_⟩
    rintro rfl
    refine ⟨rfl, ?_⟩
    rw [hname, Ne, take_eq_short (by decide)]
    exact hdot

/-- A free inode has no links. -/
theorem Image.links_free (hp : Partial files) (hi : files.length + 2 ≤ i) : links img i = 0 := by
  rw [h.links_eq]
  refine countP_range_eq_zero fun e he hc => ?_
  rw [h.entry_inum hn hp he (by omega)] at hc
  have := hc.1.2
  simp only [entryInum, ROOTINO] at this
  omega

theorem Image.no_dot (hc : Consistent img) : ∀ f ∈ files, f.fsname ≠ [46] := by
  intro f hf hdot
  obtain ⟨j, hj, rfl⟩ := getElem_of_mem hf
  have hi : j + 2 < NINODES := by omega
  have hlinks := hc.nlink (j + 2) hi (by omega)
  rw [h.links_file hn (h.partial_of_consistent hc) hj, if_pos hdot, h.dinode _ hi, h.node, kinds,
    if_neg (by simp only [ROOTINO]; omega), if_pos ⟨by omega, by omega⟩] at hlinks
  cases hlinks

theorem Image.consistent (hp : Partial files) (hdot : ∀ f ∈ files, f.fsname ≠ [46]) :
    Consistent img := by
  refine ⟨fun i hi bn hb => ?_, fun i hi i' hi' s s' he h0 => ?_, h.bits hn, fun i hi hpos => ?_⟩
  · rw [h.dinode i hi] at hb ⊢
    exact h.mapped hp i bn hb
  · rw [h.dinode i hi] at he h0
    rw [h.dinode i' hi'] at he
    exact Prod.mk.inj (h.content.owns.inj (i, s) (i', s') he h0)
  · rw [h.dinode i hi, h.node]
    by_cases hr : i = ROOTINO
    · rw [hr, h.links_root hn hp]
      rfl
    by_cases hf : i < files.length + 2
    · obtain ⟨j, rfl⟩ : ∃ j, i = j + 2 := ⟨i - 2, by simp only [ROOTINO] at hr; omega⟩
      have hj : j < files.length := by omega
      rw [h.links_file hn hp hj, if_neg (hdot _ (getElem_mem hj)), kinds, if_neg hr,
        if_pos ⟨by omega, hf⟩]
      rfl
    · rw [h.links_free hn hp (by omega), kinds, if_neg hr, if_neg (by omega)]
      rfl

end

/-- The image is consistent if the root directory does not fill its last block and no file is
    called ".". -/
theorem mkfs_consistent_iff (hn : files.length + 1 < NINODES) (hm : Makes files img) :
    Consistent img ↔ (files.length + 2) % 64 ≠ 0 ∧ ∀ f ∈ files, f.fsname ≠ [46] := by
  obtain ⟨fb, D, h⟩ := makes_image hn hm
  exact ⟨fun hc => ⟨h.partial_of_consistent hc, h.no_dot hn hc⟩,
    fun hc => h.consistent hn hc.1 hc.2⟩

/-- A file "cat" of three bytes. -/
def catFile : Input := ⟨[99, 97, 116], [[1, 2, 3]], by decide, by decide⟩

theorem mkfs_consistent_one : ∃ img, Makes [catFile] img ∧ Consistent img := by
  have hn : [catFile].length + 1 < NINODES := by decide
  obtain ⟨img, hm⟩ := makes_of_admissible hn ⟨by decide, by decide, by decide⟩
  exact ⟨img, hm, (mkfs_consistent_iff hn hm).mpr ⟨by decide, by decide⟩⟩

/-- Empty files "fA" to "f~". -/
def emptyFiles : List Input :=
  (finRange 62).map fun i : Fin 62 =>
    ⟨[102, UInt8.ofNat (65 + i.val)], [], by revert i; decide, by decide⟩

/-- With 62 files, whose entries fill the first block of the root directory together with "." and
    "..", `mkfs` makes an image with a hole. -/
theorem mkfs_hole : ∃ img, Makes emptyFiles img ∧ emptyFiles.length + 1 < NINODES ∧
    (emptyFiles.map fun f => f.fsname.take DIRSIZ).Nodup ∧ ¬ Consistent img := by
  have hn : emptyFiles.length + 1 < NINODES := by decide
  obtain ⟨img, hm⟩ := makes_of_admissible hn ⟨by decide, by decide, by decide⟩
  obtain ⟨fb, D, h⟩ := makes_image hn hm
  exact ⟨img, hm, hn, by decide, fun hc => h.partial_of_consistent hc (by decide)⟩

end Xv6.Mkfs
