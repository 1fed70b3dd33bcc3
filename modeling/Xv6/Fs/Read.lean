import Xv6.Fs.Table
import Mathlib.Data.List.TakeWhile

/-!
# Reading inodes and directories

Where the blocks of an inode are there, `readi` returns the bytes of the inode and changes nothing,
and `dirlookup` finds the first entry with the name it looks for. Nothing is assumed of blocks that
are not reached, so that what is read before a hole is known too.
-/

namespace Xv6.Fs

open Lib Function List

variable {sb : Superblock} {s : State} {E : Option String → Prop}
  {t ip dp i b k m n off tot reach bn e : Nat} {d : Dinode} {name : Bytes}

/-- A block of a file that has one is not beyond the last that a file can have. -/
theorem bn_lt_of_blockOf {disk : Disk} (h : blockOf disk d bn ≠ 0) : bn - NDIRECT < NINDIRECT := by
  by_contra hge
  refine h ?_
  have hbn : ¬ bn < NDIRECT := by simp only [NINDIRECT, BSIZE, NDIRECT] at *; omega
  rw [blockOf, dataSlot, if_neg hbn, slotOf]
  split
  · rfl
  · refine u32_beyond ?_
    simp only [NINDIRECT, BSIZE, NDIRECT] at *
    omega

theorem bmapAddr_there {Q : Nat → State → Prop} (h0 : (s.inode ip).din.addrs k ≠ 0)
    (h : Q ((s.inode ip).din.addrs k) s) : (bmapAddr sb ip k).Runs s E Q := by
  refine .seq (inodeAt_runs ?_)
  rw [if_neg h0]
  exact .ret h

/-- `bmap` of a block that is there. -/
theorem bmap_there {Q : Nat → State → Prop} (h0 : blockOf s.disk (s.inode ip).din bn ≠ 0)
    (h : Q (blockOf s.disk (s.inode ip).din bn) s) : (bmap sb ip bn).Runs s E Q := by
  have hlt := bn_lt_of_blockOf h0
  unfold bmap
  by_cases hbn : bn < NDIRECT
  · rw [blockOf, dataSlot, if_pos hbn] at h h0
    rw [if_pos hbn]
    exact bmapAddr_there h0 h
  · rw [if_neg hbn, if_pos hlt]
    rw [blockOf, dataSlot, if_neg hbn, slotOf] at h h0
    have hind : (s.inode ip).din.addrs NDIRECT ≠ 0 := fun hc => h0 (if_pos hc)
    rw [if_neg hind] at h h0
    refine .seq (bmapAddr_there hind ?_)
    rw [if_neg hind]
    refine .seq (bread_runs ?_)
    rw [if_neg h0]
    exact .ret h

/-! ## `readi` -/

/-- The bytes `off` to `off + n` of a file. -/
def slice (disk : Disk) (d : Dinode) (off n : Nat) : List UInt8 :=
  (range n).map fun j => contentByte disk d (off + j)

theorem slice_length {disk : Disk} : (slice disk d off n).length = n := by simp [slice]

theorem slice_add {disk : Disk} :
    slice disk d off (k + m) = slice disk d off k ++ slice disk d (off + k) m := by
  rw [slice, range_add, map_append, map_map]
  refine congrArg₂ _ rfl (map_congr_left fun j _ => ?_)
  simp only [comp_apply, add_assoc]

theorem slice_take {disk : Disk} : (slice disk d off n).take k = slice disk d off (min k n) := by
  rw [slice, ← map_take, take_range, slice]

/-- Inside of one block. -/
theorem slice_block {disk : Disk} (h : k ≤ BSIZE - off % BSIZE) :
    (range k).map (fun j => (disk (blockOf disk d (off / BSIZE))).bytes (off % BSIZE + j)) =
      slice disk d off k := by
  refine map_congr_left fun j hj => ?_
  have hj := mem_range.mp hj
  have hdiv : (off + j) / BSIZE = off / BSIZE := by simp only [BSIZE] at *; omega
  have hmod : (off + j) % BSIZE = off % BSIZE + j := by simp only [BSIZE] at *; omega
  rw [contentByte, hdiv, hmod]

/-- The blocks that hold the bytes `off` to `off + n` are there. -/
def Mapped (disk : Disk) (d : Dinode) (off n : Nat) : Prop :=
  ∀ j < n, blockOf disk d ((off + j) / BSIZE) ≠ 0

/-- What `readi` returns if it is to read `n` bytes that are there, of which `reach` can be
    stored. -/
def readResult (disk : Disk) (d : Dinode) (reach off n : Nat) : Option Nat × List UInt8 :=
  (if n ≤ reach then some n else none, slice disk d off (min n reach))

theorem readiLoop_runs {Q : Option Nat × List UInt8 → State → Prop} {acc : List UInt8}
    (hm : n - tot ≤ m) (htot : tot ≤ n) (hreach : tot ≤ reach)
    (hmap : Mapped s.disk (s.inode ip).din off (n - tot))
    (h : Q (if n ≤ reach then some n else none,
      acc ++ slice s.disk (s.inode ip).din off (min n reach - tot)) s) :
    (readiLoop sb ip reach n m tot off acc).Runs s E Q := by
  induction m generalizing tot off acc with
  | zero =>
    obtain rfl : tot = n := by omega
    rw [if_pos hreach, Nat.min_eq_left hreach, Nat.sub_self] at h
    exact .ret (by simpa [slice] using h)
  | succ m ih =>
    unfold readiLoop
    by_cases hlt : tot < n
    · rw [if_pos hlt]
      have h0 : blockOf s.disk (s.inode ip).din (off / BSIZE) ≠ 0 := hmap 0 (by omega)
      refine .seq (bmap_there h0 ?_)
      rw [if_neg h0]
      refine .seq (bread_runs ?_)
      have hk : 0 < BSIZE - off % BSIZE := by
        have := Nat.mod_lt off (show 0 < BSIZE by decide)
        omega
      generalize hk' : min (n - tot) (BSIZE - off % BSIZE) = k
      simp only []
      rw [slice_block (by omega)]
      by_cases hr : tot + k ≤ reach
      · rw [if_pos hr]
        refine ih (by omega) (by omega) hr (fun j hj => ?_) ?_
        · rw [add_assoc]
          exact hmap (k + j) (by omega)
        · rw [append_assoc, ← slice_add]
          rwa [show k + (min n reach - (tot + k)) = min n reach - tot by omega]
      · rw [if_neg hr, slice_take]
        rw [if_neg (by omega)] at h
        rw [show min n reach - tot = min (reach - tot) k by omega] at h
        exact .ret h
    · obtain rfl : tot = n := by omega
      rw [if_neg hlt]
      rw [if_pos hreach, Nat.min_eq_left hreach, Nat.sub_self] at h
      exact .ret (by simpa [slice] using h)

/-- `readi` from inside of the file. -/
theorem readi_runs {Q : Option Nat × List UInt8 → State → Prop}
    (hoff : off ≤ (s.inode ip).din.size) (hwrap : off + n < 2 ^ 32)
    (hmap : Mapped s.disk (s.inode ip).din off (min n ((s.inode ip).din.size - off)))
    (h : Q (readResult s.disk (s.inode ip).din reach off
      (min n ((s.inode ip).din.size - off))) s) :
    (readi sb ip reach off n).Runs s E Q := by
  refine .seq (inodeAt_runs ?_)
  rw [if_neg (by rw [Nat.mod_eq_of_lt hwrap]; omega)]
  have hn : (if (s.inode ip).din.size < off + n then (s.inode ip).din.size - off else n) =
      min n ((s.inode ip).din.size - off) := by
    split <;> omega
  simp only []
  rw [hn]
  refine readiLoop_runs (by omega) (Nat.zero_le _) (Nat.zero_le _) hmap ?_
  rw [nil_append]
  exact h

/-! ## Directories -/

/-- The block of entry `e` is there. -/
theorem mapped_entry (h : blockOf s.disk d (e / 64) ≠ 0) : Mapped s.disk d (16 * e) 16 := by
  intro j hj
  rwa [entry_div hj]

theorem readDirent_runs {Q : Dirent → State → Prop} {msg : String}
    (he : 16 * e + 16 ≤ (s.inode dp).din.size) (hsize : (s.inode dp).din.size < 2 ^ 32)
    (hmap : blockOf s.disk (s.inode dp).din (e / 64) ≠ 0)
    (h : Q (direntOf s.disk (s.inode dp).din e) s) :
    (readDirent sb dp (16 * e) msg).Runs s E Q := by
  have hmin : min 16 ((s.inode dp).din.size - 16 * e) = 16 := by omega
  refine .seq (readi_runs (by omega) (by omega) ?_ ?_)
  · rw [hmin]
    exact mapped_entry hmap
  · rw [hmin]
    refine .ret ?_
    have hbytes : Dirent.ofBytes (array (slice s.disk (s.inode dp).din (16 * e) 16)) =
        direntOf s.disk (s.inode dp).din e := by
      refine Dirent.ofBytes_congr fun j hj => ?_
      simp [array, slice, hj]
    rw [← hbytes] at h
    exact h

/-- Entry `e` is in use and has the name `name`. -/
def Matches (disk : Disk) (d : Dinode) (name : Bytes) (e : Nat) : Prop :=
  (direntOf disk d e).inum ≠ 0 ∧ namecmp name (direntOf disk d e).name = 0

instance (disk : Disk) : Decidable (Matches disk d name e) := instDecidableAnd

/-- The first entry with the name is `e`. -/
structure Found (disk : Disk) (d : Dinode) (name : Bytes) (e : Nat) : Prop where
  size : 16 * e + 16 ≤ d.size
  here : Matches disk d name e
  first : ∀ e' < e, ¬ Matches disk d name e'
  mapped : ∀ e' ≤ e, blockOf disk d (e' / 64) ≠ 0

/-- No entry has the name. -/
structure Missing (disk : Disk) (d : Dinode) (name : Bytes) : Prop where
  whole : d.size % 16 = 0
  none : ∀ e, 16 * e < d.size → ¬ Matches disk d name e
  mapped : ∀ e, 16 * e < d.size → blockOf disk d (e / 64) ≠ 0

theorem dirlookupLoop_found {Q : Option (Nat × Nat) → State → Prop}
    (hf : Found s.disk (s.inode dp).din name e) (hsize : (s.inode dp).din.size < 2 ^ 32)
    (h : (iget (direntOf s.disk (s.inode dp).din e).inum).Runs s E
      fun ip => Q (some (ip, 16 * e))) {k : Nat} (hk : k ≤ e) (hm : e < k + m) :
    (dirlookupLoop sb dp name m (16 * k)).Runs s E Q := by
  induction m generalizing k with
  | zero => omega
  | succ m ih =>
    have := hf.size
    refine .seq (readDirent_runs (by omega) hsize (hf.mapped k hk) ?_)
    by_cases he : k = e
    · subst he
      rw [if_pos (show _ ∧ _ from hf.here)]
      exact h.bind fun ip σ hq => .ret hq
    · rw [if_neg (show ¬ (_ ∧ _) from hf.first k (by omega))]
      exact ih (k := k + 1) (by omega) (by omega)

theorem dirlookupLoop_missing {Q : Option (Nat × Nat) → State → Prop}
    (hf : Missing s.disk (s.inode dp).din name) (hsize : (s.inode dp).din.size < 2 ^ 32)
    (h : Q none s) {k : Nat} (hm : 16 * (k + m) ≤ (s.inode dp).din.size) :
    (dirlookupLoop sb dp name m (16 * k)).Runs s E Q := by
  induction m generalizing k with
  | zero => exact .ret h
  | succ m ih =>
    refine .seq (readDirent_runs (by omega) hsize (hf.mapped k (by omega)) ?_)
    rw [if_neg (show ¬ (_ ∧ _) from hf.none k (by omega))]
    exact ih (k := k + 1) (by omega)

theorem dirlookup_found {Q : Option (Nat × Nat) → State → Prop}
    (hdir : (s.inode dp).din.type = T_DIR) (hf : Found s.disk (s.inode dp).din name e)
    (hsize : (s.inode dp).din.size < 2 ^ 32)
    (h : (iget (direntOf s.disk (s.inode dp).din e).inum).Runs s E
      fun ip => Q (some (ip, 16 * e))) : (dirlookup sb dp name).Runs s E Q := by
  refine .seq (inodeAt_runs ?_)
  have := hf.size
  rw [if_neg (not_not.mpr hdir)]
  exact dirlookupLoop_found hf hsize h (Nat.zero_le e) (by rw [entries]; omega)

theorem dirlookup_missing {Q : Option (Nat × Nat) → State → Prop}
    (hdir : (s.inode dp).din.type = T_DIR) (hf : Missing s.disk (s.inode dp).din name)
    (hsize : (s.inode dp).din.size < 2 ^ 32) (h : Q none s) :
    (dirlookup sb dp name).Runs s E Q := by
  refine .seq (inodeAt_runs ?_)
  have := hf.whole
  rw [if_neg (not_not.mpr hdir)]
  exact dirlookupLoop_missing hf hsize h (k := 0) (by unfold entries; omega)

/-! ## Path elements -/

/-- The array `name` after `skipelem` has copied the element `s` to it. -/
def elemName (s : List UInt8) (name : Bytes) : Bytes :=
  if DIRSIZ ≤ s.length then blit name 0 (array s) DIRSIZ
  else update (blit name 0 (array s) s.length) s.length 0

/-- Looked at as a name, it is the element cut to `DIRSIZ` bytes. -/
theorem nameOf_elemName {s : List UInt8} (h : 0 ∉ s) : nameOf (elemName s name) = s.take DIRSIZ := by
  rw [elemName]
  split
  · next hlen =>
    rw [← nameOf_array h, nameOf, nameOf]
    refine congrArg _ (map_congr_left fun j hj => ?_)
    exact if_pos ⟨Nat.zero_le j, by have := mem_range.mp hj; omega⟩
  · next hlen =>
    obtain ⟨k, hk⟩ : ∃ k, DIRSIZ = s.length + (k + 1) := ⟨DIRSIZ - s.length - 1, by omega⟩
    have hcopy : (range s.length).map (update (blit name 0 (array s) s.length) s.length 0)
        = s := by
      refine ext_getElem (by simp) fun i h1 h2 => ?_
      rw [getElem_map, getElem_range, update_of_ne (by omega)]
      rw [blit, if_pos ⟨Nat.zero_le i, by omega⟩, Nat.sub_zero, array, getD_eq_getElem?_getD, getElem?_eq_getElem h2]
      rfl
    rw [nameOf, hk, range_add, map_append, hcopy, range_succ_eq_map, map_cons,
      map_cons, add_zero, update_self, takeWhile_append_of_pos,
      takeWhile_cons_of_neg (by simp), append_nil, take_of_length_le (by omega)]
    intro c hc
    have : c ≠ 0 := fun h0 => h (h0 ▸ hc)
    simpa using this

/-- The only element of a path. -/
theorem skipelem_single {s : List UInt8} (h0 : s ≠ []) (h : 47 ∉ s) :
    skipelem (47 :: s) name = some ([], elemName s name) := by
  have hslash : (47 :: s).dropWhile (· = 47) = s := by
    rw [dropWhile_cons_of_pos (by simp)]
    cases s with
    | nil => rfl
    | cons c s =>
      refine dropWhile_cons_of_neg ?_
      have : c ≠ 47 := fun hc => h (hc ▸ mem_cons_self)
      simpa using this
  have hall : ∀ c ∈ s, decide (c ≠ 47) = true := by
    intro c hc
    have : c ≠ 47 := fun he => h (he ▸ hc)
    simpa using this
  have htake : s.takeWhile (· ≠ 47) = s := takeWhile_eq_self_iff.mpr hall
  have hdrop : s.dropWhile (· ≠ 47) = [] := dropWhile_eq_nil_iff.mpr hall
  rw [skipelem, hslash]
  simp only [if_neg h0]
  rw [htake, hdrop]
  rfl

end Xv6.Fs
