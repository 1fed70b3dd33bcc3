import Xv6.Mkfs.Append

/-!
# The image that `mkfs` makes

`Built` relates the state of `mkfs` between two calls of `iappend` to the input files it has dealt
with: which inodes there are and what they contain. `Image` is what is left of it at the end, with
the size of the root directory rounded up and the bitmap written.
-/

namespace Xv6.Mkfs

open Lib Fs Function List

/-! ## What is in the image -/

/-- The names in the root directory, "." and ".." first. -/
def names (files : List Input) : List (List UInt8) := [46] :: [46, 46] :: files.map Input.fsname

/-- The inode that an entry of the root directory names. -/
def entryInum (e : Nat) : Nat := max ROOTINO e

/-- The entries of the root directory. -/
def rootBytes (ns : List (List UInt8)) : List UInt8 :=
  (ns.mapIdx fun e n => direntBytes (entryInum e) n).flatten

/-- The bytes of an input file. -/
def Input.data (f : Input) : List UInt8 := f.reads.flatten

/-- What each inode contains. -/
def contents (files : List Input) (i : Nat) : List UInt8 :=
  if i = ROOTINO then rootBytes (names files)
  else if i < 2 then [] else (files.map Input.data).getD (i - 2) []

/-- The type of each inode, 0 for a free one. -/
def kinds (files : List Input) (i : Nat) : Nat :=
  if i = ROOTINO then T_DIR else if 2 ≤ i ∧ i < files.length + 2 then T_FILE else 0

structure Built (σ : Mk) (D : Nat → Dinode) (c : Nat → List UInt8) (kind : Nat → Nat) : Prop where
  nsect : σ.nsect = FSSIZE
  files : Files σ.img σ.freeblock D c fun i => (c i).length
  dinode : ∀ i < NINODES, dinodeOf sb σ.img i = D i
  node : ∀ i, D i = ⟨kind i, 0, 0, if kind i = 0 then 0 else 1, (c i).length, (D i).addrs⟩
  free : ∀ i, kind i = 0 → D i = Dinode.zero
  small : ∀ i, kind i < 2 ^ 16
  super : σ.img 1 = patch zeroes 0 sb.bytes 32
  log : σ.img 2 = zeroes

variable {σ τ : Mk} {E : Option String → Prop} {D D' : Nat → Dinode} {c : Nat → List UInt8}
  {kind len : Nat → Nat} {inum i fb n type : Nat} {p : List UInt8} {img m : Disk} {ok : Prop}
  {d : Dinode} {f : Input} {files done : List Input}

/-! ## Inodes -/

theorem iblock_lt (hi : inum < NINODES) : 32 ≤ iblock sb inum ∧ iblock sb inum < nmeta - 1 := by
  have h : sb.inodestart = 32 := rfl
  have hm : nmeta - 1 = 45 := rfl
  simp only [iblock, h, hm, IPB, BSIZE, NINODES] at *
  omega

/-- Only the data blocks matter. -/
theorem Files.congr (h : Files img fb D c len) (himg : ∀ b, nmeta ≤ b → m b = img b)
    (haddrs : ∀ i, (D' i).addrs = (D i).addrs) : Files m fb D' c len := by
  have hslot : ∀ i s, slotOf m (D' i) s = slotOf img (D i) s := by
    intro i s
    cases s with
    | direct k => exact congrFun (haddrs i) k
    | indirect j =>
      simp only [slotOf, haddrs]
      by_cases h0 : (D i).addrs NDIRECT = 0
      · rw [if_pos h0, if_pos h0]
      · rw [if_neg h0, if_neg h0, himg ((D i).addrs NDIRECT) (h.owns.range (i, .direct NDIRECT) h0).1]
  have hblock : ∀ i bn, blockOf m (D' i) bn = blockOf img (D i) bn := fun i bn => hslot i _
  refine ⟨h.lo, h.hi, h.owns.congr fun x => hslot _ _, fun b hb hb' => ?_, h.short, fun i bn => ?_,
    fun i k hk => ?_, fun i k hk => ?_⟩
  · rw [himg b (h.lo.trans hb), h.fresh b hb hb']
  · rw [hblock]
    exact h.mapped i bn
  · rw [hblock] at hk
    rw [contentByte, hblock, himg (blockOf img (D i) (k / BSIZE))
      (h.owns.range (i, dataSlot (k / BSIZE)) hk).1]
    exact h.byte i k hk
  · rw [haddrs]
    exact h.rest i k hk

theorem Files.len_le (h : Files img fb D c len) (i : Nat) : len i ≤ MAXFILE * BSIZE := by
  by_contra hc
  refine (h.mapped i MAXFILE).mpr (by omega) ?_
  rw [blockOf, dataSlot, if_neg (by decide), slotOf, u32_beyond (by decide), ite_self]

theorem Files.addrs_lt (h : Files img fb D c len) (i k : Nat) : (D i).addrs k < FSSIZE := by
  by_cases h0 : (D i).addrs k = 0
  · rw [h0]
    decide
  · exact (h.owns.range (i, .direct k) h0).2

theorem winode_runs {Q : Unit → Mk → Prop} (hn : σ.nsect = FSSIZE) (hi : inum < NINODES)
    (h : Q () { σ with img := setDinode sb σ.img inum d }) : (winode inum d).Runs σ E Q := by
  have hlt := (iblock_lt hi).2
  have hlt' : iblock sb inum < FSSIZE := hlt.trans (by decide)
  refine .seq (rsect_runs (fun hc => absurd (hn ▸ hlt') hc) fun _ => ?_)
  refine wsect_runs ?_
  have he : σ.write (iblock sb inum) (patch (σ.img (iblock sb inum)) (inum % IPB * 64) d.bytes 64) =
      { σ with img := setDinode sb σ.img inum d } := by
    rw [Mk.write, hn, max_eq_left hlt', ← hn]
    rfl
  rwa [he]

theorem rinode_runs {Q : Dinode → Mk → Prop} (hn : σ.nsect = FSSIZE) (hi : inum < NINODES)
    (h : Q (dinodeOf sb σ.img inum) σ) : (rinode inum).Runs σ E Q := by
  have hlt' : iblock sb inum < FSSIZE := Nat.lt_trans (iblock_lt hi).2 (by decide)
  refine .seq (rsect_runs (fun hc => absurd (hn ▸ hlt') hc) fun _ => ?_)
  exact .ret h

theorem nextInode_runs {Q : Nat → Mk → Prop}
    (h : Q σ.freeinode { σ with freeinode := σ.freeinode + 1 }) : nextInode.Runs σ E Q :=
  .atomic rfl h

/-- The state with inode `inum` written, if its blocks are in place. -/
theorem Built.winode (h : Built σ D c kind) (hi : inum < NINODES) (hkept : Kept σ τ)
    {k' : Nat → Nat} {c' : Nat → List UInt8}
    (hk : ∀ i, i ≠ inum → k' i = kind i) (hc : ∀ i, i ≠ inum → c' i = c i) (hk0 : k' inum ≠ 0)
    (hsmall : k' inum < 2 ^ 16)
    (hd : d = ⟨k' inum, 0, 0, 1, (c' inum).length, d.addrs⟩)
    (hf : Files τ.img τ.freeblock (update D inum d) c' fun i => (c' i).length) :
    Built { τ with img := setDinode sb τ.img inum d } (update D inum d) c' k' := by
  have hlt := iblock_lt hi
  have hfits : d.Fits := by
    have ha := hf.addrs_lt inum
    have hr := hf.rest inum
    have hl := hf.len_le inum
    simp only [update_self] at ha hr
    rw [hd]
    exact ⟨hsmall, Nat.two_pow_pos 16, Nat.two_pow_pos 16, Nat.one_lt_two_pow (by decide),
      hl.trans_lt (by decide), fun k => (ha k).trans (by decide), hr⟩
  have hother : ∀ b, b ≠ iblock sb inum → setDinode sb τ.img inum d b = τ.img b :=
    fun b hb => setDinode_apply hb
  refine ⟨hkept.nsect.trans h.nsect, hf.congr (fun b hb => hother b (by omega)) fun _ => rfl,
    fun i hin => ?_, fun i => ?_, fun i h0 => ?_, fun i => ?_, ?_, ?_⟩
  · by_cases he : i = inum
    · rw [he, update_self, dinodeOf_setDinode_self hfits]
    · rw [update_of_ne he, dinodeOf_setDinode_ne he, ← h.dinode i hin, dinodeOf, dinodeOf]
      simp only [hkept.img _ (Nat.lt_of_lt_of_le (iblock_lt hin).2 (Nat.sub_le _ _))]
  · by_cases he : i = inum
    · rw [he, update_self, if_neg hk0]
      exact hd
    · rw [update_of_ne he, hk i he, hc i he]
      exact h.node i
  · by_cases he : i = inum
    · rw [he] at h0
      exact absurd h0 hk0
    · rw [update_of_ne he]
      rw [hk i he] at h0
      exact h.free i h0
  · by_cases he : i = inum
    · rwa [he]
    · rw [hk i he]
      exact h.small i
  · exact ((hother 1 (by omega)).trans (hkept.img 1 (by decide))).trans h.super
  · exact ((hother 2 (by omega)).trans (hkept.img 2 (by decide))).trans h.log

/-- `iappend` -/
theorem iappend_runs (hE : ∀ m, ¬ ok → E m) (h : Built σ D c kind) (hi : inum < NINODES)
    (hk : kind inum ≠ 0) (hfit : ok → Fits σ.freeblock (c inum).length p.length) :
    (iappend inum p).Runs σ E fun _ τ =>
      (∃ D', Built τ D' (update c inum (c inum ++ p)) kind) ∧
      τ.freeinode = σ.freeinode ∧ τ.freeblock ≤ σ.freeblock +
        2 * (nblk ((c inum).length + p.length) - nblk (c inum).length) := by
  have hsize : (D inum).size = (c inum).length := by rw [h.node]
  have hmax := h.files.len_le inum
  have hx : xint (D inum).size = (c inum).length := by
    rw [hsize, xint]
    refine Nat.mod_eq_of_lt ?_
    simp only [MAXFILE, NDIRECT, NINDIRECT, BSIZE] at hmax
    omega
  refine .bind (rinode_runs (Q := fun d τ => d = D inum ∧ σ = τ) h.nsect hi
    ⟨h.dinode inum hi, rfl⟩) fun d τ hd => ?_
  obtain ⟨rfl, rfl⟩ := hd
  rw [hx]
  refine .bind (iappendLoop_runs hE p.length h.files h.nsect le_rfl hfit)
    fun r τ hr => ?_
  have hlen : (update c inum (c inum ++ p) inum).length =
      (c inum).length + p.length := by
    rw [update_self, length_append]
  have hmax' := hr.files.len_le inum
  rw [hlen] at hmax'
  have hxo : xint r.2 = (c inum).length + p.length := by
    rw [hr.off, xint]
    refine Nat.mod_eq_of_lt ?_
    simp only [MAXFILE, NDIRECT, NINDIRECT, BSIZE] at hmax'
    omega
  show (winode inum { r.1 with size := xint r.2 }).Runs _ _ _
  rw [hxo]
  refine winode_runs (hr.kept.nsect.trans h.nsect) hi ⟨⟨update D inum
    { r.1 with size := (c inum).length + p.length }, ?_⟩, hr.kept.freeinode, hr.room⟩
  refine h.winode hi hr.kept (fun _ _ => rfl) (fun i he => update_of_ne he ..) hk
    (h.small inum) ?_ ?_
  · rw [hlen, hr.node, h.node inum, if_neg hk]
  · refine hr.files.congr (fun _ _ => rfl) fun i => ?_
    by_cases he : i = inum
    · rw [he, update_self, update_self]
    · rw [update_of_ne he, update_of_ne he]

/-- `ialloc` -/
theorem ialloc_runs (h : Built σ D c kind) (hi : σ.freeinode < NINODES) (hk : kind σ.freeinode = 0)
    (ht0 : type ≠ 0) (ht : type < 2 ^ 16) :
    (ialloc type).Runs σ E fun n τ => n = σ.freeinode ∧
      (∃ D', Built τ D' c (update kind σ.freeinode type)) ∧
      τ.freeinode = σ.freeinode + 1 ∧ τ.freeblock = σ.freeblock := by
  have hzero := h.free _ hk
  have hc : (c σ.freeinode).length = 0 := by
    have := congrArg Dinode.size ((h.node σ.freeinode).symm.trans hzero)
    exact this
  refine .bind (nextInode_runs (Q := fun n τ => n = σ.freeinode ∧
    τ = { σ with freeinode := σ.freeinode + 1 }) ⟨rfl, rfl⟩) fun n τ hn => ?_
  obtain ⟨rfl, rfl⟩ := hn
  refine .bind (R := fun _ τ =>
      (∃ D', Built τ D' c (update kind σ.freeinode type)) ∧
      τ.freeinode = σ.freeinode + 1 ∧ τ.freeblock = σ.freeblock)
    (winode_runs h.nsect hi ⟨⟨update D σ.freeinode
      { Dinode.zero with type := xshort type, nlink := xshort 1, size := xint 0 }, ?_⟩, rfl, rfl⟩)
    fun _ τ hτ => .ret ⟨rfl, hτ⟩
  have hself : update kind σ.freeinode type σ.freeinode = type := update_self ..
  have hx : xshort type = type := Nat.mod_eq_of_lt ht
  have hb : Built { σ with freeinode := σ.freeinode + 1 } D c kind :=
    ⟨h.nsect, h.files, h.dinode, h.node, h.free, h.small, h.super, h.log⟩
  refine hb.winode hi (Kept.refl _) (fun i he => update_of_ne he ..)
    (fun _ _ => rfl) (by rwa [hself]) (by rwa [hself]) ?_ ?_
  · rw [hself, hc, hx]
    rfl
  · refine h.files.congr (fun _ _ => rfl) fun i => ?_
    by_cases he : i = σ.freeinode
    · rw [he, update_self, hzero]
    · rw [update_of_ne he]

/-! ## Files -/

theorem direntBytes_length (n : Nat) (s : List UInt8) : (direntBytes n s).length = 16 := by
  rw [direntBytes, length_map, length_range]

theorem rootBytes_length (ns : List (List UInt8)) : (rootBytes ns).length = 16 * ns.length := by
  induction ns using reverseRecOn with
  | nil => rfl
  | append_singleton ns n ih =>
    rw [rootBytes, mapIdx_concat, flatten_append, length_append]
    rw [rootBytes] at ih
    rw [ih, length_append]
    simp only [flatten_cons, flatten_nil, append_nil, direntBytes_length,
      length_cons, length_nil]
    omega

theorem rootBytes_concat (ns : List (List UInt8)) (s : List UInt8) :
    rootBytes (ns ++ [s]) = rootBytes ns ++ direntBytes (entryInum ns.length) s := by
  rw [rootBytes, mapIdx_concat, flatten_append, flatten_singleton, rootBytes]

theorem names_length (files : List Input) : (names files).length = files.length + 2 := by
  simp [names]

theorem names_concat (files : List Input) (f : Input) :
    names (files ++ [f]) = names files ++ [f.fsname] := by
  simp [names]

/-- What `addFile` adds to the contents. -/
theorem contents_concat (files : List Input) (f : Input) :
    update (update (contents files) ROOTINO
        (contents files ROOTINO ++ direntBytes (files.length + 2) f.fsname))
      (files.length + 2) f.data = contents (files ++ [f]) := by
  funext i
  by_cases h1 : i = files.length + 2
  · rw [h1, update_self, contents, if_neg (by simp only [ROOTINO]; omega),
      if_neg (by omega), map_append, Nat.add_sub_cancel]
    simp
  · rw [update_of_ne h1]
    by_cases h2 : i = ROOTINO
    · rw [h2, update_self, contents, contents, if_pos rfl, if_pos rfl, names_concat,
        rootBytes_concat, names_length]
      congr 2
    · rw [update_of_ne h2, contents, contents, if_neg h2, if_neg h2]
      by_cases h3 : i < 2
      · rw [if_pos h3, if_pos h3]
      · rw [if_neg h3, if_neg h3, map_append]
        simp only [getD_eq_getElem?_getD]
        by_cases h4 : i - 2 < files.length
        · rw [getElem?_append_left (by rwa [length_map])]
        · rw [getElem?_eq_none (by rw [length_map]; omega),
            getElem?_eq_none (by
              rw [length_append, length_map, length_map, length_singleton]
              omega)]

theorem kinds_concat (files : List Input) (f : Input) :
    update (kinds files) (files.length + 2) T_FILE = kinds (files ++ [f]) := by
  funext i
  by_cases h1 : i = files.length + 2
  · rw [h1, update_self, kinds, if_neg (by simp only [ROOTINO]; omega), if_pos]
    rw [length_append, length_singleton]
    omega
  · rw [update_of_ne h1, kinds, kinds]
    by_cases h2 : i = ROOTINO
    · rw [if_pos h2, if_pos h2]
    · rw [if_neg h2, if_neg h2, length_append, length_singleton]
      by_cases h3 : 2 ≤ i ∧ i < files.length + 2
      · rw [if_pos h3, if_pos (by omega)]
      · rw [if_neg h3, if_neg (by omega)]

theorem kinds_root (files : List Input) : kinds files ROOTINO = T_DIR := rfl

/-- The bytes of a file are appended piece by piece. -/
theorem appendReads_runs (hE : ∀ m, ¬ ok → E m) (hi : inum < NINODES) (hk : kind inum ≠ 0)
    (reads : List (List UInt8)) :
    ∀ {σ : Mk} {D : Nat → Dinode} {c : Nat → List UInt8}, Built σ D c kind →
      (ok → Fits σ.freeblock (c inum).length reads.flatten.length) →
      (appendReads inum reads).Runs σ E fun _ τ =>
        (∃ D', Built τ D' (update c inum (c inum ++ reads.flatten)) kind) ∧
        τ.freeinode = σ.freeinode ∧ τ.freeblock ≤ σ.freeblock +
          2 * (nblk ((c inum).length + reads.flatten.length) - nblk (c inum).length) := by
  induction reads with
  | nil =>
    intro σ D c h _
    refine .ret ⟨⟨D, ?_⟩, rfl, Nat.le_add_right ..⟩
    rwa [flatten_nil, append_nil, update_eq_self]
  | cons p reads ih =>
    intro σ D c h hfit
    rw [flatten_cons, length_append] at hfit ⊢
    have hm1 : nblk (c inum).length ≤ nblk ((c inum).length + p.length) := nblk_mono (by omega)
    have hm2 : nblk ((c inum).length + p.length) ≤
        nblk ((c inum).length + (p.length + reads.flatten.length)) := nblk_mono (by omega)
    refine .bind (iappend_runs hE h hi hk fun hok => ?_) fun _ τ hτ => ?_
    · obtain ⟨h1, h2⟩ := hfit hok
      exact ⟨by omega, by omega⟩
    obtain ⟨⟨D', h'⟩, hfi, hfb⟩ := hτ
    have hlen : (update c inum (c inum ++ p) inum).length =
        (c inum).length + p.length := by
      rw [update_self, length_append]
    refine (ih h' fun hok => ?_).mono fun _ ρ hρ => ?_
    · obtain ⟨h1, h2⟩ := hfit hok
      rw [hlen, Fits, add_assoc]
      exact ⟨by omega, by omega⟩
    · obtain ⟨hB, hfi', hfb'⟩ := hρ
      rw [hlen, add_assoc] at hfb'
      rw [update_idem, update_self, append_assoc] at hB
      exact ⟨hB, hfi'.trans hfi, by omega⟩

/-- The blocks that the remaining files need. -/
def cost : List Input → Nat
  | [] => 0
  | f :: rest => 2 * nblk f.data.length + cost rest

/-- There is room for the remaining files, and they are admissible. -/
structure Room (fb ndone : Nat) (rest : List Input) : Prop where
  blocks : fb + 2 * (nblk (16 * (ndone + 2 + rest.length)) - nblk (16 * (ndone + 2))) +
    cost rest ≤ FSSIZE
  sizes : ∀ f ∈ rest, f.data.length ≤ MAXFILE * BSIZE
  slash : ∀ f ∈ rest, (47 : UInt8) ∉ f.shortname

/-- The state after some files. -/
def Done (σ : Mk) (done : List Input) : Prop :=
  (∃ D, Built σ D (contents done) (kinds done)) ∧ σ.freeinode = done.length + 2

theorem addFile_runs {rest : List Input} (hE : ∀ m, ¬ ok → E m) (h : Done σ done)
    (hn : done.length + 2 < NINODES) (hroom : ok → Room σ.freeblock done.length (f :: rest)) :
    (addFile ROOTINO f).Runs σ E fun _ τ => Done τ (done ++ [f]) ∧
      (ok → Room τ.freeblock (done.length + 1) rest) := by
  obtain ⟨⟨D, hB⟩, hfi⟩ := h
  have hroot : (contents done ROOTINO).length = 16 * (done.length + 2) := by
    rw [contents, if_pos rfl, rootBytes_length, names_length]
  have hfile : contents done (done.length + 2) = [] := by
    rw [contents, if_neg (by simp only [ROOTINO]; omega), if_neg (by omega), Nat.add_sub_cancel,
      getD_eq_default _ _ (by rw [length_map])]
  have hm1 : nblk (16 * (done.length + 2)) ≤ nblk (16 * (done.length + 2) + 16) :=
    nblk_mono (by omega)
  have hm2 : nblk (16 * (done.length + 2) + 16) ≤
      nblk (16 * (done.length + 2 + (rest.length + 1))) := nblk_mono (by omega)
  rw [addFile]
  split
  · next hs =>
    exact .panic (hE _ fun hok => (hroom hok).slash f mem_cons_self hs)
  have hk0 : kinds done σ.freeinode = 0 := by
    rw [hfi, kinds, if_neg (by simp only [ROOTINO]; omega), if_neg (by omega)]
  refine .bind (ialloc_runs hB (by rw [hfi]; exact hn) hk0 (by decide) (by decide))
    fun inum τ hτ => ?_
  obtain ⟨rfl, ⟨D₁, hB₁⟩, hfi₁, hfb₁⟩ := hτ
  rw [hfi, kinds_concat done f] at hB₁
  rw [hfi]
  refine .bind (iappend_runs (p := direntBytes (done.length + 2) f.fsname) hE hB₁
    (by decide) (by rw [kinds_root]; decide) fun hok => ?_) fun _ ρ hρ => ?_
  · have hb := (hroom hok).blocks
    rw [hfb₁, hroot, direntBytes_length, Fits]
    rw [length_cons, cost] at hb
    refine ⟨by omega, ?_⟩
    simp only [NINODES, MAXFILE, NDIRECT, NINDIRECT, BSIZE] at *
    omega
  obtain ⟨⟨D₂, hB₂⟩, hfi₂, hfb₂⟩ := hρ
  rw [hroot, direntBytes_length, hfb₁] at hfb₂
  have hnil : update (contents done) ROOTINO (contents done ROOTINO ++
      direntBytes (done.length + 2) f.fsname) (done.length + 2) = [] := by
    rw [update_of_ne (by simp only [ROOTINO]; omega), hfile]
  refine (appendReads_runs hE hn ?_ f.reads hB₂ fun hok => ?_).mono fun _ μ hμ => ?_
  · rw [kinds, if_neg (by simp only [ROOTINO]; omega), if_pos]
    · decide
    · rw [length_append, length_singleton]
      omega
  · have hb := (hroom hok).blocks
    rw [length_cons, cost] at hb
    have hz : nblk 0 = 0 := by decide
    have hsz := (hroom hok).sizes f mem_cons_self
    rw [hnil, length_nil, Fits, Nat.zero_add, hz, Nat.sub_zero]
    rw [Input.data] at hb hsz
    exact ⟨by omega, hsz⟩
  · obtain ⟨hB₃, hfi₃, hfb₃⟩ := hμ
    rw [hnil, nil_append] at hB₃
    have hcat := contents_concat done f
    rw [Input.data] at hcat
    rw [hcat] at hB₃
    refine ⟨⟨hB₃, ?_⟩, fun hok => ?_⟩
    · rw [hfi₃, hfi₂, hfi₁, hfi, length_append, length_singleton]
    · obtain ⟨hb, hsz, hsl⟩ := hroom hok
      rw [length_cons, cost] at hb
      have hz : nblk 0 = 0 := by decide
      rw [hnil, length_nil, Nat.zero_add, hz, Nat.sub_zero] at hfb₃
      rw [Input.data] at hb
      refine ⟨?_, fun g hg => hsz g (mem_cons_of_mem _ hg),
        fun g hg => hsl g (mem_cons_of_mem _ hg)⟩
      rw [show done.length + 1 + 2 + rest.length = done.length + 2 + (rest.length + 1) by omega,
        show 16 * (done.length + 1 + 2) = 16 * (done.length + 2) + 16 by omega]
      omega

theorem addFiles_runs (hE : ∀ m, ¬ ok → E m) (rest : List Input) :
    ∀ {σ : Mk} {done : List Input}, Done σ done → done.length + rest.length + 1 < NINODES →
      (ok → Room σ.freeblock done.length rest) →
      (addFiles ROOTINO rest).Runs σ E fun _ τ => Done τ (done ++ rest) := by
  induction rest with
  | nil =>
    intro σ done h _ _
    refine .ret ?_
    rwa [append_nil]
  | cons f rest ih =>
    intro σ done h hn hroom
    rw [length_cons] at hn
    refine .bind (addFile_runs hE h (by omega) hroom) fun _ τ hτ => ?_
    have hlen : (done ++ [f]).length = done.length + 1 := by
      rw [length_append, length_singleton]
    have := ih hτ.1 (by omega) (by rw [hlen]; exact hτ.2)
    rwa [append_assoc, singleton_append] at this

/-! ## The whole run -/

/-- The size of the root directory after it was fixed. -/
def rootSize (files : List Input) : Nat := (16 * (files.length + 2) / BSIZE + 1) * BSIZE

/-- What `mkfs` leaves. -/
structure Image (files : List Input) (img : Disk) (fb : Nat) (D : Nat → Dinode) : Prop where
  content : Files img fb D (contents files) fun i => (contents files i).length
  dinode : ∀ i < NINODES, dinodeOf sb img i = D i
  node : ∀ i, D i = ⟨kinds files i, 0, 0, if kinds files i = 0 then 0 else 1,
    if i = ROOTINO then rootSize files else (contents files i).length, (D i).addrs⟩
  free : ∀ i, kinds files i = 0 → D i = Dinode.zero
  bitmap : ∀ b < BPB, bitOf (img sb.bmapstart) b = decide (b < fb)
  super : img 1 = patch zeroes 0 sb.bytes 32
  log : img 2 = zeroes

theorem bitmap_spec (used : Nat) (hi : i < BPB) : bitOf (bitmap used) i = decide (i < used) := by
  induction used with
  | zero =>
    rw [bitmap, range_zero, foldl_nil, bitOf_eq, zeroes_bytes]
    simp
  | succ used ih =>
    rw [bitmap, range_succ, foldl_append, foldl_cons, foldl_nil]
    rw [bitmap] at ih
    rw [bitOf_setBit hi, ih, ← Bool.decide_or, decide_eq_decide]
    omega

/-- The blocks of the image file are written. -/
theorem zero_runs {Q : Unit → Mk → Prop}
    (h : Q () { start with nsect := FSSIZE }) :
    (Prog.loop (fun i => wsect i zeroes) 0 FSSIZE).Runs start E Q := by
  refine (Prog.Runs.loop (J := fun i τ => τ = { start with nsect := i }) rfl
    fun i τ _ _ hτ => wsect_runs ?_).mono fun _ τ hτ => ?_
  · rw [hτ, Mk.write, max_eq_right (Nat.le_succ i)]
    simp only
    congr 1
    exact update_eq_self_iff.mpr rfl
  · rw [zero_add] at hτ
    rw [hτ]
    exact h

/-- Before the first inode is allocated. -/
theorem built_start : Built ({ start with nsect := FSSIZE }.write 1 (patch zeroes 0 sb.bytes 32))
    (fun _ => Dinode.zero) (fun _ => []) fun _ => 0 := by
  have hother : ∀ b, b ≠ 1 → (Mk.write { start with nsect := FSSIZE } 1
      (patch zeroes 0 sb.bytes 32)).img b = zeroes := fun b hb => write_ne hb
  have hslot : ∀ (disk : Disk) s, slotOf disk Dinode.zero s = 0 := by
    intro disk s
    cases s <;> rfl
  refine ⟨rfl, ⟨le_rfl, by decide, ⟨by decide, fun x hx => absurd (hslot _ _) hx,
      fun x y _ hx => absurd (hslot _ _) hx, fun b hb _ => ?_⟩, fun b hb _ => hother b ?_,
      fun _ => le_rfl, fun i bn => ?_, fun i k hk => absurd (hslot _ _) hk, fun _ _ _ => rfl⟩,
    fun i hi => dinodeOf_zeroes (hother _ ?_), fun _ => rfl, fun _ _ => rfl,
    fun _ => Nat.two_pow_pos 16, write_self, hother 2 (by decide)⟩
  · refine iff_of_false (not_lt.mpr hb) ?_
    rintro ⟨x, hx⟩
    rw [refs, hslot] at hx
    have : nmeta = 46 := rfl
    omega
  · have hb' : nmeta ≤ b := hb
    have : nmeta = 46 := rfl
    omega
  · rw [blockOf, hslot]
    exact iff_of_false (fun h => h rfl) (Nat.not_lt_zero _)
  · have := iblock_lt hi
    omega

/-- After the entries "." and "..". -/
theorem contents_start : update (update (fun _ => []) ROOTINO
      (direntBytes ROOTINO [46])) ROOTINO
      (direntBytes ROOTINO [46] ++ direntBytes ROOTINO [46, 46]) = contents [] := by
  funext i
  rw [update_idem, contents]
  by_cases h : i = ROOTINO
  · rw [h, update_self, if_pos rfl, rootBytes, names]
    simp [mapIdx_cons, entryInum]
  · rw [update_of_ne h, if_neg h]
    simp

theorem kinds_start : update (fun _ => 0) ROOTINO T_DIR = kinds [] := by
  funext i
  rw [kinds]
  by_cases h : i = ROOTINO
  · rw [h, update_self, if_pos rfl]
  · rw [update_of_ne h, if_neg h, if_neg (by rw [length_nil]; omega)]

/-- What is done with the image after the last file. -/
theorem fix_runs (h : Done σ files) (hn : files.length + 1 < NINODES) :
    (do
      let din ← rinode ROOTINO
      let off := (xint din.size / BSIZE + 1) * BSIZE
      winode ROOTINO { din with size := xint off }
      let s ← Prog.get
      balloc s.freeblock).Runs σ E fun _ τ => ∃ fb D, Image files τ.img fb D := by
  obtain ⟨⟨D, hB⟩, -⟩ := h
  have hroot : (contents files ROOTINO).length = 16 * (files.length + 2) := by
    rw [contents, if_pos rfl, rootBytes_length, names_length]
  have hsize : xint (D ROOTINO).size = 16 * (files.length + 2) := by
    have hs : (D ROOTINO).size = 16 * (files.length + 2) := by
      rw [hB.node, ← hroot]
    rw [hs, xint]
    refine Nat.mod_eq_of_lt ?_
    simp only [NINODES] at hn
    omega
  have hrs : xint (rootSize files) = rootSize files := by
    rw [rootSize, xint]
    refine Nat.mod_eq_of_lt ?_
    simp only [NINODES, BSIZE] at *
    omega
  have hlt := iblock_lt (show ROOTINO < NINODES by decide)
  have hbm : sb.bmapstart = 45 := rfl
  have hm : nmeta = 46 := rfl
  refine .bind (rinode_runs (Q := fun d τ => d = D ROOTINO ∧ σ = τ) hB.nsect (by decide)
    ⟨hB.dinode ROOTINO (by decide), rfl⟩) fun d τ hd => ?_
  obtain ⟨rfl, rfl⟩ := hd
  have he : xint ((xint (D ROOTINO).size / BSIZE + 1) * BSIZE) = rootSize files := by
    rw [hsize]
    exact hrs
  dsimp only
  rw [he]
  generalize hd : ({ D ROOTINO with size := rootSize files } : Dinode) = d
  refine .bind (winode_runs (Q := fun _ τ =>
    τ = { σ with img := setDinode sb σ.img ROOTINO d }) hB.nsect (by decide) rfl) fun _ τ hτ => ?_
  subst hτ
  refine .bind (.get (Q := fun r τ =>
    r = { σ with img := setDinode sb σ.img ROOTINO d } ∧
      τ = { σ with img := setDinode sb σ.img ROOTINO d }) ⟨rfl, rfl⟩) fun r τ hr => ?_
  obtain ⟨rfl, rfl⟩ := hr
  have hhi := hB.files.hi
  rw [balloc, if_pos (by
    have : σ.freeblock < BSIZE * 8 := hhi.trans_lt (by decide)
    exact this)]
  refine wsect_runs ⟨σ.freeblock, update D ROOTINO d, ?_⟩
  have hself : (D ROOTINO).addrs = d.addrs := by rw [← hd]
  have hother : ∀ b, b ≠ iblock sb ROOTINO → b ≠ sb.bmapstart →
      update (setDinode sb σ.img ROOTINO d) sb.bmapstart (Mkfs.bitmap σ.freeblock) b =
        σ.img b := by
    intro b h1 h2
    rw [update_of_ne h2, setDinode_apply h1]
  have hfits : d.Fits := by
    have h1 := hB.dinode ROOTINO (by decide)
    have h2 : (D ROOTINO).Fits := h1 ▸ dinodeOf_fits
    rw [← hd]
    exact ⟨h2.type, h2.major, h2.minor, h2.nlink, hrs ▸ Nat.mod_lt _ (by decide), h2.addrs, h2.rest⟩
  refine ⟨hB.files.congr (fun b hb => hother b (by omega) (by omega)) fun i => ?_, fun i hi => ?_,
    fun i => ?_, fun i h0 => ?_, fun b hb => ?_, ?_, ?_⟩
  · by_cases hi : i = ROOTINO
    · rw [hi, update_self, hself]
    · rw [update_of_ne hi]
  · have hne := (iblock_lt hi).2
    have : dinodeOf sb (update (setDinode sb σ.img ROOTINO d) sb.bmapstart
        (Mkfs.bitmap σ.freeblock)) i = dinodeOf sb (setDinode sb σ.img ROOTINO d) i :=
      dinodeOf_update _ (by omega)
    refine this.trans ?_
    by_cases hi' : i = ROOTINO
    · rw [hi', update_self, dinodeOf_setDinode_self hfits]
    · rw [update_of_ne hi', dinodeOf_setDinode_ne hi', hB.dinode i hi]
  · by_cases hi : i = ROOTINO
    · rw [hi, update_self, if_pos rfl, ← hd, hB.node]
    · rw [update_of_ne hi, if_neg hi]
      exact hB.node i
  · have hi : i ≠ ROOTINO := by
      rintro rfl
      cases h0
    rw [update_of_ne hi]
    exact hB.free i h0
  · have : (Mk.write { σ with img := setDinode sb σ.img ROOTINO d } sb.bmapstart
        (Mkfs.bitmap σ.freeblock)).img sb.bmapstart = Mkfs.bitmap σ.freeblock := write_self
    rw [this]
    exact bitmap_spec _ hb
  · exact (hother 1 (by omega) (by omega)).trans hB.super
  · exact (hother 2 (by omega) (by omega)).trans hB.log

/-- There is room for all files. -/
def Admissible (files : List Input) : Prop := Room (nmeta + 2) 0 files

/-- `mkfs` comes to its end if there is room, and then it leaves the image of its files. -/
theorem main_runs (hn : files.length + 1 < NINODES) :
    (main files).Runs start (fun _ => ¬ Admissible files) fun _ τ =>
      ∃ fb D, Image files τ.img fb D := by
  generalize hE : (fun _ : Option String => ¬ Admissible files) = E
  have hE' : ∀ m, ¬ Admissible files → E m := by
    intro m hm
    rw [← hE]
    exact hm
  have hd16 := direntBytes_length
  refine .bind (zero_runs (Q := fun _ τ => τ = { start with nsect := FSSIZE }) rfl)
    fun _ τ hτ => ?_
  subst hτ
  refine .bind (wsect_runs (Q := fun _ τ => τ =
    Mk.write { start with nsect := FSSIZE } 1 (patch zeroes 0 sb.bytes 32)) rfl) fun _ τ hτ => ?_
  have hB : Built τ (fun _ => Dinode.zero) (fun _ => []) fun _ => 0 := hτ ▸ built_start
  have hfi : τ.freeinode = ROOTINO := by rw [hτ]; rfl
  have hfb : τ.freeblock = nmeta := by rw [hτ]; rfl
  refine .bind (ialloc_runs hB (by rw [hfi]; decide) rfl (show T_DIR ≠ 0 by decide)
    (by decide)) fun n ρ hρ => ?_
  obtain ⟨rfl, ⟨D₁, hB₁⟩, hfi₁, hfb₁⟩ := hρ
  rw [hfi, kinds_start] at hB₁
  rw [hfi, if_pos rfl]
  have hk : kinds [] ROOTINO ≠ 0 := by decide
  refine .bind (iappend_runs (p := direntBytes ROOTINO [46]) hE' hB₁ (by decide) hk
    fun _ => ?_) fun _ ρ₁ hρ₁ => ?_
  · rw [hd16, hfb₁, hfb]
    exact ⟨by decide, by decide⟩
  obtain ⟨⟨D₂, hB₂⟩, hfi₂, hfb₂⟩ := hρ₁
  rw [hd16] at hfb₂
  have hlen : (update (fun _ => ([] : List UInt8)) ROOTINO
      ([] ++ direntBytes ROOTINO [46]) ROOTINO).length = 16 := by
    rw [update_self, nil_append, hd16]
  have hroom1 : ρ₁.freeblock ≤ nmeta + 2 := by
    rw [hfb₁, hfb] at hfb₂
    exact hfb₂
  refine .bind (iappend_runs (p := direntBytes ROOTINO [46, 46]) hE' hB₂ (by decide) hk
    fun _ => ?_) fun _ ρ₂ hρ₂ => ?_
  · rw [hlen, hd16, Fits]
    have h1 : nblk (16 + 16) - nblk 16 = 0 := by decide
    have h2 : nmeta + 2 ≤ FSSIZE := by decide
    exact ⟨by omega, by decide⟩
  obtain ⟨⟨D₃, hB₃⟩, hfi₃, hfb₃⟩ := hρ₂
  rw [hlen, hd16] at hfb₃
  have hroom2 : ρ₂.freeblock ≤ nmeta + 2 := by
    have h1 : nblk (16 + 16) - nblk 16 = 0 := by decide
    omega
  rw [update_self, nil_append, contents_start] at hB₃
  have hdone : Done ρ₂ [] := ⟨⟨D₃, hB₃⟩, by rw [hfi₃, hfi₂, hfi₁, hfi]; rfl⟩
  refine .bind (addFiles_runs hE' files hdone (by simpa using hn) fun hok => ?_)
    fun _ ρ₃ hρ₃ => fix_runs hρ₃ hn
  refine ⟨?_, hok.sizes, hok.slash⟩
  have := hok.blocks
  simp only [length_nil] at this ⊢
  omega

theorem makes_image (hn : files.length + 1 < NINODES) (h : Makes files img) :
    ∃ fb D, Image files img fb D := by
  obtain ⟨s, hs, rfl⟩ := h
  exact (main_runs hn).ok hs

theorem makes_of_admissible (hn : files.length + 1 < NINODES) (h : Admissible files) :
    ∃ img, Makes files img := by
  obtain ⟨_, s, hs, -⟩ := (main_runs hn).ends fun _ hc => hc h
  exact ⟨s.img, s, hs, rfl⟩

end Xv6.Mkfs
