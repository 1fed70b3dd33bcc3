import Xv6.Fs.Write

/-!
# Inodes as byte arrays

What an inode is to those who use it is a `Node`: a type, a link count and a list of bytes. The disk
is seen as a function from inode numbers to nodes, `files sb disk`. In a file system without holes
`readi` reads from the list and `writei` replaces a part of it, at most up to the point where blocks
ran out, and no other node changes.
-/

namespace Xv6.Fs

open Lib Function List

/-- The inodes on a disk that are in use; the others count as inodes of zeros. -/
def live (sb : Superblock) (disk : Disk) (i : Nat) : Dinode :=
  if i < sb.ninodes ∧ (dinodeOf sb disk i).type ≠ 0 then dinodeOf sb disk i else Dinode.zero

/-- Every block is in at most one place, the bitmap says which, and no file has a hole. -/
structure Consistent (sb : Superblock) (disk : Disk) : Prop where
  blocks : Blocks sb disk (live sb disk)
  mapped : ∀ i bn, bn * BSIZE < (live sb disk i).size → blockOf disk (live sb disk i) bn ≠ 0

structure Node where
  type : Nat
  major : Nat
  minor : Nat
  nlink : Nat
  data : List UInt8

/-- The bytes of a file. -/
def content (disk : Disk) (d : Dinode) : List UInt8 := slice disk d 0 d.size

def nodeOf (disk : Disk) (d : Dinode) : Node := ⟨d.type, d.major, d.minor, d.nlink, content disk d⟩

/-- The file system as its users see it. -/
def files (sb : Superblock) (disk : Disk) (i : Nat) : Node := nodeOf disk (live sb disk i)

/-- The list `l` with `new` in place of what is at `off`. -/
def splice (l : List UInt8) (off : Nat) (new : List UInt8) : List UInt8 :=
  l.take off ++ new ++ l.drop (off + new.length)

/-- The first `k` bytes of a source. -/
def Src.first (src : Src) (k : Nat) : List UInt8 := (range k).map src.byte

/-- The inode `i` is in use, and the entry `ip` of the table has it as it is on disk. -/
structure Holds (sb : Superblock) (s : State) (ip i : Nat) : Prop where
  inum : (s.inode ip).inum = i
  lt : i < sb.ninodes
  din : (s.inode ip).din = dinodeOf sb s.disk i
  type : (dinodeOf sb s.disk i).type ≠ 0

variable {sb : Superblock} {s s' s₂ : State} {E : Option String → Prop} {D D' : Nat → Dinode}
  {disk disk' : Disk} {d d' : Dinode} {ip i j k m n off tot reach bn : Nat} {src : Src} {f : Bytes}
  {v : UInt8}

/-! ## Lists of bytes -/

theorem content_length : (content disk d).length = d.size := slice_length

theorem content_get : (content disk d)[k]? = if k < d.size then some (contentByte disk d k) else none := by
  rw [content, slice, getElem?_map]
  by_cases hk : k < d.size
  · rw [if_pos hk, getElem?_range hk, Option.map_some, zero_add]
  · rw [if_neg hk, getElem?_eq_none (by rw [length_range]; omega), Option.map_none]

theorem splice_length {l new : List UInt8} (h : off ≤ l.length) :
    (splice l off new).length = max l.length (off + new.length) := by
  rw [splice, length_append, length_append, length_take, length_drop]
  omega

theorem splice_get {l new : List UInt8} (h : off ≤ l.length) : (splice l off new)[k]? =
    if off ≤ k ∧ k < off + new.length then new[k - off]? else l[k]? := by
  have hlen : (l.take off ++ new).length = off + new.length := by
    rw [length_append, length_take]
    omega
  rw [splice]
  by_cases h1 : k < off + new.length
  · rw [getElem?_append_left (by omega)]
    by_cases h2 : k < off
    · rw [if_neg (by omega), getElem?_append_left (by rw [length_take]; omega),
        getElem?_take_of_lt h2]
    · rw [if_pos ⟨by omega, h1⟩, getElem?_append_right (by rw [length_take]; omega),
        length_take, min_eq_left h]
  · rw [if_neg (by omega), getElem?_append_right (by omega), hlen, getElem?_drop]
    congr 1
    omega

theorem first_length : (src.first k).length = k := by simp [Src.first]

theorem first_get : (src.first n)[k]? = if k < n then some (src.byte k) else none := by
  rw [Src.first, getElem?_map]
  by_cases hk : k < n
  · rw [if_pos hk, getElem?_range hk, Option.map_some]
  · rw [if_neg hk, getElem?_eq_none (by rw [length_range]; omega), Option.map_none]

/-! ## Inodes -/

theorem slotOf_addrs (h : d'.addrs = d.addrs) : slotOf disk d' = slotOf disk d := by
  funext s
  cases s with
  | direct k => exact congrFun h k
  | indirect j => rw [slotOf, slotOf, h]

theorem blockOf_addrs (h : d'.addrs = d.addrs) : blockOf disk d' bn = blockOf disk d bn :=
  congrFun (slotOf_addrs h) _

theorem Has.addrs (hk : Has disk d k v) (h : d'.addrs = d.addrs) : Has disk d' k v :=
  hk.congr (blockOf_addrs h) rfl

/-- What matters of the inodes is which blocks they have. -/
theorem Blocks.addrs (h : Blocks sb disk D) (ha : ∀ j, (D' j).addrs = (D j).addrs) :
    Blocks sb disk D' := by
  have hrefs : refs D' disk = refs D disk := funext fun x => congrFun (slotOf_addrs (ha x.1)) x.2
  exact ⟨by rw [hrefs]; exact h.owns, h.metadata, fun j l hl => by rw [ha]; exact h.rest j l hl⟩

theorem Blocks.fits (h : Blocks sb disk D) (hsb : sb.Ok) (hd : d.Fits) (ha : d'.addrs = (D i).addrs)
    (hf : (d'.type, d'.major, d'.minor, d'.nlink) = (d.type, d.major, d.minor, d.nlink))
    (hsize : d'.size < 2 ^ 32) : d'.Fits := by
  simp only [Prod.mk.injEq] at hf
  obtain ⟨h1, h2, h3, h4⟩ := hf
  refine ⟨h1 ▸ hd.type, h2 ▸ hd.major, h3 ▸ hd.minor, h4 ▸ hd.nlink, hsize, fun k => ?_,
    fun k hk => by rw [ha]; exact h.rest i k hk⟩
  rw [ha]
  by_cases h0 : (D i).addrs k = 0
  · rw [h0]
    exact Nat.two_pow_pos 32
  · exact (data_le h (i := i) (s := .direct k) rfl h0).2.trans hsb.size

theorem live_of (hi : i < sb.ninodes) (ht : (dinodeOf sb disk i).type ≠ 0) :
    live sb disk i = dinodeOf sb disk i := if_pos ⟨hi, ht⟩

theorem Holds.live (h : Holds sb s ip i) : live sb s.disk i = (s.inode ip).din := by
  rw [live_of h.lt h.type, h.din]

/-- An inode of a consistent file system is not larger than a file can be. -/
theorem Consistent.size_le (h : Consistent sb disk) (i : Nat) :
    (live sb disk i).size ≤ MAXFILE * BSIZE := by
  by_contra hgt
  have h0 := h.mapped i MAXFILE (by omega)
  have hlt := bn_lt_of_blockOf h0
  simp only [MAXFILE] at hlt
  omega

theorem live_setDinode (hi : i < sb.ninodes) (hd : d.Fits) (ht : d.type ≠ 0)
    (hs : ∀ j < sb.ninodes, j ≠ i → dinodeOf sb disk' j = dinodeOf sb disk j) :
    live sb (setDinode sb disk' i d) = update (live sb disk) i d := by
  funext j
  by_cases hj : j = i
  · rw [hj, update_self, live, dinodeOf_setDinode_self hd, if_pos ⟨hi, ht⟩]
  · rw [update_of_ne hj, live, live, dinodeOf_setDinode_ne hj]
    by_cases hlt : j < sb.ninodes
    · rw [hs j hlt hj]
    · rw [if_neg fun hc => hlt hc.1, if_neg fun hc => hlt hc.1]

/-! ## `readi` -/

theorem readi_outside {Q : Option Nat × List UInt8 → State → Prop}
    (h : (s.inode ip).din.size < off ∨ (off + n) % 2 ^ 32 < off) (hq : Q (some 0, []) s) :
    (readi sb ip reach off n).Runs s E Q := by
  refine .seq (inodeAt_runs ?_)
  rw [if_pos h]
  exact .ret hq

/-- What `readi` reads, in the arithmetic of `uint`. -/
def part (l : List UInt8) (off n : Nat) : List UInt8 := (l.take ((off + n) % 2 ^ 32)).drop off

theorem part_outside {l : List UInt8} (h : l.length < off ∨ (off + n) % 2 ^ 32 < off) :
    part l off n = [] := by
  refine drop_eq_nil_of_le ?_
  rw [length_take]
  omega

theorem part_content (hoff : off ≤ d.size) (hn : off + n < 2 ^ 32) :
    part (content disk d) off n = slice disk d off (min n (d.size - off)) := by
  rw [part, content, slice_take, Nat.mod_eq_of_lt hn,
    show min (off + n) d.size = off + min n (d.size - off) by omega, slice_add, zero_add,
    drop_left' slice_length]

/-- `readi` of a file without holes. -/
theorem readi_part {Q : Option Nat × List UInt8 → State → Prop} (hc : Consistent sb s.disk)
    (hh : Holds sb s ip i) (hn : n < 2 ^ 32)
    (h : Q (if (part (files sb s.disk i).data off n).length ≤ reach then
        some (part (files sb s.disk i).data off n).length else none,
      (part (files sb s.disk i).data off n).take reach) s) :
    (readi sb ip reach off n).Runs s E Q := by
  have hfile : (files sb s.disk i).data = content s.disk (s.inode ip).din := by
    rw [← hh.live]
    rfl
  rw [hfile] at h
  by_cases hout : (s.inode ip).din.size < off ∨ (off + n) % 2 ^ 32 < off
  · rw [part_outside (by rwa [content_length]), length_nil, if_pos (Nat.zero_le _),
      take_nil] at h
    exact readi_outside hout h
  · have hend : off + n < 2 ^ 32 := by
      by_contra hge
      have := hc.size_le i
      rw [hh.live] at this
      simp only [MAXFILE, BSIZE, NDIRECT, NINDIRECT] at this
      omega
    rw [part_content (by omega) hend, slice_length, slice_take, Nat.min_comm reach] at h
    refine readi_runs (by omega) hend (fun j hj => ?_) h
    rw [← hh.live]
    refine hc.mapped i _ ?_
    rw [hh.live]
    have := Nat.div_mul_le_self (off + j) BSIZE
    omega

/-- `readi` of a file without holes, into memory that can hold what is read. -/
theorem readi_content {Q : Option Nat × List UInt8 → State → Prop} (hc : Consistent sb s.disk)
    (hh : Holds sb s ip i) (hn : n < 2 ^ 32)
    (hreach : (part (files sb s.disk i).data off n).length ≤ reach)
    (h : Q (some (part (files sb s.disk i).data off n).length,
      part (files sb s.disk i).data off n) s) : (readi sb ip reach off n).Runs s E Q := by
  refine readi_part hc hh hn ?_
  rw [if_pos hreach, take_of_length_le hreach]
  exact h

/-! ## `writei` -/

/-- What `writei` leaves: `m` bytes of `f` were stored at `off`, and `tot` of them are counted. -/
structure Written (sb : Superblock) (ip i : Nat) (s s' : State) (off tot m : Nat) (f : Bytes) :
    Prop where
  blocks : Blocks sb s'.disk (live sb s'.disk)
  dins : live sb s'.disk = update (live sb s.disk) i
    { live sb s.disk i with
      size := max (live sb s.disk i).size (off + tot), addrs := (live sb s'.disk i).addrs }
  inode : s'.inode = update s.inode ip { s.inode ip with din := live sb s'.disk i }
  dinodes : ∀ j < sb.ninodes, j ≠ i → dinodeOf sb s'.disk j = dinodeOf sb s.disk j
  holds : Holds sb s' ip i
  has : ∀ j k v, Has s.disk (live sb s.disk j) k v → (j = i → k < off ∨ off + m ≤ k) →
    Has s'.disk (live sb s'.disk j) k v
  new : ∀ k < m, Has s'.disk (live sb s'.disk i) (off + k) (f k)

/-- The bytes that a failing copy has moved count as stored. -/
theorem Looped.stored {s₁ : State} {cost : Nat} (hsb : sb.Ok)
    (h : Looped sb ip i s s₁ s₂ D D' src off n cost tot) :
    ∃ m, Wrote sb ip i s s₂ D D' off (tot + m) src.byte ∧
      (m = 0 ∧ s₂ = s₁ ∧ (tot = n ∨ (∀ c < sb.size, InUse sb s₁.disk c) ∧
          blockOf s₁.disk (D' i) ((off + tot) / BSIZE) = 0) ∨
        m = src.reach - tot ∧ Faulted i s₁ s₂ D' src off n tot) := by
  rcases h.why with ⟨rfl, hwhy⟩ | hf
  · exact ⟨0, h.wrote, .inl ⟨rfl, rfl, hwhy⟩⟩
  · refine ⟨src.reach - tot, ?_, .inr ⟨rfl, hf⟩⟩
    obtain ⟨hle, hlt, addr, hx, h0, rfl⟩ := hf
    exact h.wrote.patch hsb hx h0 (k := src.reach - tot) (by omega)

section

variable (hw : Wrote sb ip i s s₂ (live sb s.disk) D' off m f) (hsb : sb.Ok)
  (hc : Consistent sb s.disk) (hh : Holds sb s ip i) (hmax : off + tot ≤ MAXFILE * BSIZE)
include hw

theorem Wrote.inode_self : D' i = { live sb s.disk i with addrs := (D' i).addrs } := by
  have := congrFun hw.inodes i
  rwa [update_self] at this

include hh

theorem Wrote.finish_disk : ((s₂.setDin ip d).updated sb ip).disk = setDinode sb s₂.disk i d := by
  have hinum : ((s₂.setDin ip d).inode ip).inum = i := by
    rw [State.setDin, setInode_self, hw.memory, update_self]
    exact hh.inum
  have hdin : ((s₂.setDin ip d).inode ip).din = d := by
    rw [State.setDin, setInode_self]
  rw [updated_disk, hinum, hdin]
  rfl

theorem Wrote.finish_logged :
    ((s₂.setDin ip d).updated sb ip).logged = absorb s₂.logged (iblock sb i) := by
  have hinum : ((s₂.setDin ip d).inode ip).inum = i := by
    rw [State.setDin, setInode_self, hw.memory, update_self]
    exact hh.inum
  show absorb s₂.logged (iblock sb ((s₂.setDin ip d).inode ip).inum) = _
  rw [hinum]

include hsb hc hmax

theorem Wrote.finish_fits :
    ((D' i).extend (off + tot)).Fits ∧ ((D' i).extend (off + tot)).type ≠ 0 := by
  have hlive := live_of hh.lt hh.type
  have hsize := hc.size_le i
  have hD := hw.inode_self
  constructor
  · refine hw.blocks.fits hsb (show (dinodeOf sb s.disk i).Fits from dinodeOf_fits) rfl ?_ ?_
    · rw [Dinode.extend, hD, ← hlive]
    · rw [Dinode.extend, hD]
      simp only [MAXFILE, BSIZE, NDIRECT, NINDIRECT] at hsize hmax ⊢
      omega
  · rw [Dinode.extend, hD, hlive]
    exact hh.type

theorem Wrote.finish_live : live sb (setDinode sb s₂.disk i ((D' i).extend (off + tot))) =
    update (live sb s.disk) i ((D' i).extend (off + tot)) := by
  obtain ⟨hfits, htype⟩ := hw.finish_fits hsb hc hh hmax
  exact live_setDinode hh.lt hfits htype fun j hj _ => hw.dinodes j hj

/-- The blocks of all inodes are those that the loop has left. -/
theorem Wrote.finish_addrs (j : Nat) :
    (live sb (setDinode sb s₂.disk i ((D' i).extend (off + tot))) j).addrs = (D' j).addrs := by
  rw [hw.finish_live hsb hc hh hmax]
  by_cases hj : j = i
  · rw [hj, update_self]
    rfl
  · rw [update_of_ne hj, hw.inodes, update_of_ne hj]

/-- The last part of `writei`: the size is set and the inode is written back. -/
theorem Wrote.finish :
    Written sb ip i s ((s₂.setDin ip ((D' i).extend (off + tot))).updated sb ip) off tot m f := by
  have hdisk := hw.finish_disk (d := (D' i).extend (off + tot)) hh
  obtain ⟨hfits, htype⟩ := hw.finish_fits hsb hc hh hmax
  have hlive := hw.finish_live hsb hc hh hmax
  have haddrs := hw.finish_addrs hsb hc hh hmax
  obtain ⟨hdata, hbit⟩ := setDinode_same (d := (D' i).extend (off + tot)) hsb hh.lt
  have hself : live sb (setDinode sb s₂.disk i ((D' i).extend (off + tot))) i =
      (D' i).extend (off + tot) := by rw [hlive, update_self]
  have hext : (D' i).extend (off + tot) = { live sb s.disk i with
      size := max (live sb s.disk i).size (off + tot), addrs := (D' i).addrs } := by
    rw [Dinode.extend, hw.inode_self]
  have hmem : s₂.inode ip = { s.inode ip with din := D' i } := by
    rw [hw.memory, update_self]
  refine ⟨?_, ?_, ?_, fun j hj hne => ?_, ⟨?_, hh.lt, ?_, ?_⟩, fun j k v hk hne => ?_,
    fun k hk => ?_⟩
  · rw [hdisk]
    exact (hw.blocks.same hdata hbit).addrs haddrs
  · rw [hdisk, hself, hlive]
    exact congrArg (update (live sb s.disk) i) hext
  · rw [hdisk, hself]
    show update s₂.inode ip _ = _
    rw [hmem, hw.memory, update_idem]
  · rw [hdisk, dinodeOf_setDinode_ne hne, hw.dinodes j hj]
  · show ((s₂.setDin ip ((D' i).extend (off + tot))).inode ip).inum = i
    rw [State.setDin, setInode_self, hmem]
    exact hh.inum
  · show ((s₂.setDin ip ((D' i).extend (off + tot))).inode ip).din = _
    rw [hdisk, dinodeOf_setDinode_self hfits, State.setDin, setInode_self]
  · rw [hdisk, dinodeOf_setDinode_self hfits]
    exact htype
  · rw [hdisk]
    exact (hw.blocks.same_has hdata (hw.has j k v hk hne)).addrs (haddrs j)
  · rw [hdisk]
    exact (hw.blocks.same_has hdata (hw.new k hk)).addrs (haddrs i)

end

section

variable (h : Written sb ip i s s' off tot m f)
include h

theorem Written.size_self : (live sb s'.disk i).size = max (live sb s.disk i).size (off + tot) := by
  rw [h.dins, update_self]

theorem Written.live_ne (hj : j ≠ i) : live sb s'.disk j = live sb s.disk j := by
  rw [h.dins, update_of_ne hj]

/-- A byte that was there is there. -/
theorem Written.mapped (hk : blockOf s.disk (live sb s.disk j) bn ≠ 0) :
    blockOf s'.disk (live sb s'.disk j) bn ≠ 0 := by
  have hdiv : bn * BSIZE / BSIZE = bn := Nat.mul_div_cancel _ (by decide)
  by_cases hin : j = i ∧ off ≤ bn * BSIZE ∧ bn * BSIZE < off + m
  · obtain ⟨rfl, hlo, hhi⟩ := hin
    have := (h.new (bn * BSIZE - off) (by omega)).1
    rwa [show off + (bn * BSIZE - off) = bn * BSIZE by omega, hdiv] at this
  · have := (h.has j (bn * BSIZE) _ ⟨by rwa [hdiv], rfl⟩ (fun hj => by
      by_contra hc
      exact hin ⟨hj, by omega, by omega⟩)).1
    rwa [hdiv] at this

theorem Written.consistent (hc : Consistent sb s.disk) (hoff : off ≤ (live sb s.disk i).size)
    (htot : tot ≤ m) : Consistent sb s'.disk := by
  refine ⟨h.blocks, fun j bn hbn => ?_⟩
  by_cases hold : bn * BSIZE < (live sb s.disk j).size
  · exact h.mapped (hc.mapped j bn hold)
  · -- the file has grown over the start of this block, so the byte there is a new one
    by_cases hj : j = i
    · subst hj
      rw [h.size_self] at hbn
      have := (h.new (bn * BSIZE - off) (by omega)).1
      rwa [show off + (bn * BSIZE - off) = bn * BSIZE by omega,
        Nat.mul_div_cancel _ (by decide)] at this
    · rw [h.live_ne hj] at hbn
      exact absurd hbn hold

/-- A byte of a file is the one that was stored last. -/
theorem Written.byte (hc : Consistent sb s.disk) (hk : k < (live sb s.disk j).size)
    (hne : j = i → k < off ∨ off + m ≤ k) :
    contentByte s'.disk (live sb s'.disk j) k = contentByte s.disk (live sb s.disk j) k := by
  refine (h.has j k _ ⟨hc.mapped j _ ?_, rfl⟩ hne).2
  have := Nat.div_mul_le_self k BSIZE
  omega

theorem Written.others (hc : Consistent sb s.disk) (hj : j ≠ i) :
    files sb s'.disk j = files sb s.disk j := by
  have hcontent : content s'.disk (live sb s'.disk j) = content s.disk (live sb s.disk j) := by
    refine ext_getElem? fun k => ?_
    rw [content_get, content_get, h.live_ne hj]
    by_cases hk : k < (live sb s.disk j).size
    · have := h.byte hc hk fun hc => absurd hc hj
      rw [h.live_ne hj] at this
      rw [if_pos hk, if_pos hk, this]
    · rw [if_neg hk, if_neg hk]
  rw [files, files, nodeOf, nodeOf, hcontent, h.live_ne hj]

/-- The bytes of the file itself. -/
theorem Written.get (hc : Consistent sb s.disk) (hoff : off ≤ (live sb s.disk i).size)
    (htot : tot ≤ m) : (files sb s'.disk i).data[k]? =
      if off ≤ k ∧ k < off + m ∧ k < max (live sb s.disk i).size (off + tot) then some (f (k - off))
      else (files sb s.disk i).data[k]? := by
  show (content s'.disk (live sb s'.disk i))[k]? = _
  rw [content_get, h.size_self]
  by_cases hin : off ≤ k ∧ k < off + m
  · have := (h.new (k - off) (by omega)).2
    rw [show off + (k - off) = k by omega] at this
    by_cases hlt : k < max (live sb s.disk i).size (off + tot)
    · rw [if_pos hlt, if_pos ⟨hin.1, hin.2, hlt⟩, this]
    · rw [if_neg hlt, if_neg fun hc => hlt hc.2.2]
      exact (content_get.trans (if_neg (by omega))).symm
  · have hout : ¬ (off ≤ k ∧ k < off + m ∧ k < max (live sb s.disk i).size (off + tot)) :=
      fun hc => hin ⟨hc.1, hc.2.1⟩
    rw [if_neg hout]
    refine Eq.trans ?_ content_get.symm
    by_cases hk : k < (live sb s.disk i).size
    · rw [if_pos (by omega), if_pos hk, h.byte hc hk fun _ => by omega]
    · rw [if_neg (by omega), if_neg hk]

end

/-- Where all that was stored is counted, a part of the file was replaced. -/
theorem Written.file (h : Written sb ip i s s' off tot tot src.byte) (hc : Consistent sb s.disk)
    (hoff : off ≤ (live sb s.disk i).size) : files sb s'.disk i =
      { files sb s.disk i with data := splice (files sb s.disk i).data off (src.first tot) } := by
  have hdata : (files sb s'.disk i).data = splice (files sb s.disk i).data off (src.first tot) := by
    refine ext_getElem? fun k => ?_
    rw [h.get hc hoff (Nat.le_refl tot), splice_get (by exact content_length ▸ hoff), first_length,
      first_get]
    by_cases hk : off ≤ k ∧ k < off + tot
    · rw [if_pos ⟨hk.1, hk.2, by omega⟩, if_pos hk, if_pos (by omega)]
    · rw [if_neg fun hc => hk ⟨hc.1, hc.2.1⟩, if_neg hk]
  have hi := congrFun h.dins i
  rw [update_self] at hi
  rw [← hdata]
  refine Node.mk.injEq .. |>.mpr ⟨?_, ?_, ?_, ?_, rfl⟩ <;> (rw [hi]; rfl)

end Xv6.Fs
