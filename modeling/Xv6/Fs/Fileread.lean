import Xv6.Fs.Calls
import Xv6.Fs.Paths
import Xv6.Fs.Names

/-!
# What a read from a file delivers

`fileread` of an inode file: `readi` is told to read `n` bytes, where `n` is an `int` that becomes
an `uint` on the way.
-/

namespace Xv6.Fs

open Lib Function

variable {sb : Superblock} {k : Sys} {E : Option String → Prop} {f t i reach off : Nat}
  {n : Int} {α : Type}

theorem onFs_runs {q : Prog State α} {Q : α → Sys → Prop}
    (h : q.Runs k.fs E fun a s => Q a (k.setFs s)) : (onFs q).Runs k E Q := by
  have hzoom : (onFs q).Runs k E fun a k' => ∃ s, k' = k.setFs s ∧ Q a (k.setFs s) :=
    Prog.Runs.zoom (fun _ _ => rfl) (fun _ _ _ => rfl) (fun _ => rfl) h
  refine hzoom.mono fun a k' hk' => ?_
  obtain ⟨s, rfl, hQ⟩ := hk'
  exact hQ

theorem fileAt_runs {Q : File → Sys → Prop} (h : Q (k.file f) k) : (fileAt f).Runs k E Q :=
  .seq (.get (.ret h))

theorem onFile_runs {g : File → File} {Q : Unit → Sys → Prop}
    (h : Q () (k.setFile f (g (k.file f)))) : (onFile f g).Runs k E Q := Prog.Runs.modify h

/-- A file that is open for reading, on the inode `i`. -/
structure Readable (sb : Superblock) (k : Sys) (f i : Nat) : Prop where
  type : (k.file f).type = .inode
  readable : (k.file f).readable = true
  consistent : Consistent sb k.fs.disk
  table : Table sb k.fs
  refs : Refs k.fs (k.file f).ip i
  unlocked : (k.fs.inode (k.file f).ip).lock = none
  used : (files sb k.fs.disk i).type ≠ 0

/-- The bytes that `fileread` stores, and what becomes of the offset. -/
theorem fileread_runs {Q : Option Nat × List UInt8 → Sys → Prop} (h : Readable sb k f i)
    (next : ∀ s r, r = part (files sb k.fs.disk i).data (k.file f).off (uint n) →
      Q (if r.length ≤ reach then some r.length else none, r.take reach)
        ((k.setFile f { k.file f with
          off := (k.file f).off + if r.length ≤ reach then r.length else 0 }).setFs s)) :
    (fileread sb t f reach n).Runs k E Q := by
  refine .seq (fileAt_runs ?_)
  rw [if_neg (by rw [h.readable]; simp), h.type]
  have hs := Since.refl h.consistent h.table
  refine .seq (onFs_runs (ilock_since hs h.refs (fun hc => absurd h.unlocked hc)
    (fun hc => absurd hc h.used) fun s₁ hl hs₁ hr₁ hdisk hv hst => ?_))
  refine .seq (fileAt_runs ?_)
  rw [show (k.setFs s₁).file f = k.file f from rfl]
  have hh : Holds sb s₁ (k.file f).ip i := hs₁.table.holds hr₁ hv
  refine .seq (onFs_runs (readi_part hs₁.consistent hh (by unfold uint; omega) ?_))
  rw [show (k.setFs s₁).fs.disk = k.fs.disk from hdisk]
  generalize hr : part (files sb k.fs.disk i).data (k.file f).off (uint n) = r
  refine .seq (onFile_runs ?_)
  refine .seq (onFs_runs (iunlock_since hs₁ hr₁ (update_self ..) fun s₂ _ _ _ => ?_))
  have hoff : (if r.length ≤ reach then some r.length else none).getD 0 =
      if r.length ≤ reach then r.length else 0 := by
    split <;> rfl
  refine .ret ?_
  rw [hoff]
  exact next s₂ r hr.symm

/-- What is asked of `fileread`: at most `max(n, 0)` bytes are stored, and the offset moves by the
    result if this is positive, and not at all otherwise. -/
def ReadsAtMost (sb : Superblock) (t f reach : Nat) (n : Int) (k : Sys) : Prop :=
  (fileread sb t f reach n).Runs k (fun _ => False) fun r k' =>
    (r.2.length : Int) ≤ max n 0 ∧ (k'.file f).off = (k.file f).off + r.1.getD 0

/-- The bytes that `readi` can store: those that an `int` asks for, and those of a negative number,
    which as an `uint` asks for all that there is, unless the end of the range wraps around. -/
theorem part_uint_length {data : List UInt8} (hlo : -2 ^ 31 ≤ n) (hhi : n < 2 ^ 31)
    (hlen : data.length < 2 ^ 31) : ((part data off (uint n)).length : Int) =
      if 0 ≤ n then min n (data.length - off : Nat)
      else if 0 ≤ off + n then 0 else (data.length - off : Nat) := by
  unfold part uint
  rw [List.length_drop, List.length_take]
  split
  · omega
  · split <;> omega

/-- `fileread` stores no more than was asked for unless the number is negative, there are bytes from
    the offset on, the end of the range does not wrap around, and there is memory at the address. -/
theorem fileread_at_most_iff (h : Readable sb k f i) (hlo : -2 ^ 31 ≤ n) (hhi : n < 2 ^ 31) :
    ReadsAtMost sb t f reach n k ↔ 0 ≤ n ∨ (files sb k.fs.disk i).data.length ≤ (k.file f).off ∨
      0 ≤ (k.file f).off + n ∨ reach = 0 := by
  have hlen : (files sb k.fs.disk i).data.length < 2 ^ 31 := by
    have hsize : (files sb k.fs.disk i).data.length ≤ MAXFILE * BSIZE :=
      (le_of_eq content_length).trans (h.consistent.size_le i)
    simp only [MAXFILE, BSIZE, NDIRECT, NINDIRECT] at hsize
    exact hsize.trans_lt (by decide)
  have hpart : ((part _ (k.file f).off (uint n)).length : Int) = _ :=
    part_uint_length hlo hhi hlen
  constructor
  · intro hr
    by_contra hc
    have hbytes : (fileread sb t f reach n).Runs k (fun _ => False) fun r _ =>
        r.2 = (part (files sb k.fs.disk i).data (k.file f).off (uint n)).take reach :=
      fileread_runs h fun s r hr => by rw [hr]
    obtain ⟨r, k', -, hbytes, hle, -⟩ := (hbytes.and hr).ends fun _ => id
    rw [hbytes, List.length_take] at hle
    rw [if_neg (by omega), if_neg (by omega)] at hpart
    omega
  · intro hcond
    refine fileread_runs h fun s r hr => ⟨?_, ?_⟩
    · rw [List.length_take]
      rw [← hr] at hpart
      split at hpart
      · omega
      · split at hpart <;> omega
    · show (update k.file f _ f).off = _
      rw [update_self]
      split <;> rfl

/-! ## Reading a file of three bytes -/

/-- The first file of the table is open for reading, on inode 2. -/
def reading (img : Disk) : Sys :=
  ((Sys.start img).setFs ((Sys.start img).fs.setInode 1 ⟨2, 1, none, false, .zero⟩)).setFile 0
    ⟨.inode, 1, true, false, 0, 1, 0, 0⟩

theorem reading_cases (img : Disk) (e : Nat) (h : 0 < ((reading img).fs.inode e).ref) :
    e = 0 ∧ (reading img).fs.inode e = { Inode.zero with inum := ROOTINO, ref := 1 } ∨
    e = 1 ∧ (reading img).fs.inode e = ⟨2, 1, none, false, .zero⟩ := by
  have hinode : (reading img).fs.inode = update (update (fun _ => Inode.zero) 0
    { Inode.zero with inum := ROOTINO, ref := 1 }) 1 ⟨2, 1, none, false, .zero⟩ := rfl
  rw [hinode] at h ⊢
  by_cases h1 : e = 1
  · rw [h1, update_self]
    exact .inr ⟨rfl, rfl⟩
  rw [update_of_ne h1] at h ⊢
  by_cases h0 : e = 0
  · rw [h0, update_self]
    exact .inl ⟨rfl, rfl⟩
  · rw [update_of_ne h0] at h
    exact absurd h (lt_irrefl 0)

theorem readable_reading {img : Disk} {fb : Nat} {D : Nat → Dinode}
    (h : Mkfs.Image [Mkfs.catFile] img fb D) : Readable Mkfs.sb (reading img) 0 2 where
  type := rfl
  readable := rfl
  consistent := h.no_holes (by decide) Mkfs.cat_partial
  table := by
    refine ⟨fun e _ hr hv => ?_, fun e _ hr => ?_, fun e _ e' _ hr hr' he => ?_⟩
    · rcases reading_cases img e hr with ⟨-, hi⟩ | ⟨-, hi⟩ <;> rw [hi] at hv <;> cases hv
    · rcases reading_cases img e hr with ⟨-, hi⟩ | ⟨-, hi⟩ <;> rw [hi] <;> decide
    · rcases reading_cases img e hr with ⟨h0, hi⟩ | ⟨h0, hi⟩ <;>
        rcases reading_cases img e' hr' with ⟨h0', hi'⟩ | ⟨h0', hi'⟩ <;> rw [hi, hi'] at he
      · rw [h0, h0']
      · exact absurd he (by decide)
      · exact absurd he (by decide)
      · rw [h0, h0']
  refs := ⟨show 1 < NINODE by decide, one_pos, rfl⟩
  unlocked := rfl
  used := by
    have hfile : files Mkfs.sb img 2 = ⟨T_FILE, 0, 0, 1, [1, 2, 3]⟩ :=
      h.file (by decide) (show 0 < [Mkfs.catFile].length by decide)
    show (files Mkfs.sb img 2).type ≠ 0
    rw [hfile]
    decide

theorem fileread_at_most_two : ∃ img, ReadsAtMost Mkfs.sb 0 0 100 2 (reading img) := by
  obtain ⟨img, fb, D, h⟩ := Mkfs.exists_cat
  exact ⟨img, (fileread_at_most_iff (readable_reading h) (by decide) (by decide)).mpr
    (.inl (by decide))⟩

/-- `read(fd, buf, -1)` stores the whole file. -/
theorem fileread_minus_one : ∃ img, Readable Mkfs.sb (reading img) 0 2 ∧
    (fileread Mkfs.sb 0 0 100 (-1)).Runs (reading img) (fun _ => False) fun r k' =>
      r = (some 3, [1, 2, 3]) ∧ (k'.file 0).off = 3 := by
  obtain ⟨img, fb, D, h⟩ := Mkfs.exists_cat
  have hfile : files Mkfs.sb img 2 = ⟨T_FILE, 0, 0, 1, [1, 2, 3]⟩ :=
    h.file (by decide) (show 0 < [Mkfs.catFile].length by decide)
  refine ⟨img, readable_reading h, fileread_runs (readable_reading h) fun s r hr => ?_⟩
  have hr : r = [1, 2, 3] := by
    rw [hr]
    show part (files Mkfs.sb img 2).data 0 (uint (-1)) = _
    rw [hfile]
    rfl
  rw [hr]
  exact ⟨rfl, rfl⟩

end Xv6.Fs
