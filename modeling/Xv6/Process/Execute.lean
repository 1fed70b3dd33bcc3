import Xv6.Process.File
import Xv6.Process.Stack

/-!
# `exec` as a whole

`exec` either replaces the address space of its process by what the file says, or leaves the process
and all of memory as they were. In both cases the file system is as it was before.
-/

namespace Xv6.Process

open Lib Mem
open Fs (part ROOTINO T_DIR)

/-- The header of an executable file. -/
def elfOf (data : List UInt8) : Elfhdr := .ofBytes (Fs.array (part data 0 elfhdrSize))

/-- The headers of the segments that `exec` loads. -/
def segments (data : List UInt8) : List Proghdr :=
  loads data ((elfOf data).phoff % 2 ^ 32) (elfOf data).phnum

/-- The memory of the program, without the stack. -/
def layoutOf (data : List UInt8) : Layout := (segments data).foldl (Layout.load data) .empty

/-- What `exec` asks of a file. -/
structure Executable (data : List UInt8) : Prop where
  header : elfhdrSize ≤ data.length
  magic : (elfOf data).magic = ELF_MAGIC
  fits : Fits data ((elfOf data).phoff % 2 ^ 32) (elfOf data).phnum

/-- `exec` may fail: there is no such file, or it makes no sense, or the arguments do not fit into
    the page of the stack, or there are not three free pages for each page that is needed. -/
def Refused (sb : Fs.Superblock) (s : Fs.State) (c : Nat) (path : List UInt8)
    (argv : List (List UInt8)) (free : Nat) : Prop :=
  ∀ j, fileAt sb s c path = some j → Executable (Fs.files sb s.disk j).data → ArgsFit argv →
    (∀ ph ∈ segments (Fs.files sb s.disk j).data, 0 < ph.vaddr + ph.memsz) →
    ∀ K, (∀ ph ∈ segments (Fs.files sb s.disk j).data, ph.vaddr + ph.memsz ≤ K * PGSIZE) →
      free ≤ 3 * K + 11

/-- What has become of the machine when `exec` returns `r`. -/
structure Ran (sb : Fs.Superblock) (img : Image) (M M' : Machine) (fs : List Nat)
    (R : Multiset Owner) (p c : Nat) (path : List UInt8) (argv : List (List UInt8))
    (r : Option Nat) : Prop where
  settled : Settled sb M.fs M'.fs
  result : (r = none ∧ ∃ fs', Confined img (M.setFs M'.fs) M' fs' 0
      ({M.kernel.space p} + ({.page (M.kernel.proc p).trapframe} + R))) ∨
    ∃ j, fileAt sb M.fs c path = some j ∧ Executable (Fs.files sb M.fs.disk j).data ∧
      Exits img (M.setFs M'.fs) M' p R (layoutOf (Fs.files sb M.fs.disk j).data)
        (elfOf (Fs.files sb M.fs.disk j).data).entry path argv r
  refused : r = none → Refused sb M.fs c path argv fs.length

section

variable {sb : Fs.Superblock} {img : Image} {M M₁ M' : Machine} {s : Fs.State} {fs fs' : List Nat}
  {R O : Multiset Owner} {L : Layout} {data path : List UInt8} {argv : List (List UInt8)}
  {junk : Bytes} {r : Option Nat} {p cwd c ip j pt tf sz entry B : Nat} {E : Option String → Prop}

theorem Confined.setFs (h : Confined img M M' fs O R) (σ : Fs.State) :
    Confined img (M.setFs σ) (M'.setFs σ) fs O R := by
  refine ⟨?_, h.owned, h.rest⟩
  rw [h.phys]
  rfl

/-- What happened to memory before. -/
theorem Exits.after (h : Confined img M M₁ fs O
      ({M.kernel.space p} + ({.page (M.kernel.proc p).trapframe} + R)))
    (he : Exits img M₁ M' p R L entry path argv r) : Exits img M M' p R L entry path argv r := by
  have hM₁ := h.phys
  generalize M₁.kernel.phys = s₁ at hM₁
  subst hM₁
  rcases he with ⟨hr, fs', hc⟩ | ⟨hr, pt, s', fs', sp, as, byte, hM', hb⟩
  · exact .inl ⟨hr, fs', h.trans hc⟩
  · refine .inr ⟨hr, pt, s', fs', sp, as, byte, hM', hb.le, hb.small, hb.owned, ?_, hb.resumes,
      hb.shows, hb.args, hb.below⟩
    exact Untouched.trans (h.rest.mono fun o ho =>
      Multiset.mem_add.mpr (.inr (Multiset.mem_add.mpr (.inr ho)))) hb.rest

theorem Loaded.empty (h : Owned img M.kernel.phys fs ({.space pt 0 tf} + R)) :
    Loaded img M.kernel.phys fs pt tf R .empty := by
  have h0 : npages Layout.empty.sz = 0 := by decide
  refine ⟨by rwa [h0], by decide, fun v hv => ?_, fun v hv => ?_⟩
  · rw [h0] at hv
    exact absurd hv (Nat.not_lt_zero v)
  · rw [h0] at hv
    exact absurd hv (Nat.not_lt_zero v)

theorem foldl_sz_le {l : List Proghdr} (hL : L.sz ≤ B) (hl : ∀ ph ∈ l, ph.vaddr + ph.memsz ≤ B) :
    (l.foldl (Layout.load data) L).sz ≤ B := by
  induction l generalizing L with
  | nil => exact hL
  | cons ph l ih =>
    refine ih ?_ fun ph' hph => hl ph' (List.mem_cons_of_mem _ hph)
    have := hl ph List.mem_cons_self
    show max L.sz (ph.vaddr + ph.memsz) ≤ B
    omega

theorem putFile_runs (hf : Ready sb s cwd c) (hk : Taken sb s M.fs c ip j (some p)) :
    (putFile sb p ip).Runs M E fun _ M' => ∃ σ, M' = M.setFs σ ∧ Settled sb s σ :=
  onFs_runs (putInode_runs hf hk)

/-- `exec` gives up when it has no page table yet. -/
theorem execBad_runs_none (hf : Ready sb s cwd c) (hk : Taken sb s M.fs c ip j (some p)) :
    (execBad sb img p ip none 0).Runs M E fun r M' => r = none ∧ ∃ σ, M' = M.setFs σ ∧
      Settled sb s σ := by
  refine .seq (.ret ?_)
  refine .bind (putFile_runs hf hk) ?_
  exact fun _ M' hM' => .ret ⟨rfl, hM'⟩

/-- `exec` gives up and frees the new page table. -/
theorem execBad_runs_some (hf : Ready sb s cwd c) (hk : Taken sb s M.fs c ip j (some p))
    (h : Owned img M.kernel.phys fs ({.space pt (npages sz) tf} + R)) :
    (execBad sb img p ip (some pt) sz).Runs M E fun r M' => r = none ∧ ∃ σ, Settled sb s σ ∧
      ∃ fs', Confined img (M.setFs σ) M' fs' 0 R := by
  refine .bind (onMem_runs (procFreepagetable_owned h)) ?_
  rintro _ _ ⟨s₁, rfl, fs', ho, hrest⟩
  refine .bind (putFile_runs hf (M := M.setPhys s₁) hk) ?_
  rintro _ _ ⟨σ, rfl, hσ⟩
  exact .ret ⟨rfl, σ, hσ, fs', rfl, by rw [zero_add]; exact ho, hrest⟩

theorem npages_le {n : Nat} (hsz : sz ≤ 2 ^ 64 - PGSIZE) (h : sz ≤ n * PGSIZE) :
    npages sz ≤ n := by
  rw [npages_eq hsz]
  simp only [PGSIZE] at *
  omega

/-- `exec` from the point on where it has a page table. -/
theorem execLoad_runs {m off : Nat} (hf : Ready sb s cwd c)
    (hk : Taken sb s M.fs c ip j (some p)) (hopen : Opened sb M.fs ip data) (hoff : off < 2 ^ 32)
    (hentry : entry < 2 ^ 64)
    (h : Owned img M.kernel.phys fs ({.space pt 0 (M.kernel.proc p).trapframe} +
      ({M.kernel.space p} + ({.page (M.kernel.proc p).trapframe} + R)))) :
    (do
      let (ok, sz) ← loadProgram sb img pt ip m off 0
      if ok then do
        putFile sb p ip
        execStack img p pt sz entry path argv
      else execBad sb img p ip (some pt) sz : Prog Machine (Option Nat)).Runs M E fun r M' =>
      Settled sb s M'.fs ∧
      ((r = none ∧ ∃ fs', Confined img (M.setFs M'.fs) M' fs' 0
          ({M.kernel.space p} + ({.page (M.kernel.proc p).trapframe} + R))) ∨
        Fits data off m ∧ Exits img (M.setFs M'.fs) M' p R
          ((loads data off m).foldl (Layout.load data) .empty) entry path argv r) ∧
      (r = none → Fits data off m → ArgsFit argv →
        (∀ ph ∈ loads data off m, 0 < ph.vaddr + ph.memsz) →
        ∀ K, (∀ ph ∈ loads data off m, ph.vaddr + ph.memsz ≤ K * PGSIZE) →
          fs.length ≤ 3 * K + 6) := by
  have hzero : npages Layout.empty.sz = 0 := by decide
  refine .bind (loadProgram_runs hopen hoff (Loaded.empty h)) ?_
  rintro ⟨ok, sz⟩ M₁ ⟨fs₁, hr⟩
  have hk₁ : Taken sb s M₁.fs c ip j (some p) := by
    rw [hr.phys]
    exact hk
  cases ok with
  | true =>
    obtain rfl : sz = _ := hr.size rfl
    refine .bind (putFile_runs hf hk₁) ?_
    rintro _ _ ⟨σ, rfl, hσ⟩
    have hconf := hr.toConfined.setFs σ
    have hproc : M₁.kernel.proc = M.kernel.proc := by
      rw [hr.phys]
      rfl
    have hspace : (M₁.setFs σ).kernel.space p = M.kernel.space p := by
      show M₁.kernel.space p = _
      rw [Kernel.space, Kernel.space, hproc]
    have hL := hr.loaded rfl
    rw [← hspace] at hL
    refine (execStack_runs (M := M₁.setFs σ) (by show (M₁.kernel.proc p).trapframe = _; rw [hproc]) hL
      hentry).mono ?_
    rintro r M' ⟨hexit, hroom⟩
    have hM' : M'.fs = σ := by
      rcases hexit with ⟨-, fs', hc⟩ | ⟨-, pt, s', fs', sp, as, byte, hM', -⟩
      · rw [hc.phys]
        rfl
      · rw [hM']
        rfl
    rw [hM']
    refine ⟨hσ, .inr ⟨hr.fits rfl, hexit.after hconf⟩, fun hnone hfits hargv _ K hK => ?_⟩
    have hle := hr.room rfl
    have hpages := npages_le hr.le (foldl_sz_le (Nat.zero_le _) hK)
    rcases hroom hnone with hc | hfew
    · exact absurd hargv hc
    · omega
  | false =>
    refine .mono (execBad_runs_some hf hk₁ hr.owned) ?_
    rintro _ M' ⟨rfl, σ, hσ, fs', hconf⟩
    have hM' : M'.fs = σ := by
      rw [hconf.phys]
      rfl
    rw [hM']
    refine ⟨hσ, .inl ⟨rfl, fs', (hr.toConfined.setFs σ).trans hconf⟩, fun _ hfits _ hpos K hK => ?_⟩
    have := hr.failed rfl hfits hpos K hK
    omega

/-- `exec` has stopped before it had a page table. -/
theorem Ran.none {σ : Fs.State} (h : Owned img M.kernel.phys fs
      ({M.kernel.space p} + ({.page (M.kernel.proc p).trapframe} + R))) (hσ : Settled sb M.fs σ)
    (hwhy : ∀ j, fileAt sb M.fs c path = some j → Executable (Fs.files sb M.fs.disk j).data →
      fs.length ≤ 5) : Ran sb img M (M.setFs σ) fs R p c path argv none where
  settled := hσ
  result := .inl ⟨rfl, fs, .refl (M := M.setFs σ) (by rw [zero_add]; exact h)⟩
  refused _ j hj hexe _ _ K _ := by
    have := hwhy j hj hexe
    omega

theorem exec_runs (junk : Bytes) (argv : List (List UInt8)) (hf : Ready sb M.fs cwd c) (h0 : 0 ∉ path)
    (h : Owned img M.kernel.phys fs
      ({M.kernel.space p} + ({.page (M.kernel.proc p).trapframe} + R))) :
    (exec sb img junk p cwd path argv).Runs M E fun r M' =>
      Ran sb img M M' fs R p c path argv r := by
  rw [exec]
  refine .bind (onFs_runs (beginOp_runs hf.room)) ?_
  rintro _ _ ⟨_, rfl, rfl⟩
  refine .bind (onFs_runs (M := M.setFs (begun M.fs)) (namei_runs hf h0)) ?_
  rintro r _ ⟨σ, rfl, ⟨rfl, hno, hσ⟩ | ⟨ip, j, rfl, hj, hk⟩⟩
  · refine .bind (onFs_runs (M := M.setFs σ) (endOp_runs hσ)) ?_
    rintro _ _ ⟨σ', rfl, hσ'⟩
    refine .ret (Ran.none h hσ' fun j hj => ?_)
    rw [hno] at hj
    cases hj
  refine .bind (onFs_runs (M := M.setFs σ) (ilock_runs hf hk)) ?_
  rintro _ _ ⟨σ₁, rfl, hk₁, hopen⟩
  generalize hdata : (Fs.files sb M.fs.disk j).data = data at hopen
  have hfile : ∀ j', fileAt sb M.fs c path = some j' → (Fs.files sb M.fs.disk j').data = data := by
    intro j' hj'
    rw [hj] at hj'
    cases hj'
    exact hdata
  have hbad : ¬ Executable data → (execBad sb img p ip none 0).Runs (M.setFs σ₁) E fun r M' =>
      Ran sb img M M' fs R p c path argv r := by
    intro hno
    refine (execBad_runs_none (M := M.setFs σ₁) hf hk₁).mono ?_
    rintro _ _ ⟨rfl, σ', rfl, hσ'⟩
    refine Ran.none h hσ' fun j' hj' hexe => ?_
    rw [hfile j' hj'] at hexe
    exact absurd hexe hno
  refine .bind (read_runs (M := M.setFs σ₁) hopen (by decide)) ?_
  rintro _ _ ⟨rfl, rfl⟩
  have hlen : (part data 0 elfhdrSize).length = elfhdrSize ↔ 0 + elfhdrSize ≤ data.length :=
    part_length_eq hopen.length_lt (by decide) (by decide) (by decide)
  have helf : Elfhdr.ofBytes (Fs.array (part data 0 elfhdrSize)) = elfOf data := rfl
  dsimp only
  rw [helf]
  by_cases hhdr : elfhdrSize ≤ data.length
  swap
  · rw [if_pos fun hc => hhdr (by have := hlen.mp (Option.some_inj.mp hc); omega)]
    exact hbad fun hc => hhdr hc.header
  rw [if_neg (not_not.mpr (congrArg some (hlen.mpr (by omega))))]
  by_cases hmagic : (elfOf data).magic = ELF_MAGIC
  swap
  · rw [if_pos hmagic]
    exact hbad fun hc => hmagic hc.magic
  rw [if_neg (not_not.mpr hmagic)]
  refine .seq (self_runs ?_)
  have htf : img.Page (M.kernel.proc p).trapframe := by
    rw [add_left_comm] at h
    exact h.page.1
  refine .bind (onMem_runs (M := M.setFs σ₁) (procPagetable_owned h htf)) ?_
  rintro _ _ ⟨s₁, rfl, hrest, fs₁, ⟨rfl, ho, hfew⟩ | ⟨pt, rfl, -, ho, hroom⟩⟩
  · refine (execBad_runs_none (M := (M.setFs σ₁).setPhys s₁) hf hk₁).mono ?_
    rintro _ _ ⟨rfl, σ', rfl, hσ'⟩
    refine ⟨hσ', .inl ⟨rfl, fs₁, rfl, by rw [zero_add]; exact ho, hrest⟩, fun _ j _ _ _ _ K _ => ?_⟩
    omega
  · refine (execLoad_runs (M := (M.setFs σ₁).setPhys s₁) hf hk₁ hopen (Nat.mod_lt _ (by decide))
      (leGet_lt 8 ..) ho).mono ?_
    rintro r M' ⟨hσ', hexit, hroom'⟩
    have hconf : Confined img (M.setFs M'.fs) ((M.setFs M'.fs).setPhys s₁) fs₁ _ _ :=
      ⟨rfl, ho, hrest⟩
    refine ⟨hσ', ?_, fun hnone j' hj' hexe hargv hpos K hK => ?_⟩
    · rcases hexit with ⟨hnone, fs', hc⟩ | ⟨hfits, hexit⟩
      · exact .inl ⟨hnone, fs', hconf.trans hc⟩
      · refine .inr ⟨j, hj, ?_⟩
        rw [hdata]
        exact ⟨⟨hhdr, hmagic, hfits⟩, hexit.after hconf⟩
    · rw [hfile j' hj'] at hexe hpos hK
      have := hroom' hnone hexe.fits hargv hpos K hK
      omega

/-- `exec` returns the number of arguments if there is no reason to refuse. -/
theorem Ran.succeeds (h : Ran sb img M M' fs R p c path argv r)
    (hgood : ¬ Refused sb M.fs c path argv fs.length) : r = some argv.length := by
  have hr : r ≠ .none := fun hc => hgood (h.refused hc)
  rcases h.result with ⟨hc, -⟩ | ⟨j, -, -, ⟨hc, -⟩ | ⟨hc, -⟩⟩
  · exact absurd hc hr
  · exact absurd hc hr
  · exact hc

/-- `exec` always comes back, with the file system as it was. If it fails, nothing has changed for
    any process, and the same pages are free. The arguments are those that `sys_exec` passes: with
    `MAXARG` of them the code would write the null pointer behind the end of `ustack`. -/
theorem exec_all_or_nothing (argv : Argv) (junk : Bytes) (hf : Ready sb M.fs cwd c) (h0 : 0 ∉ path)
    (h : Owned img M.kernel.phys fs
      ({M.kernel.space p} + ({.page (M.kernel.proc p).trapframe} + R))) :
    ∃ r M', (exec sb img junk p cwd path argv.strings).run M = .ok r M' ∧
      Settled sb M.fs M'.fs ∧
      (r = none → M' = (M.setFs M'.fs).setPhys M'.kernel.phys ∧
        Untouched ({M.kernel.space p} + ({.page (M.kernel.proc p).trapframe} + R))
          M.kernel.phys.mem M'.kernel.phys.mem ∧
        ∃ fs', fs'.Perm fs ∧ Owned img M'.kernel.phys fs'
          ({M.kernel.space p} + ({.page (M.kernel.proc p).trapframe} + R))) := by
  have hruns := exec_runs (E := fun _ => False) junk argv.strings hf h0 h
  obtain ⟨r, M', hrun, hran⟩ := hruns.ends fun _ => id
  refine ⟨r, M', hrun, hran.settled, ?_⟩
  rintro rfl
  have hconf : ∃ fs', Confined img (M.setFs M'.fs) M' fs' 0
      ({M.kernel.space p} + ({.page (M.kernel.proc p).trapframe} + R)) := by
    rcases hran.result with ⟨-, hc⟩ | ⟨j, -, -, ⟨-, hc⟩ | ⟨hc, -⟩⟩
    · exact hc
    · exact hc
    · cases hc
  obtain ⟨fs', hconf⟩ := hconf
  have ho := hconf.owned
  rw [zero_add] at ho
  exact ⟨hconf.phys, hconf.rest, fs', h.free_perm ho hconf.rest, ho⟩

end

/-! ## The first process and a file -/

/-- A file "init" of one block at most. -/
def initFile (data : List UInt8) (h : data ≠ [] ∧ data.length ≤ BSIZE) : Mkfs.Input where
  name := [105, 110, 105, 116]
  reads := [data]
  string := by decide
  sizes := by
    intro p hp
    rw [List.mem_singleton.mp hp]
    exact h

/-- The first process of a kernel with the file system `disk`. -/
def firstProcess (disk : Fs.Disk) (s : Phys) (pagetable sz trapframe : Nat) : Machine where
  kernel := oneProcess s pagetable sz trapframe
  fs := (Fs.Sys.start disk).fs
  name := fun _ _ => 0

theorem start_ready {inputs : List Mkfs.Input} {disk : Fs.Disk} {fb : Nat} {D : Nat → Fs.Dinode}
    (h : Mkfs.Image inputs disk fb D) (hn : inputs.length + 1 < Mkfs.NINODES)
    (hp : Mkfs.Partial inputs) : Ready Mkfs.sb (Fs.Sys.start disk).fs 0 ROOTINO := by
  have hself : (Fs.Sys.start disk).fs.inode 0 = { Fs.Inode.zero with inum := ROOTINO, ref := 1 } := by
    simp only [Fs.Sys.start, Function.update_self]
  have hne : ∀ e, e ≠ 0 → (Fs.Sys.start disk).fs.inode e = Fs.Inode.zero := by
    intro e he
    simp only [Fs.Sys.start, Function.update_of_ne he]
  refine ⟨Mkfs.sb_ok, h.no_holes hn hp, (Fs.begun_table disk (by decide)).congr rfl rfl,
    Fs.image_tree h hn hp, fun e => ?_, ⟨by decide, by rw [hself]; exact one_pos, by rw [hself]⟩,
    (Fs.image_used h hn one_pos (by omega)).1,
    ⟨1, by decide, 2, by decide, by rw [hne 1 (by decide)]; rfl, by rw [hne 2 (by decide)]; rfl,
      by decide⟩, show 0 + (0 + 1) * MAXOPBLOCKS ≤ LOGSIZE by decide⟩
  by_cases he : e = 0
  · rw [he, hself]
    rfl
  · rw [hne e he]
    rfl

theorem initFile_admissible (data : List UInt8) (h : data ≠ [] ∧ data.length ≤ BSIZE) :
    Mkfs.Admissible [initFile data h] := by
  have hlen : (initFile data h).data.length ≤ BSIZE := by
    rw [Mkfs.Input.data, show (initFile data h).reads.flatten = data from List.append_nil data]
    exact h.2
  have hcost : Mkfs.cost [initFile data h] ≤ 2 := by
    have := Mkfs.nblk_mono hlen
    have hone : Mkfs.nblk BSIZE = 1 := by decide
    simp only [Mkfs.cost]
    omega
  have hmeta : Mkfs.nmeta + 2 + 2 * (Mkfs.nblk (16 * 3) - Mkfs.nblk (16 * 2)) + 2 ≤ FSSIZE := by
    decide
  refine ⟨?_, fun f hf => ?_, fun f hf => ?_⟩
  · show Mkfs.nmeta + 2 + 2 * (Mkfs.nblk (16 * 3) - Mkfs.nblk (16 * 2)) +
      Mkfs.cost [initFile data h] ≤ FSSIZE
    omega
  · rw [List.mem_singleton.mp hf]
    exact hlen.trans (by decide)
  · rw [List.mem_singleton.mp hf]
    show (47 : UInt8) ∉ [105, 110, 105, 116]
    decide

/-- There is a process that can execute a given file of one block. -/
theorem exists_machine (img : Image) (data : List UInt8) (h : data ≠ [] ∧ data.length ≤ BSIZE) :
    ∃ (M : Machine) (fs : List Nat), Ready Mkfs.sb M.fs 0 ROOTINO ∧
      Owned img M.kernel.phys fs
        ({M.kernel.space 0} + ({.page (M.kernel.proc 0).trapframe} + 0)) ∧
      700 ≤ fs.length ∧ fileAt Mkfs.sb M.fs ROOTINO [105, 110, 105, 116] = some 2 ∧
      (Fs.files Mkfs.sb M.fs.disk 2).data = data := by
  have hn : [initFile data h].length + 1 < Mkfs.NINODES := show 1 + 1 < 200 by decide
  have hp : Mkfs.Partial [initFile data h] := show (1 + 2) % 64 ≠ 0 by decide
  obtain ⟨disk, hm⟩ := Mkfs.makes_of_admissible hn (initFile_admissible data h)
  obtain ⟨fb, D, hi⟩ := Mkfs.makes_image hn hm
  obtain ⟨s, fs, pt, tf, ho, hlen, -⟩ := exists_owned (n := 1) img (by decide)
  have hone : npages 4096 = 1 := by decide
  rw [← hone] at ho
  refine ⟨firstProcess disk s pt 4096 tf, fs, start_ready hi hn hp, by rw [add_zero]; exact ho, hlen,
    ?_, ?_⟩
  · have hlook := Fs.image_find hi hn (show 2 < 1 + 2 by decide) (n := [105, 110, 105, 116]) rfl ?_
    swap
    · intro e he
      interval_cases e
      · show ([46] : List UInt8).take 14 ≠ [105, 110, 105, 116]
        decide
      · show ([46, 46] : List UInt8).take 14 ≠ [105, 110, 105, 116]
        decide
    have hdir : (Fs.files Mkfs.sb disk ROOTINO).type = T_DIR := (Fs.image_node hi hn ROOTINO).1
    show Fs.walk (Fs.files Mkfs.sb disk) ROOTINO [[105, 110, 105, 116]] = some 2
    rw [Fs.walk, List.foldlM_cons, Fs.lookIn, if_pos hdir]
    show ((Fs.dir (Fs.files Mkfs.sb disk ROOTINO).data).look [105, 110, 105, 116] >>= some) = _
    rw [hlook]
    rfl
  · show (Fs.files Mkfs.sb disk 2).data = data
    rw [hi.file hn (show 0 < 1 by decide)]
    exact List.append_nil data

/-- The first process executes a file that is no program. -/
theorem exec_all_or_nothing_text : ∃ M M' : Machine, Ready Mkfs.sb M.fs 0 ROOTINO ∧
    fileAt Mkfs.sb M.fs ROOTINO [105, 110, 105, 116] = some 2 ∧
    (exec Mkfs.sb Image.built (fun _ => 0) 0 0 [105, 110, 105, 116] [[97], [98]]).run M = .ok none M' ∧
    Settled Mkfs.sb M.fs M'.fs ∧ M' = (M.setFs M'.fs).setPhys M'.kernel.phys := by
  obtain ⟨M, fs, hf, h, -, hfile, hdata⟩ := exists_machine Image.built [1, 2, 3] ⟨by decide, by decide⟩
  have h0 : (0 : UInt8) ∉ [105, 110, 105, 116] := by decide
  obtain ⟨r, M', hrun, hs, hr⟩ := exec_all_or_nothing ⟨[[97], [98]], by decide, by decide⟩ (fun _ => 0)
    hf h0 h
  have hruns := exec_runs (E := fun _ => False) (fun _ => 0) [[97], [98]] hf h0 h
  obtain ⟨_, _, hrun', hran⟩ := hruns.ends fun _ => id
  cases hrun.symm.trans hrun'
  obtain rfl : r = none := by
    rcases hran.result with ⟨hc, -⟩ | ⟨j, hj, hexe, -⟩
    · exact hc
    · cases hfile.symm.trans hj
      rw [hdata] at hexe
      exact absurd hexe.header (by decide)
  exact ⟨M, M', hf, hfile, hrun, hs, (hr rfl).1⟩

end Xv6.Process
