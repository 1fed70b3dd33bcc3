import Xv6.Process.Execute
import Xv6.Process.Pipealloc

/-!
# `sys_exec`

Before it calls `exec`, `sys_exec` copies the path and the arguments into the kernel, each argument
into a page of its own. It frees these pages whatever happens afterwards. So together with `fork`
and `pipe`, a call of `exec` that fails gives back everything it took.
-/

namespace Xv6.Process

open Lib Mem

/-! ## Arguments of system calls (`kernel/syscall.c`) -/

/-- Fetch the uint64 at `addr` from the current process. Both tests are needed, in case of
    overflow. -/
def fetchaddr (p addr : Nat) : Prog Machine (Option Nat) := do
  let x ← self p
  if x.sz ≤ addr ∨ x.sz < (addr + 8) % 2 ^ 64 then return none
  else
    match ← onMem (copyin x.pagetable addr 8) with
    | none => return none
    | some bytes => return some (leGet 8 (Fs.array bytes) 0)

/-- Fetch the nul-terminated string at `addr` from the current process. Returns what goes to the
    buffer, at most `max` bytes, and whether there was a NUL among them. -/
def fetchstr (p addr max : Nat) : Prog Machine (List UInt8 × Bool) := do
  onMem (copyinstr (← self p).pagetable addr max)

/-- The string in a buffer that has a NUL. -/
def cstring (buf : List UInt8) : List UInt8 := buf.takeWhile (· ≠ 0)

/-! ## `sys_exec` (`kernel/sysfile.c`) -/

/-- `argv` after the loop over the arguments: the pages, the strings in them, and whether the array
    of the user has ended. -/
structure Fetched where
  ok : Bool
  pages : List Nat
  strings : List (List UInt8)

/-- The loop over the arguments, from the argument `i` on; `m` are left in the array. -/
def fetchArgs (p uargv : Nat) :
    (m i : Nat) → (pages : List Nat) → (strings : List (List UInt8)) → Prog Machine Fetched
  | 0, _, pages, strings => return ⟨false, pages, strings⟩
  | m + 1, i, pages, strings => do
    match ← fetchaddr p ((uargv + 8 * i) % 2 ^ 64) with
    | none => return ⟨false, pages, strings⟩
    | some uarg =>
      if uarg = 0 then return ⟨true, pages, strings⟩
      else
        match ← onMem kalloc with
        | none => return ⟨false, pages, strings⟩
        | some page => do
          let (bytes, ok) ← fetchstr p uarg PGSIZE
          onMem (putAt page (Fs.array bytes) bytes.length)
          if ok then fetchArgs p uargv m (i + 1) (pages ++ [page]) (strings ++ [cstring bytes])
          else return ⟨false, pages ++ [page], strings⟩

/-- The array `path` in `sys_exec`. -/
abbrev MAXPATH : Nat := 128

section

variable (sb : Fs.Superblock) (img : Image) (junk : Bytes)

/-- `for(i = 0; i < NELEM(argv) && argv[i] != 0; i++) kfree(argv[i]);` -/
def freeArgs : List Nat → Prog Machine Unit
  | [] => return ()
  | page :: pages => do
    onMem (kfree img page)
    freeArgs pages

/-- `sys_exec` with its arguments, the address of a path and the address of an array of pointers. -/
def sysExec (p cwd upath uargv : Nat) : Prog Machine (Option Nat) := do
  let (path, ok) ← fetchstr p upath MAXPATH
  if ok then do
    let args ← fetchArgs p uargv MAXARG 0 [] []
    if args.ok then do
      let ret ← exec sb img junk p cwd (cstring path) args.strings
      freeArgs img args.pages
      return ret
    else do
      freeArgs img args.pages
      return none
  else return none

end

section

variable {sb : Fs.Superblock} {img : Image} {M M' : Machine} {s : Phys} {fs fs' : List Nat}
  {A R : Multiset Owner} {junk : Bytes} {pages : List Nat} {strings : List (List UInt8)}
  {p cwd c addr upath uargv m i : Nat} {E : Option String → Prop}

/-- The pages of the arguments. -/
def argPages (pages : List Nat) : Multiset Owner := ↑(pages.map Owner.page)

theorem argPages_nil : argPages [] = 0 := rfl

theorem argPages_cons (page : Nat) : argPages (page :: pages) = {.page page} + argPages pages := by
  simp [argPages]

theorem argPages_append (page : Nat) : argPages (pages ++ [page]) = {.page page} + argPages pages := by
  rw [argPages, List.map_append, ← Multiset.coe_add, add_comm]
  rfl

theorem not_mem_cstring (buf : List UInt8) : 0 ∉ cstring buf := by
  intro h
  simpa using List.mem_takeWhile_imp h

theorem fetchaddr_runs : (fetchaddr p addr).Runs M E fun _ M' => M' = M := by
  refine .seq (self_runs ?_)
  split
  · exact .ret rfl
  refine .bind (onMem_runs copyin_runs) ?_
  rintro r _ ⟨_, rfl, rfl⟩
  cases r with
  | none => exact .ret rfl
  | some bytes => exact .ret rfl

theorem fetchstr_runs {max : Nat} : (fetchstr p addr max).Runs M E fun r M' =>
    M' = M ∧ r.1.length ≤ max := by
  refine .seq (self_runs ?_)
  refine (onMem_runs copyinstr_runs).mono ?_
  rintro r _ ⟨_, rfl, rfl, hlen⟩
  exact ⟨rfl, hlen⟩

theorem putAt_owned {src : Nat → UInt8} {len page : Nat} (h : Owned img s fs ({.page page} + R))
    (hlen : len ≤ PGSIZE) : (putAt page src len).Runs s E fun _ s' =>
      Owned img s' fs ({.page page} + R) ∧ Untouched R s.mem s'.mem := by
  have hf : Frame {page} s.mem (putBytes s.mem (page + 0) src len) :=
    frame_putBytes h.page.1.aligned 0 (by omega)
  refine .modify ⟨h.write hf rfl, h.untouched (hf.mono fun q hq => ?_)⟩
  rw [total_singleton]
  exact Multiset.mem_add.mpr (.inr hq)

/-- The loop over the arguments owns the pages it has taken. -/
theorem fetchArgs_runs (h : Owned img M.kernel.phys fs (argPages pages + A)) :
    (fetchArgs p uargv m i pages strings).Runs M E fun r M' => ∃ fs',
      Confined img M M' fs' (argPages r.pages) A := by
  induction m generalizing M fs i pages strings with
  | zero => exact .ret ⟨fs, .refl h⟩
  | succ m ih =>
    refine .bind fetchaddr_runs ?_
    intro r M₀ hM₀
    rw [hM₀]
    cases r with
    | none => exact .ret ⟨fs, .refl h⟩
    | some uarg =>
    dsimp only
    split
    · exact .ret ⟨fs, .refl h⟩
    refine .bind (onMem_runs (kalloc_kept h)) ?_
    rintro _ _ ⟨s, rfl, ⟨rfl, -, rfl⟩ | ⟨page, fs₁, rfl, -, ho, hu⟩⟩
    · exact .ret ⟨fs, .refl h⟩
    refine .bind fetchstr_runs ?_
    rintro ⟨bytes, ok⟩ M₁ ⟨hM₁, hlen⟩
    rw [hM₁]
    refine .bind (onMem_runs (M := M.setPhys s) (putAt_owned ho hlen)) ?_
    rintro _ _ ⟨s', rfl, ho', hu'⟩
    rw [← add_assoc, ← argPages_append] at ho'
    have hc : Confined img M ((M.setPhys s).setPhys s') fs₁ (argPages (pages ++ [page])) A :=
      ⟨rfl, ho', (hu.trans hu').mono fun o hm => Multiset.mem_add.mpr (.inr hm)⟩
    cases ok with
    | false => exact .ret ⟨fs₁, hc⟩
    | true =>
      refine (ih (M := (M.setPhys s).setPhys s') ho').mono ?_
      rintro r M' ⟨fs', hc'⟩
      exact ⟨fs', hc.trans hc'⟩

theorem freeArgs_runs (h : Owned img M.kernel.phys fs (argPages pages + A)) :
    (freeArgs img pages).Runs M E fun _ M' => ∃ fs', Confined img M M' fs' 0 A := by
  induction pages generalizing M fs with
  | nil => exact .ret ⟨fs, .refl h⟩
  | cons page pages ih =>
    rw [argPages_cons, add_assoc] at h
    refine .bind (onMem_runs (kfree_kept h)) ?_
    rintro _ _ ⟨s, rfl, ho, hu⟩
    refine (ih (M := M.setPhys s) ho).mono ?_
    rintro _ M' ⟨fs', hc⟩
    have hc₁ : Confined img M (M.setPhys s) (page :: fs) (argPages pages) A :=
      ⟨rfl, ho, hu.mono fun o hm => Multiset.mem_add.mpr (.inr hm)⟩
    exact ⟨fs', hc₁.trans hc⟩

/-- All pages are back, whatever has become of the file system. -/
theorem Confined.gaveBack {σ : Fs.State} (hown : Owned img M.kernel.phys fs A)
    (h : Confined img (M.setFs σ) M' fs' 0 A) : GaveBack img M.kernel M'.kernel p fs := by
  have ho := h.owned
  rw [zero_add] at ho
  have hk : M'.kernel = M.kernel.setPhys M'.kernel.phys := congrArg Machine.kernel h.phys
  refine Back.gaveBack hown ⟨fs', ho, h.rest.kept⟩ (fun f => ?_) ?_ fun q => ?_
  · rw [hk]
    rfl
  · rw [hk]
    rfl
  · rw [hk]
    rfl

/-- What belongs to the process and what belongs to `sys_exec`. -/
theorem owners_comm (o tf : Owner) :
    ({o} + ({tf} + (argPages pages + R)) : Multiset Owner) = argPages pages + ({o} + ({tf} + R)) := by
  rw [add_left_comm ({tf} : Multiset Owner), add_left_comm ({o} : Multiset Owner)]

/-- The pages of the arguments are still there after `exec`. If it has failed, so is all the rest.
    -/
theorem args_of_ran {path : List UInt8} {r : Option Nat}
    (h : Ran sb img M M' fs (argPages pages + R) p c path strings r) : ∃ fs' A',
      Owned img M'.kernel.phys fs' (argPages pages + A') ∧
      (r = none → Confined img (M.setFs M'.fs) M' fs' (argPages pages)
        ({M.kernel.space p} + ({.page (M.kernel.proc p).trapframe} + R)) ∧
        A' = {M.kernel.space p} + ({.page (M.kernel.proc p).trapframe} + R)) := by
  have hconf : ∀ fs', Confined img (M.setFs M'.fs) M' fs' 0
      ({M.kernel.space p} + ({.page (M.kernel.proc p).trapframe} + (argPages pages + R))) →
      Confined img (M.setFs M'.fs) M' fs' (argPages pages)
        ({M.kernel.space p} + ({.page (M.kernel.proc p).trapframe} + R)) := by
    intro fs' hc
    have ho := hc.owned
    have hu := hc.rest
    rw [owners_comm] at ho hu
    rw [zero_add] at ho
    exact ⟨hc.phys, ho, hu.mono fun o hm => Multiset.mem_add.mpr (.inr hm)⟩
  rcases h.result with ⟨-, fs', hc⟩ | ⟨j, -, -, ⟨-, fs', hc⟩ | ⟨hr, pt, s', fs', sp, as, byte, hM', hb⟩⟩
  · exact ⟨fs', _, (hconf fs' hc).owned, fun _ => ⟨hconf fs' hc, rfl⟩⟩
  · exact ⟨fs', _, (hconf fs' hc).owned, fun _ => ⟨hconf fs' hc, rfl⟩⟩
  · have ho := hb.owned
    rw [owners_comm] at ho
    have hphys : M'.kernel.phys = s' := by rw [hM']; rfl
    rw [← hphys] at ho
    refine ⟨fs', _, ho, fun hnone => ?_⟩
    rw [hr] at hnone
    cases hnone

/-- `sys_exec` returns, and if it fails it has given everything back. -/
theorem sysExec_runs (hf : Ready sb M.fs cwd c) (h : Sane img M.kernel p fs R) :
    (sysExec sb img junk p cwd upath uargv).Runs M E fun r M' =>
      r = none → GaveBack img M.kernel M'.kernel p fs := by
  have hown := h.owned
  refine .bind fetchstr_runs ?_
  rintro ⟨path, ok⟩ M₀ ⟨hM₀, -⟩
  rw [hM₀]
  cases ok with
  | false => exact .ret fun _ => (Confined.refl (by rw [zero_add]; exact hown)).gaveBack hown
  | true =>
  refine .bind (fetchArgs_runs (by rw [argPages_nil, zero_add]; exact hown)) ?_
  rintro ⟨ok, pages, strings⟩ M₁ ⟨fs₁, hc⟩
  cases ok with
  | false =>
    refine .bind (freeArgs_runs hc.owned) ?_
    rintro _ M₂ ⟨fs₂, hc₂⟩
    exact .ret fun _ => (hc.trans hc₂).gaveBack hown
  | true =>
    have hk : M₁.kernel = M.kernel.setPhys M₁.kernel.phys := congrArg Machine.kernel hc.phys
    have hspace : M₁.kernel.space p = M.kernel.space p := by rw [hk]; rfl
    have hproc : M₁.kernel.proc p = M.kernel.proc p := by rw [hk]; rfl
    have hfs : M₁.fs = M.fs := by rw [hc.phys]; rfl
    rw [← hfs] at hf
    have ho : Owned img M₁.kernel.phys fs₁ ({M₁.kernel.space p} +
        ({.page (M₁.kernel.proc p).trapframe} + (argPages pages + R))) := by
      rw [hspace, hproc, owners_comm]
      exact hc.owned
    refine .bind (exec_runs junk strings hf (not_mem_cstring path) ho) ?_
    intro r M₂ hran
    obtain ⟨fs₂, A', ho₂, hnone⟩ := args_of_ran hran
    refine .bind (freeArgs_runs ho₂) ?_
    rintro _ M₃ ⟨fs₃, hc₃⟩
    refine .ret fun hr => ?_
    obtain ⟨hc₂, rfl⟩ := hnone hr
    rw [hspace, hproc] at hc₂ hc₃
    exact ((hc.setFs M₂.fs).trans (hc₂.trans hc₃)).gaveBack hown

/-- `fork`, `exec` and `pipe` come back, and where they fail the same pages are free, every file has
    as many references, the caller has the same descriptors, and the same slots are in use. -/
theorem failed_calls_give_back (fdarray upath uargv : Nat) (junk : Bytes) (hf : Ready sb M.fs cwd c)
    (h : Sane img M.kernel p fs R) :
    (∃ r k', (fork img p).run M.kernel = .ok r k' ∧
      (r = none → GaveBack img M.kernel k' p fs)) ∧
    (∃ r M', (sysExec sb img junk p cwd upath uargv).run M = .ok r M' ∧
      (r = none → GaveBack img M.kernel M'.kernel p fs)) ∧
    ∃ r k', (sysPipe img p fdarray).run M.kernel = .ok r k' ∧
      (r = false → GaveBack img M.kernel k' p fs) := by
  refine ⟨?_, ?_, ?_⟩
  · have hruns : (fork img p).Runs M.kernel (fun _ => False) _ := fork_runs h
    exact hruns.ends fun _ => id
  · have hruns : (sysExec sb img junk p cwd upath uargv).Runs M (fun _ => False) _ :=
      sysExec_runs hf h
    exact hruns.ends fun _ => id
  · have hruns : (sysPipe img p fdarray).Runs M.kernel (fun _ => False) _ := sysPipe_runs h
    exact hruns.ends fun _ => id

end

/-- A kernel with one process and no open files. -/
theorem exists_sane (img : Image) : ∃ (M : Machine) (fs : List Nat),
    Ready Mkfs.sb M.fs 0 Fs.ROOTINO ∧ Sane img M.kernel 0 fs 0 := by
  have hdata : ([1] : List UInt8) ≠ [] ∧ ([1] : List UInt8).length ≤ BSIZE := ⟨by decide, by decide⟩
  have hn : [initFile [1] hdata].length + 1 < Mkfs.NINODES := show 1 + 1 < 200 by decide
  have hp : Mkfs.Partial [initFile [1] hdata] := show (1 + 2) % 64 ≠ 0 by decide
  obtain ⟨disk, hm⟩ := Mkfs.makes_of_admissible hn (initFile_admissible [1] hdata)
  obtain ⟨fb, D, hi⟩ := Mkfs.makes_image hn hm
  obtain ⟨s, fs, pt, tf, ho, -⟩ := exists_owned (n := 1) img (by decide)
  have hone : npages 4096 = 1 := by decide
  rw [← hone] at ho
  refine ⟨firstProcess disk s pt 4096 tf, fs, start_ready hi hn hp, ?_⟩
  refine ⟨by rw [add_zero]; exact ho, show 4096 ≤ 2 ^ 64 - 4096 by decide, ?_, fun q hq => ?_,
    fun _ _ => rfl, fun fd f hfd => ?_⟩
  · show Procstate.runnable ≠ .unused
    decide
  · by_cases h0 : q = 0
    · rw [h0] at hq
      cases hq
    · simp [firstProcess, oneProcess, h0]
  · cases hfd

/-- `sys_pipe` with an address that no page can have. -/
theorem sysPipe_bad {img : Image} {k : Kernel} {p fdarray : Nat} (hva : MAXVA ≤ fdarray) :
    (sysPipe img p fdarray).Runs k (fun _ => True) fun r _ => r = false := by
  have hout : ∀ pt src s, (copyout pt fdarray src 4).Runs s (fun _ => True)
      fun r _ => r = false := by
    intro pt src s
    have hnone : userPage s.mem pt (pgrounddown fdarray) = 0 := by
      rw [userPage, pgrounddown_div, look, if_neg]
      simp only [NPAGES, PGSIZE, MAXVA] at hva ⊢
      omega
    rw [copyout, if_neg (by decide)]
    refine .bind walkaddr_runs ?_
    rintro _ _ ⟨rfl, rfl⟩
    rw [if_pos hnone]
    exact .ret rfl
  refine .bind .any ?_
  rintro (_ | ⟨rf, wf⟩) k₁ -
  · exact .ret rfl
  refine .bind .any ?_
  rintro (_ | fd0) k₂ -
  · exact .bind .any fun _ _ _ => .bind .any fun _ _ _ => .ret rfl
  refine .bind .any ?_
  rintro (_ | fd1) k₃ -
  · exact .bind .any fun _ _ _ => .bind .any fun _ _ _ => .bind .any fun _ _ _ => .ret rfl
  refine .seq (getProc_runs ?_)
  refine .bind (onPhys_runs (Q := fun r _ => r = false) (.bind (hout _ _ _) ?_)) ?_
  · rintro _ _ rfl
    exact .ret rfl
  · rintro _ _ ⟨_, -, rfl⟩
    exact .bind .any fun _ _ _ => .bind .any fun _ _ _ => .bind .any fun _ _ _ =>
      .bind .any fun _ _ _ => .ret rfl

/-- `sys_pipe` fails when the pipe, the files and the descriptors are there. -/
theorem failed_calls_give_back_first : ∃ (M : Machine) (fs : List Nat),
    Ready Mkfs.sb M.fs 0 Fs.ROOTINO ∧ Sane Image.built M.kernel 0 fs 0 ∧
    (∃ r k', (fork Image.built 0).run M.kernel = .ok r k' ∧
      (r = none → GaveBack Image.built M.kernel k' 0 fs)) ∧
    (∃ r M', (sysExec Mkfs.sb Image.built (fun _ => 0) 0 0 16 0).run M = .ok r M' ∧
      (r = none → GaveBack Image.built M.kernel M'.kernel 0 fs)) ∧
    ∃ k', (sysPipe Image.built 0 MAXVA).run M.kernel = .ok false k' ∧
      GaveBack Image.built M.kernel k' 0 fs := by
  obtain ⟨M, fs, hf, h⟩ := exists_sane Image.built
  obtain ⟨hfork, hexec, r, k', hrun, hback⟩ := failed_calls_give_back MAXVA 16 0 (fun _ => 0) hf h
  obtain rfl : r = false := (sysPipe_bad le_rfl).ok hrun
  exact ⟨M, fs, hf, h, hfork, hexec, k', hrun, hback rfl⟩

end Xv6.Process
