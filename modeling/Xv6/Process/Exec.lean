import Xv6.Fs.Code
import Xv6.Process.Kernel

/-!
# `exec` (`kernel/exec.c`)

`exec` reads a program from the file system into a new page table and puts it in the place of the
calling process's. So its state has both memory and the file system in it.

What the linker decides of memory is `img`, and `sb` is the super block; `junk` is what the stack
holds where an array for a path element is. The arguments come from `sys_exec`, which has room for
`MAXARG` pointers, the null pointer at the end included, and for strings that fill a page with their
NUL.
-/

namespace Xv6.Process

open Lib Mem

/-- The kernel, the file system, and the names of processes. -/
structure Machine where
  kernel : Kernel
  fs : Fs.State
  /-- `p->name` -/
  name : Nat → Bytes

def Machine.setKernel (m : Machine) (k : Kernel) : Machine := { m with kernel := k }

def Machine.setFs (m : Machine) (s : Fs.State) : Machine := { m with fs := s }

def Machine.setPhys (m : Machine) (s : Phys) : Machine := { m with kernel := m.kernel.setPhys s }

/-- A program of the file system. -/
def onFs {α : Type} (q : Prog Fs.State α) : Prog Machine α := q.zoom Machine.fs Machine.setFs

/-- A program on physical memory. -/
def onMem {α : Type} (q : Prog Phys α) : Prog Machine α :=
  q.zoom (fun m => m.kernel.phys) Machine.setPhys

/-- The calling process. -/
def self (p : Nat) : Prog Machine Proc := do return (← Prog.get).kernel.proc p

/-! ## Executable files (`kernel/elf.h`) -/

/-- `"\x7FELF"` in little endian -/
abbrev ELF_MAGIC : Nat := 0x464C457F
abbrev ELF_PROG_LOAD : Nat := 1

/-- The fields of `struct elfhdr` that `exec` looks at. -/
structure Elfhdr where
  magic : Nat
  entry : Nat
  phoff : Nat
  phnum : Nat

/-- `sizeof(struct elfhdr)` -/
abbrev elfhdrSize : Nat := 64

def Elfhdr.ofBytes (m : Bytes) : Elfhdr where
  magic := leGet 4 m 0
  entry := leGet 8 m 24
  phoff := leGet 8 m 32
  phnum := leGet 2 m 56

/-- The fields of `struct proghdr` that `exec` looks at. -/
structure Proghdr where
  type : Nat
  flags : Nat
  off : Nat
  vaddr : Nat
  filesz : Nat
  memsz : Nat

/-- `sizeof(struct proghdr)` -/
abbrev proghdrSize : Nat := 56

def Proghdr.ofBytes (m : Bytes) : Proghdr where
  type := leGet 4 m 0
  flags := leGet 4 m 4
  off := leGet 8 m 8
  vaddr := leGet 8 m 16
  filesz := leGet 8 m 32
  memsz := leGet 8 m 40

def flags2perm (flags : Nat) : Nat :=
  (if flags &&& 1 ≠ 0 then PTE_X else 0) ||| (if flags &&& 2 ≠ 0 then PTE_W else 0)

/-! ## Strings -/

/-- The arguments that `sys_exec` passes on: there is room for a null pointer after them in an array
    of `MAXARG` pointers. -/
structure Argv where
  strings : List (List UInt8)
  few : strings.length < MAXARG
  noNul : ∀ arg ∈ strings, 0 ∉ arg

/-- Like strncpy but guaranteed to NUL-terminate. A string that is short enough is followed by one
    more NUL than it needs. -/
def safestrcpy (s : Bytes) (t : List UInt8) (n : Nat) : Bytes := fun i =>
  if n = 0 then s i
  else if i < min t.length (n - 1) then t.getD i 0
  else if i = min t.length (n - 1) ∨ t.length < n - 1 ∧ i = t.length + 1 then 0
  else s i

/-- What follows the last slash of a path. -/
def last (path : List UInt8) : List UInt8 := (path.reverse.takeWhile (· ≠ 47)).reverse

/-- `a - b` in 64 bits -/
def sub64 (a b : Nat) : Nat := (a + (2 ^ 64 - b % 2 ^ 64)) % 2 ^ 64

/-- The bytes of an array of 64-bit numbers. -/
def words (l : List Nat) : Bytes := fun i => UInt8.ofNat (l.getD (i / 8) 0 / 256 ^ (i % 8))

section

variable (sb : Fs.Superblock) (img : Image) (junk : Bytes)

/-! ## Loading -/

/-- The loop of `loadseg`. Its counter is a `uint`: a loop that has gone through all multiples of
    `PGSIZE` never ends. -/
def loadsegLoop (pagetable va ip offset sz : Nat) : (m i : Nat) → Prog Machine Bool
  | 0, _ => Prog.atomic fun _ => .wait
  | m + 1, i =>
    if i < sz then do
      let pa ← onMem (walkaddr pagetable ((va + i) % 2 ^ 64))
      if pa = 0 then Prog.panic "loadseg: address should exist"
      else do
        let n := if sz - i < PGSIZE then sz - i else PGSIZE
        let (r, bytes) ← onFs (Fs.readi sb ip n ((offset + i) % 2 ^ 32) n)
        onMem (putAt pa (Fs.array bytes) bytes.length)
        if r = some n then loadsegLoop pagetable va ip offset sz m ((i + PGSIZE) % 2 ^ 32)
        else return false
    else return true

/-- Load a program segment into pagetable at virtual address `va`. `offset` and `sz` are `uint`. -/
def loadseg (pagetable va ip offset sz : Nat) : Prog Machine Bool :=
  loadsegLoop sb pagetable va ip offset sz (2 ^ 32 / PGSIZE + 1) 0

/-- Load the program into memory, from the header at `off` on, of which `m` are left; `off` is an
    `int`. Returns whether all went well, and the size of the memory. -/
def loadProgram (pagetable ip : Nat) : (m off sz : Nat) → Prog Machine (Bool × Nat)
  | 0, _, sz => return (true, sz)
  | m + 1, off, sz => do
    let (r, buf) ← onFs (Fs.readi sb ip proghdrSize off proghdrSize)
    if r ≠ some proghdrSize then return (false, sz)
    else
      let ph := Proghdr.ofBytes (Fs.array buf)
      let next := (off + proghdrSize) % 2 ^ 32
      if ph.type ≠ ELF_PROG_LOAD then loadProgram pagetable ip m next sz
      else if ph.memsz < ph.filesz then return (false, sz)
      else if (ph.vaddr + ph.memsz) % 2 ^ 64 < ph.vaddr then return (false, sz)
      else if ph.vaddr % PGSIZE ≠ 0 then return (false, sz)
      else do
        let sz1 ← onMem (uvmalloc img pagetable sz ((ph.vaddr + ph.memsz) % 2 ^ 64)
          (flags2perm ph.flags))
        if sz1 = 0 then return (false, sz)
        else if ← loadseg sb pagetable ph.vaddr ip (ph.off % 2 ^ 32) (ph.filesz % 2 ^ 32) then
          loadProgram pagetable ip m next sz1
        else return (false, sz1)

/-! ## Arguments -/

/-- Push argument strings, and collect their addresses in `ustack`. -/
def pushStrings (pagetable stackbase : Nat) :
    List (List UInt8) → (sp : Nat) → (ustack : List Nat) → Prog Machine (Option (Nat × List Nat))
  | [], sp, ustack => return some (sp, ustack)
  | arg :: argv, sp, ustack =>
    if MAXARG ≤ ustack.length then return none
    else do
      let sp := sub64 sp (arg.length + 1)
      let sp := sp - sp % 16 -- riscv sp must be 16-byte aligned
      if sp < stackbase then return none
      else if ← onMem (copyout pagetable sp (Fs.array arg) (arg.length + 1)) then
        pushStrings pagetable stackbase argv sp (ustack ++ [sp])
      else return none

/-- Push the strings and the array of pointers to them. Returns the stack pointer. -/
def pushArgs (pagetable sz : Nat) (argv : List (List UInt8)) : Prog Machine (Option Nat) := do
  let stackbase := sz - PGSIZE
  match ← pushStrings pagetable stackbase argv sz [] with
  | none => return none
  | some (sp, ustack) => do
    let sp := sub64 sp ((ustack.length + 1) * 8)
    let sp := sp - sp % 16
    if sp < stackbase then return none
    else if ← onMem (copyout pagetable sp (words (ustack ++ [0])) ((ustack.length + 1) * 8)) then
      return some sp
    else return none

/-! ## `exec` -/

/-- `if(pagetable) proc_freepagetable(pagetable, sz);` -/
def freeImage (pagetable : Option Nat) (sz : Nat) : Prog Machine Unit :=
  match pagetable with
  | some pagetable => onMem (procFreepagetable img pagetable sz)
  | none => return ()

/-- `iunlockput(ip); end_op();` -/
def putFile (p ip : Nat) : Prog Machine Unit :=
  onFs do
    Fs.iunlockput sb p ip
    Fs.endOp

/-- `bad:` while the file is open. -/
def execBad (p ip : Nat) (pagetable : Option Nat) (sz : Nat) : Prog Machine (Option Nat) := do
  freeImage img pagetable sz
  putFile sb p ip
  return none

/-- `bad:` when `ip` is null. -/
def stackBad (pagetable sz : Nat) : Prog Machine (Option Nat) := do
  freeImage img (some pagetable) sz
  return none

/-- Commit to the user image. -/
def execCommit (p pagetable sz sp entry : Nat) (path : List UInt8) : Prog Machine Unit := do
  let x ← self p
  onMem (store (x.trapframe + tfA1) sp)
  -- Save program name for debugging.
  Prog.modify fun m =>
    { m with name := Function.update m.name p (safestrcpy (m.name p) (last path) 16) }
  Prog.modify fun m => m.setKernel (m.kernel.setProc p { m.kernel.proc p with pagetable, sz })
  onMem (store (x.trapframe + tfEpc) entry)
  onMem (store (x.trapframe + tfSp) sp)
  onMem (procFreepagetable img x.pagetable x.sz)

/-- `exec` from the point on where the file has been read: the stack and the arguments. -/
def execStack (p pagetable sz entry : Nat) (path : List UInt8) (argv : List (List UInt8)) :
    Prog Machine (Option Nat) := do
  -- Allocate two pages at the next page boundary. Make the first inaccessible as a stack guard.
  -- Use the second as the user stack.
  let sz := pgroundup sz
  let sz1 ← onMem (uvmalloc img pagetable sz ((sz + 2 * PGSIZE) % 2 ^ 64) PTE_W)
  if sz1 = 0 then stackBad img pagetable sz
  else do
    onMem (uvmclear pagetable (sub64 sz1 (2 * PGSIZE)))
    match ← pushArgs pagetable sz1 argv with
    | none => stackBad img pagetable sz1
    | some sp => do
      execCommit img p pagetable sz1 sp entry path
      return some argv.length

/-- `exec` of process `p`, whose current directory is `cwd`. -/
def exec (p cwd : Nat) (path : List UInt8) (argv : List (List UInt8)) :
    Prog Machine (Option Nat) := do
  onFs Fs.beginOp
  match ← onFs (Fs.namei sb p cwd path junk) with
  | none => do
    onFs Fs.endOp
    return none
  | some ip => do
    onFs (Fs.ilock sb p ip)
    -- Check ELF header
    let (r, buf) ← onFs (Fs.readi sb ip elfhdrSize 0 elfhdrSize)
    let elf := Elfhdr.ofBytes (Fs.array buf)
    if r ≠ some elfhdrSize then execBad sb img p ip none 0
    else if elf.magic ≠ ELF_MAGIC then execBad sb img p ip none 0
    else
      match ← onMem (procPagetable img (← self p).trapframe) with
      | none => execBad sb img p ip none 0
      | some pagetable => do
        let (ok, sz) ← loadProgram sb img pagetable ip elf.phnum (elf.phoff % 2 ^ 32) 0
        if ok then do
          putFile sb p ip
          execStack img p pagetable sz elf.entry path argv
        else execBad sb img p ip (some pagetable) sz

end

end Xv6.Process
