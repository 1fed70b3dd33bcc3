import Xv6.Mem.Own

/-!
# Processes, open files and pipes

The process table (`kernel/proc.c`), the file table (`kernel/file.c`) and the pipes
(`kernel/pipe.c`), with the system calls that work on them. Entries of the two tables are named by
their index; a pointer to memory is an address, where 0 is null. A pipe is a page, with its fields
at their offsets in `struct pipe`.

A call runs to its end before the next one starts. Locks are left out, and so are names, kernel
contexts and everything that inodes hold: `iput` and `idup` touch no page.
-/

namespace Xv6.Process

open Lib Mem Function

inductive Procstate where
  | unused
  | used
  | runnable
  | zombie
  deriving DecidableEq

/-- `struct proc` -/
structure Proc where
  state : Procstate
  killed : Bool
  xstate : Int
  pid : Int
  parent : Option Nat
  sz : Nat
  pagetable : Nat
  trapframe : Nat
  ofile : Nat → Option Nat

inductive FileType where
  | none
  | pipe
  | inode
  | device
  deriving DecidableEq

/-- `struct file` -/
structure File where
  type : FileType
  ref : Nat
  readable : Bool
  writable : Bool
  pipe : Nat

structure Kernel where
  phys : Phys
  kpgtbl : Nat
  /-- `disk.desc`, `disk.avail`, `disk.used` -/
  desc : Nat
  avail : Nat
  used : Nat
  proc : Nat → Proc
  initproc : Nat
  nextpid : Int
  file : Nat → File

def Kernel.setPhys (k : Kernel) (s : Phys) : Kernel := { k with phys := s }

def Kernel.setProc (k : Kernel) (p : Nat) (x : Proc) : Kernel :=
  { k with proc := update k.proc p x }

def Kernel.setFile (k : Kernel) (f : Nat) (x : File) : Kernel :=
  { k with file := update k.file f x }

/-- A program on physical memory. -/
def onPhys {α : Type} (q : Prog Phys α) : Prog Kernel α := q.zoom Kernel.phys Kernel.setPhys

/-- The entry `p` of the process table. -/
def getProc (p : Nat) : Prog Kernel Proc := do return (← Prog.get).proc p

def onProc (p : Nat) (f : Proc → Proc) : Prog Kernel Unit :=
  Prog.modify fun k => k.setProc p (f (k.proc p))

def onFile (f : Nat) (g : File → File) : Prog Kernel Unit :=
  Prog.modify fun k => k.setFile f (g (k.file f))

/-- The bytes of an integer in memory. -/
def intBytes (v : Nat) : Nat → UInt8 := fun i => UInt8.ofNat (v / 256 ^ i)

/-- `*(int*)a` -/
def load4 (a : Nat) : Prog Phys Nat := do return leGet 4 (← Prog.get).mem a

/-- `*(int*)a = v` -/
def store4 (a v : Nat) : Prog Phys Unit :=
  Prog.modify fun s => { s with mem := lePut 4 s.mem a v }

/-! ## `file.c` and `pipe.c` -/

/-- Allocate a file structure. -/
def filealloc : Prog Kernel (Option Nat) :=
  Prog.atomic fun k =>
    match (List.range NFILE).find? fun f => (k.file f).ref = 0 with
    | none => .ok none k
    | some f => .ok (some f) (k.setFile f { k.file f with ref := 1 })

/-- Increment ref count for file `f`. -/
def filedup (f : Nat) : Prog Kernel Unit :=
  Prog.atomic fun k =>
    if (k.file f).ref < 1 then .panic "filedup"
    else .ok () (k.setFile f { k.file f with ref := (k.file f).ref + 1 })

section

variable (img : Image)

def pipeclose (pi : Nat) (writable : Bool) : Prog Phys Unit := do
  store4 (pi + if writable then writeopen else readopen) 0
  let r ← load4 (pi + readopen)
  let w ← load4 (pi + writeopen)
  Prog.when (r = 0 ∧ w = 0) (kfree img pi)

/-- Close file `f`. (Decrement ref count, close when reaches 0.) -/
def fileclose (f : Nat) : Prog Kernel Unit := do
  let ff ← Prog.atomic fun k =>
    if (k.file f).ref < 1 then .panic "fileclose"
    else if 0 < (k.file f).ref - 1 then
      .ok none (k.setFile f { k.file f with ref := (k.file f).ref - 1 })
    else .ok (some (k.file f)) (k.setFile f { k.file f with ref := 0, type := .none })
  match ff with
  | none => return ()
  | some ff => Prog.when (ff.type = .pipe) (onPhys (pipeclose img ff.pipe ff.writable))

/-- The fields of a new pipe. -/
def pipeinit (pi : Nat) : Prog Phys Unit := do
  store4 (pi + readopen) 1
  store4 (pi + writeopen) 1
  store4 (pi + 540) 0
  store4 (pi + 536) 0

/-- The read end and the write end of a new pipe. -/
def pipealloc : Prog Kernel (Option (Nat × Nat)) := do
  match ← filealloc with
  | none => return none
  | some f0 =>
    match ← filealloc with
    | none => do
      fileclose img f0
      return none
    | some f1 =>
      match ← onPhys kalloc with
      | none => do
        fileclose img f0
        fileclose img f1
        return none
      | some pi => do
        onPhys (pipeinit pi)
        onFile f0 fun x => { x with type := .pipe, readable := true, writable := false, pipe := pi }
        onFile f1 fun x => { x with type := .pipe, readable := false, writable := true, pipe := pi }
        return some (f0, f1)

/-! ## File descriptors (`sysfile.c`) -/

/-- Allocate a file descriptor for the given file. Takes over file reference from caller on
    success. -/
def fdalloc (p f : Nat) : Prog Kernel (Option Nat) :=
  Prog.atomic fun k =>
    match (List.range NOFILE).find? fun fd => (k.proc p).ofile fd = none with
    | none => .ok none k
    | some fd => .ok (some fd)
        (k.setProc p { k.proc p with ofile := update (k.proc p).ofile fd (some f) })

/-- `p->ofile[fd] = 0` -/
def fdfree (p fd : Nat) : Prog Kernel Unit :=
  onProc p fun x => { x with ofile := update x.ofile fd none }

def sysPipe (p fdarray : Nat) : Prog Kernel Bool := do
  match ← pipealloc img with
  | none => return false
  | some (rf, wf) =>
    match ← fdalloc p rf with
    | none => do
      fileclose img rf
      fileclose img wf
      return false
    | some fd0 =>
      match ← fdalloc p wf with
      | none => do
        fdfree p fd0
        fileclose img rf
        fileclose img wf
        return false
      | some fd1 => do
        let pagetable := (← getProc p).pagetable
        let ok ← onPhys do
          if ← copyout pagetable fdarray (intBytes fd0) 4 then
            copyout pagetable ((fdarray + 4) % 2 ^ 64) (intBytes fd1) 4
          else return false
        if ok then return true
        else do
          fdfree p fd0
          fdfree p fd1
          fileclose img rf
          fileclose img wf
          return false

/-! ## `proc.c` -/

def allocpid : Prog Kernel Int :=
  Prog.atomic fun k => .ok k.nextpid { k with nextpid := nextInt k.nextpid }

/-- free a proc structure and the data hanging from it, including user pages. -/
def freeproc (p : Nat) : Prog Kernel Unit := do
  let x ← getProc p
  Prog.when (x.trapframe ≠ 0) (onPhys (kfree img x.trapframe))
  onProc p fun x => { x with trapframe := 0 }
  Prog.when (x.pagetable ≠ 0) (onPhys (procFreepagetable img x.pagetable x.sz))
  onProc p fun x => { x with
    pagetable := 0, sz := 0, pid := 0, parent := none, killed := false, xstate := 0,
    state := .unused }

/-- Look in the process table for an UNUSED proc. If found, initialize state required to run in
    the kernel. -/
def allocproc : Prog Kernel (Option Nat) := do
  let k ← Prog.get
  match (List.range NPROC).find? fun p => (k.proc p).state = .unused with
  | none => return none
  | some p => do
    let pid ← allocpid
    onProc p fun x => { x with pid, state := .used }
    let tf ← onPhys kalloc
    onProc p fun x => { x with trapframe := tf.getD 0 }
    match tf with
    | none => do
      freeproc img p
      return none
    | some tf => do
      let pt ← onPhys (procPagetable img tf)
      onProc p fun x => { x with pagetable := pt.getD 0 }
      match pt with
      | none => do
        freeproc img p
        return none
      | some _ => return some p

/-- Grow or shrink user memory by `n` bytes. -/
def growproc (p : Nat) (n : Int) : Prog Kernel Bool := do
  let x ← getProc p
  let newsz := ((x.sz + n) % 2 ^ 64).toNat
  if 0 < n then do
    let sz ← onPhys (uvmalloc img x.pagetable x.sz newsz PTE_W)
    if sz = 0 then return false
    else do
      onProc p fun x => { x with sz }
      return true
  else if n < 0 then do
    let sz ← onPhys (uvmdealloc img x.pagetable x.sz newsz)
    onProc p fun x => { x with sz }
    return true
  else return true

/-- Returns the old size, or `none` for -1. -/
def sysSbrk (p : Nat) (n : Int) : Prog Kernel (Option Nat) := do
  let addr := (← getProc p).sz
  if ← growproc img p n then return some addr else return none

/-- The size of `struct trapframe`, and the offsets of some of its fields. -/
abbrev trapframeSize : Nat := 288
abbrev tfEpc : Nat := 24
abbrev tfSp : Nat := 48
abbrev tfA0 : Nat := 112
abbrev tfA1 : Nat := 120

/-- Duplicate the open file `i` of `x` in the process `np`. -/
def dupFile (x : Proc) (np i : Nat) : Prog Kernel Unit :=
  match x.ofile i with
  | none => return ()
  | some f => do
    filedup f
    onProc np fun y => { y with ofile := update y.ofile i (some f) }

/-- Create a new process, copying the parent. -/
def fork (p : Nat) : Prog Kernel (Option Int) := do
  match ← allocproc img with
  | none => return none
  | some np => do
    let x ← getProc p
    let y ← getProc np
    -- Copy user memory from parent to child.
    if ← onPhys (uvmcopy img x.pagetable y.pagetable x.sz) then do
      onProc np fun y => { y with sz := x.sz }
      onPhys do
        -- copy saved user registers.
        memmove y.trapframe x.trapframe trapframeSize
        -- Cause fork to return 0 in the child.
        store (y.trapframe + tfA0) 0
      Prog.loop (dupFile x np) 0 NOFILE
      onProc np fun y => { y with parent := some p, state := .runnable }
      return some y.pid
    else do
      freeproc img np
      return none

end

end Xv6.Process
