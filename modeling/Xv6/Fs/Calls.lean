import Xv6.Fs.Code

/-!
# File-system system calls (`kernel/sysfile.c`, `kernel/file.c`)

The system calls that work on open files, names and current directories, on top of the file system.
The entries of the file table and of the process table are named by their index.

What does not concern files is left to the caller. Memory is one such thing: an argument says
whether there was a page for a pipe, whether a user address was good, and so on, so that what is
proved for all arguments holds for every way these can go. A pipe has a number instead of a page;
it is made with a new number and `freed` counts the calls of `kfree` for it. Another is `junk`, what
the stack holds where an array for a path element is.
-/

namespace Xv6.Fs

open Lib Function

inductive FileType where
  | none
  | pipe
  | inode
  | device
  deriving DecidableEq

/-- `struct file` -/
structure File where
  type : FileType
  ref : Nat
  readable : Bool
  writable : Bool
  pipe : Nat
  ip : Nat
  off : Nat
  major : Nat

inductive Procstate where
  | unused
  | used
  | live
  | zombie
  deriving DecidableEq

/-- The fields of `struct proc` that matter for files; a process that is scheduled in one way or
    another is `live`. -/
structure Proc where
  state : Procstate
  parent : Option Nat
  ofile : Nat → Option Nat
  cwd : Option Nat

/-- `struct pipe`, without what is in the pipe. -/
structure Pipe where
  readopen : Bool
  writeopen : Bool
  freed : Nat

structure Sys where
  fs : State
  file : Nat → File
  proc : Nat → Proc
  pipe : Nat → Pipe
  /-- the number of pipes that have been made -/
  npipe : Nat

def Sys.setFs (k : Sys) (s : State) : Sys := { k with fs := s }

def Sys.setFile (k : Sys) (f : Nat) (x : File) : Sys :=
  { k with file := update k.file f x }

/-- A program of the file system. -/
def onFs {α : Type} (q : Prog State α) : Prog Sys α := q.zoom Sys.fs Sys.setFs

def fileAt (f : Nat) : Prog Sys File := do return (← Prog.get).file f

def onFile (f : Nat) (g : File → File) : Prog Sys Unit :=
  Prog.modify fun k => k.setFile f (g (k.file f))

section

variable (sb : Superblock) (junk : Bytes)

/-- `memset(&de, 0, sizeof(de))` -/
def Dirent.empty : Dirent := ⟨0, fun _ => 0⟩

/-! ## Files -/

/-- An argument as it is converted to `uint`. -/
def uint (n : Int) : Nat := (n % 2 ^ 32).toNat

/-- Read from file `f`, into memory of which the first `reach` bytes can be stored to. Returns the
    number of bytes, or `none` for -1, and the bytes that are stored. What is read from pipes and
    devices is left out. -/
def fileread (t f reach : Nat) (n : Int) : Prog Sys (Option Nat × List UInt8) := do
  let x ← fileAt f
  if x.readable = false then return (none, [])
  else
    match x.type with
    | .pipe => return (none, [])
    | .device => return (none, [])
    | .inode => do
      onFs (ilock sb t x.ip)
      let off := (← fileAt f).off
      let (r, bytes) ← onFs (readi sb x.ip reach off (uint n))
      onFile f fun x => { x with off := x.off + r.getD 0 }
      onFs (iunlock t x.ip)
      return (r, bytes)
    | .none => Prog.panic "fileread"

/-- The most that `filewrite` writes in one transaction. -/
abbrev maxChunk : Nat := (MAXOPBLOCKS - 1 - 1 - 2) / 2 * BSIZE

/-- The part of a source from byte `i` on. -/
def Src.drop (src : Src) (i : Nat) : Src := ⟨fun j => src.byte (i + j), src.reach - i⟩

/-- Write `n1` bytes at the offset of file `f`, in one transaction. -/
def writeChunk (t f ip : Nat) (src : Src) (n1 : Nat) : Prog Sys (Option Nat) := do
  onFs beginOp
  onFs (ilock sb t ip)
  let off := (← fileAt f).off
  let r ← onFs (writei sb ip src off n1)
  onFile f fun x => { x with off := x.off + r.getD 0 }
  onFs (iunlock t ip)
  onFs endOp
  return r

/-- write a few blocks at a time to avoid exceeding the maximum log transaction size; every round
    writes a byte or more, so there are at most `m` of them. -/
def filewriteLoop (t f ip : Nat) (src : Src) (n : Nat) : (m i : Nat) → Prog Sys Nat
  | 0, i => return i
  | m + 1, i =>
    if i < n then do
      let n1 := min (n - i) maxChunk
      let r ← writeChunk sb t f ip (src.drop i) n1
      if r = some n1 then filewriteLoop t f ip src n m (i + n1)
      else return i -- error from writei
    else return i

/-- Write to file `f`. What is written to pipes and devices is left out. -/
def filewrite (t f : Nat) (src : Src) (n : Int) : Prog Sys (Option Nat) := do
  let x ← fileAt f
  if x.writable = false then return none
  else
    match x.type with
    | .pipe => return none
    | .device => return none
    | .inode => do
      let i ← filewriteLoop sb t f x.ip src n.toNat n.toNat 0
      return if (i : Int) = n then some i else none
    | .none => Prog.panic "filewrite"

/-- The first process. -/
abbrev initproc : Nat := 0

end

/-- An inode in memory before it is used. -/
def Inode.zero : Inode := ⟨0, 0, none, false, Dinode.zero⟩

/-- The system when the first process is about to call `fsinit`: `userinit` has set its current
    directory to the root. -/
def Sys.start (disk : Disk) : Sys where
  fs :=
    { disk, safe := disk, outstanding := 0, logged := [], chan := fun _ => none
      inode := update (fun _ => Inode.zero) 0 { Inode.zero with inum := ROOTINO, ref := 1 } }
  file := fun _ => ⟨.none, 0, false, false, 0, 0, 0, 0⟩
  proc := update (fun _ => ⟨.unused, none, fun _ => none, none⟩) initproc
    ⟨.live, none, fun _ => none, some 0⟩
  pipe := fun _ => ⟨false, false, 0⟩
  npipe := 0

end Xv6.Fs
