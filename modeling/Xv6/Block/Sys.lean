import Xv6.Lib.Threads
import Xv6.Block.Bio
import Xv6.Block.Log

/-!
# The block layer as a system of processes

The shared state is the buffer cache, the disk and the log. Each definition of `kernel/bio.c` and
`kernel/log.c` is a program of the calling process `t` whose atomic steps are the critical
sections of the source: what happens under `bcache.lock`, under a buffer's sleep-lock or under
`log.lock` is one step, and everything else of any process may happen between two steps. A disk
transfer is one step (`virtio_disk_rw` returns when the block is on the disk).

Besides what the kernel stores, the state records the history that the properties speak about:
`store` is the bytes each block was last given by a holder of its buffer, `dirty` says that a
buffer was modified and neither written nor logged since, `pins` counts the pins taken by callers
other than the log, `group` is what the operations since the last commit have logged and
`committed` the groups whose header has reached the disk. No step reads any of it.
-/

namespace Xv6.BlockLayer

open Lib Function

/-- One `log_write` of operation `op`: the block and the bytes it had. -/
structure Update where
  op : Nat
  blockno : Nat
  data : Block

/-- The shared state. -/
structure Sys (T : Type) where
  bcache : Bcache T
  disk : Nat → Nat → Block
  log : Log
  /-- the FS operation a process is in -/
  op : T → Option Nat
  /-- `initlog` has returned -/
  up : Bool
  store : Nat → Nat → Block
  dirty : Nat → Bool
  pins : Nat → Nat
  nextOp : Nat
  group : List Update
  committed : List (List Update)

variable {T : Type} [DecidableEq T]

/-- The value of a two-place map at one place changed. -/
def set₂ (m : Nat → Nat → Block) (dev blockno : Nat) (d : Block) : Nat → Nat → Block :=
  fun dev' blockno' => if dev' = dev ∧ blockno' = blockno then d else m dev' blockno'

namespace Sys

/-- Buffer `i`. -/
def buf (s : Sys T) (i : Nat) : Buf T := s.bcache.buf i

/-- Replace buffer `i`. -/
def setBuf (s : Sys T) (i : Nat) (b : Buf T) : Sys T := { s with bcache := s.bcache.set i b }

end Sys

/-! ## `bio.c` -/

/-- `bget` up to its `acquiresleep`. -/
def bgetStep (dev blockno : Nat) (s : Sys T) : Outcome (Sys T) Nat :=
  match s.bcache.bget dev blockno with
  | some (i, c) => .ok i { s with bcache := c }
  | none => .panic "bget: no buffers"

def acquiresleep (t : T) (i : Nat) (s : Sys T) : Outcome (Sys T) Unit :=
  match (s.buf i).lock with
  | none => .ok () (s.setBuf i { s.buf i with lock := some t })
  | some _ => .wait

/-- `bread` after `bget`: fetch the block if the buffer does not hold it yet. -/
def fill (i : Nat) (s : Sys T) : Outcome (Sys T) Unit :=
  let b := s.buf i
  if b.valid then .ok () s
  else .ok () (s.setBuf i { b with data := s.disk b.dev b.blockno, valid := true })

def bread (t : T) (dev blockno : Nat) : Prog (Sys T) Nat := do
  let i ← Prog.atomic (bgetStep dev blockno)
  Prog.atomic (acquiresleep t i)
  Prog.atomic (fill i)
  return i

/-- The header of block `d` announces a transaction. -/
def announces (d : Block) : Bool := (LogHeader.ofBlock d).n != 0

/-- The disk write of `bwrite`. When the committing `end_op` writes a header with `n > 0`, the
    group's transaction is on the disk. -/
def bwriteStep (t : T) (i : Nat) (s : Sys T) : Outcome (Sys T) Unit :=
  let b := s.buf i
  if b.lock ≠ some t then .panic "bwrite"
  else
    let s' := { s with disk := set₂ s.disk b.dev b.blockno b.data,
                       dirty := update s.dirty i false }
    if s.log.committing ∧ b.dev = s.log.dev ∧ b.blockno = s.log.start ∧ announces b.data then
      .ok () { s' with committed := s.committed ++ [s.group], group := [] }
    else .ok () s'

def bwrite (t : T) (i : Nat) : Prog (Sys T) Unit := Prog.atomic (bwriteStep t i)

/-- `brelse` up to `releasesleep`. -/
def releasesleep (t : T) (i : Nat) (s : Sys T) : Outcome (Sys T) Unit :=
  if (s.buf i).lock ≠ some t then .panic "brelse"
  else .ok () (s.setBuf i { s.buf i with lock := none })

def brelse (t : T) (i : Nat) : Prog (Sys T) Unit := do
  Prog.atomic (releasesleep t i)
  Prog.modify fun s => { s with bcache := s.bcache.unref i }

/-- A caller's `bpin`. -/
def bpin (i : Nat) : Prog (Sys T) Unit :=
  Prog.modify fun s =>
    { s with bcache := s.bcache.bpin i, pins := update s.pins i (s.pins i + 1) }

/-- A caller's `bunpin`. -/
def bunpin (i : Nat) : Prog (Sys T) Unit :=
  Prog.modify fun s =>
    { s with bcache := s.bcache.bunpin i, pins := update s.pins i (s.pins i - 1) }

/-- The `bunpin` of `install_trans`. -/
def logUnpin (i : Nat) : Prog (Sys T) Unit :=
  Prog.modify fun s => { s with bcache := s.bcache.bunpin i }

/-- The holder of a buffer changes its bytes in place; what it stores may depend on the state. -/
def store (i : Nat) (f : Sys T → Block → Block) : Prog (Sys T) Unit :=
  Prog.modify fun s =>
    let b := s.buf i
    { s with bcache := s.bcache.set i { b with data := f s b.data },
             store := set₂ s.store b.dev b.blockno (f s b.data),
             dirty := update s.dirty i true }

/-! ## `log.c` -/

/-- `memmove(dst->data, src->data, BSIZE)` -/
def memmove (dst src : Nat) : Prog (Sys T) Unit := store dst fun s _ => (s.buf src).data

def logWriteStep (t : T) (i : Nat) (s : Sys T) : Outcome (Sys T) Unit :=
  let b := s.buf i
  match s.log.logWrite b.blockno with
  | .error m => .panic m
  | .ok (pin, l) =>
    .ok () { s with
      log := l
      bcache := if pin then s.bcache.bpin i else s.bcache
      dirty := update s.dirty i false
      group := s.group ++ [⟨(s.op t).getD 0, b.blockno, b.data⟩] }

/-- `log_write`, all of it under `log.lock`. -/
def logWrite (t : T) (i : Nat) : Prog (Sys T) Unit := Prog.atomic (logWriteStep t i)

def beginOpStep (t : T) (s : Sys T) : Outcome (Sys T) Unit :=
  match s.log.beginOp with
  | none => .wait
  | some l =>
    .ok () { s with log := l, op := update s.op t (some s.nextOp), nextOp := s.nextOp + 1 }

def beginOp (t : T) : Prog (Sys T) Unit := Prog.atomic (beginOpStep t)

/-- One round of `write_log`: copy a modified block from the cache to the log. -/
def writeLogBlock (t : T) (l : Log) (tail : Nat) : Prog (Sys T) Unit := do
  let toBuf ← bread t l.dev (l.start + tail + 1)
  let fromBuf ← bread t l.dev (l.lh.block tail)
  memmove toBuf fromBuf
  bwrite t toBuf
  brelse t fromBuf
  brelse t toBuf

/-- `for(tail = 0; tail < log.lh.n; tail++)`. Nobody else changes `log.lh` in the meantime, so it
    is read once. -/
def forTail (body : Log → Nat → Prog (Sys T) Unit) : Prog (Sys T) Unit := do
  let s ← Prog.get
  go s.log 0 s.log.lh.n
where
  go (l : Log) (tail : Nat) : Nat → Prog (Sys T) Unit
    | 0 => return ()
    | k + 1 => do
      body l tail
      go l (tail + 1) k

def writeLog (t : T) : Prog (Sys T) Unit := forTail (writeLogBlock t)

/-- `write_head`: write the in-memory log header to disk. -/
def writeHead (t : T) : Prog (Sys T) Unit := do
  let s ← Prog.get
  let i ← bread t s.log.dev s.log.start
  store i fun s old => s.log.lh.toBlock old
  bwrite t i
  brelse t i

/-- One round of `install_trans`: copy a committed block from the log to its home location. -/
def installBlock (t : T) (recovering : Bool) (l : Log) (tail : Nat) : Prog (Sys T) Unit := do
  let lbuf ← bread t l.dev (l.start + tail + 1)
  let dbuf ← bread t l.dev (l.lh.block tail)
  memmove dbuf lbuf
  bwrite t dbuf
  if recovering = false then logUnpin dbuf
  brelse t lbuf
  brelse t dbuf

def installTrans (t : T) (recovering : Bool) : Prog (Sys T) Unit :=
  forTail (installBlock t recovering)

/-- `log.lh.n = 0` -/
def clearHead : Prog (Sys T) Unit :=
  Prog.modify fun s => { s with log := { s.log with lh := { s.log.lh with n := 0 } } }

def commit (t : T) : Prog (Sys T) Unit := do
  let s ← Prog.get
  if s.log.lh.n > 0 then
    writeLog t
    writeHead t
    installTrans t false
    clearHead
    writeHead t

def endOpStep (t : T) (s : Sys T) : Outcome (Sys T) Bool :=
  match s.log.endOp with
  | .error m => .panic m
  | .ok (doCommit, l) => .ok doCommit { s with log := l, op := update s.op t none }

def endOp (t : T) : Prog (Sys T) Unit := do
  let doCommit ← Prog.atomic (endOpStep t)
  if doCommit then
    commit t
    Prog.modify fun s => { s with log := { s.log with committing := false } }

/-- `read_head`: read the log header from disk into the in-memory log header. -/
def readHead (t : T) : Prog (Sys T) Unit := do
  let s ← Prog.get
  let i ← bread t s.log.dev s.log.start
  Prog.modify fun s => { s with log := { s.log with lh := s.log.lh.load (s.buf i).data } }
  brelse t i

def recoverFromLog (t : T) : Prog (Sys T) Unit := do
  readHead t
  installTrans t true
  clearHead
  writeHead t

/-- The fields of the superblock that `initlog` uses. -/
structure Layout where
  dev : Nat
  logstart : Nat
  nlog : Nat

def initlog (t : T) (sb : Layout) : Prog (Sys T) Unit := do
  Prog.modify fun s =>
    { s with log := { s.log with start := sb.logstart, size := sb.nlog, dev := sb.dev } }
  recoverFromLog t
  Prog.modify fun s => { s with up := true }

/-! ## Who calls what

The callers of the block layer are arbitrary: any process may at any time issue any call that its
policy allows. `Policy.any` is the buffer cache's own discipline. `Policy.logged` is that of the
file system: it uses one device, modifies a block only inside an operation and only outside the
log area, and passes what it modified to `log_write` before it releases the buffer. -/

inductive Call where
  | bread (dev blockno : Nat)
  | store (i : Nat) (f : Block → Block)
  | bwrite (i : Nat)
  | logWrite (i : Nat)
  | brelse (i : Nat)
  | bpin (i : Nat)
  | bunpin (i : Nat)
  | beginOp
  | endOp
  | initlog (sb : Layout)

/-- The program of a call; only `bread` has a result. -/
def body (t : T) : Call → Prog (Sys T) (Option Nat)
  | .bread dev blockno => do return some (← bread t dev blockno)
  | .store i f => do store i (fun _ => f); return none
  | .bwrite i => do bwrite t i; return none
  | .logWrite i => do logWrite t i; return none
  | .brelse i => do brelse t i; return none
  | .bpin i => do bpin i; return none
  | .bunpin i => do bunpin i; return none
  | .beginOp => do beginOp t; return none
  | .endOp => do endOp t; return none
  | .initlog sb => do initlog t sb; return none

inductive Policy where
  | any
  | logged
  deriving DecidableEq

/-- Process `t` holds buffer `i`. -/
def Sys.Holds (s : Sys T) (t : T) (i : Nat) : Prop := i < NBUF ∧ (s.buf i).lock = some t

/-- A home block is a block outside the log area. -/
def Layout.Home (sb : Layout) (b : Nat) : Prop := b < sb.logstart ∨ sb.logstart + sb.nlog ≤ b

/-- What every caller respects: it touches only buffers it holds, releases a buffer it modified
    only after it wrote or logged it, and drops only its own pins. -/
def Disciplined (t : T) (s : Sys T) : Call → Prop
  | .bread _ _ => True
  | .store i _ => s.Holds t i
  | .bwrite i => s.Holds t i
  | .logWrite i => s.Holds t i ∧ (s.buf i).dev = s.log.dev
  | .brelse i => s.Holds t i ∧ (s.dirty i = false ∨
      s.op t ≠ none ∧ (s.buf i).dev = s.log.dev ∧ (s.buf i).blockno ∈ s.log.lh.blocks)
  | .bpin i => s.Holds t i
  | .bunpin i => i < NBUF ∧ 0 < s.pins i
  | .beginOp => s.op t = none
  | .endOp => s.op t ≠ none
  | .initlog _ => False

/-- What a caller of the file system respects besides. -/
def InOps (sb : Layout) (t : T) (s : Sys T) : Call → Prop
  | .bread dev blockno => dev = sb.dev ∧ blockno < 2 ^ 32
  | .store i _ => s.op t ≠ none ∧ sb.Home (s.buf i).blockno
  | .logWrite i => s.op t ≠ none ∧ sb.Home (s.buf i).blockno
  | .brelse i => s.dirty i = false
  | .endOp => ∀ i, s.Holds t i → s.dirty i = false
  | .bwrite _ | .bpin _ | .bunpin _ => False
  | _ => True

def mayStart (pol : Policy) (sb : Layout) (t : T) (c : Call) (s : Sys T) : Prop :=
  s.up = true ∧ Disciplined t s c ∧ (pol = .logged → InOps sb t s c)

/-! ## Runs, with crashes -/

abbrev World (T : Type) := Pool (Sys T) T Call (Option Nat)

/-- The memory of a kernel that has just booted on a disk. -/
def booted (disk : Nat → Nat → Block) (nextOp : Nat) (committed : List (List Update)) : Sys T where
  bcache := .binit
  disk := disk
  log := { start := 0, size := 0, outstanding := 0, committing := false, dev := 0,
           lh := { n := 0, block := fun _ => 0 } }
  op _ := none
  up := false
  store := disk
  dirty _ := false
  pins _ := 0
  nextOp := nextOp
  group := []
  committed := committed

/-- The first process runs `initlog`; nobody else runs. -/
def recovering (sb : Layout) (t : T) (s : Sys T) : World T where
  shared := s
  run := update (fun _ => none) t (some (.initlog sb, body t (.initlog sb)))

/-- A crash loses all memory and keeps the disk. -/
def crash (s : Sys T) : Sys T := booted s.disk s.nextOp s.committed

/-- One atomic step of some process, or a crash after which process `t` boots. (A caller that may
    write anything to the disk may also ruin the log header, so only the file system crashes.) -/
inductive Step (pol : Policy) (sb : Layout) : World T → World T → Prop where
  | proc {x x' : World T} : Pool.Step (mayStart pol sb) body x x' → Step pol sb x x'
  | crash (x : World T) (t : T) : pol = .logged → Step pol sb x (recovering sb t (crash x.shared))

/-- The worlds that can be reached from booting on `disk`, whose log header must fit in memory. -/
inductive Reach (pol : Policy) (sb : Layout) (disk : Nat → Nat → Block) : World T → Prop where
  | boot (t : T) : (LogHeader.ofBlock (disk sb.dev sb.logstart)).n ≤ LOGSIZE →
      Reach pol sb disk (recovering sb t (booted disk 0 []))
  | step {x x' : World T} : Reach pol sb disk x → Step pol sb x x' → Reach pol sb disk x'

end Xv6.BlockLayer
