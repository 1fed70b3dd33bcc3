import Xv6.Fs.Blocks
import Xv6.Lib.Seq

/-!
# The file system (`kernel/fs.c`)

The functions of `fs.c`, from the allocation of blocks up to the lookup of paths, on the blocks of
one disk and the table of inodes in memory. An inode in memory is named by its index in the table.

The buffer cache is transparent here: `disk` holds the blocks as the cache has them. What is done to
a block while its buffer is locked is one atomic step, and so is what is done under the lock of the
inode table; the sleep-lock of an inode is explicit, with the process `t` that holds it or waits for
it. The log is reduced to what its callers see of it: `log_write` has to be inside of a transaction
and has to find room, and the blocks that a crash leaves after recovery, `safe`, change when the
last open transaction ends. There is only one device.
-/

namespace Xv6.Fs

open Lib Function

/-- `struct inode`: the copy of an inode that is kept in memory. -/
structure Inode where
  inum : Nat
  ref : Nat
  /-- the process that holds `ip->lock` -/
  lock : Option Nat
  valid : Bool
  /-- `type` to `addrs` -/
  din : Dinode

structure State where
  disk : Disk
  /-- the blocks that recovery would leave after a crash -/
  safe : Disk
  /-- `log.outstanding` -/
  outstanding : Nat
  /-- `log.lh.block` -/
  logged : List Nat
  /-- `itable.inode` -/
  inode : Nat → Inode
  /-- the inode whose lock a process sleeps on -/
  chan : Nat → Option Nat

/-- `itable.inode[e] = x` -/
def State.setInode (s : State) (e : Nat) (x : Inode) : State :=
  { s with inode := update s.inode e x }

/-- Change a block in the cache. -/
def State.setBlock (s : State) (b : Nat) (v : Block) : State :=
  { s with disk := update s.disk b v }

/-- `*ip` -/
def inodeAt (ip : Nat) : Prog State Inode := do return (← Prog.get).inode ip

/-- Change an inode in memory. -/
def onInode (ip : Nat) (f : Inode → Inode) : Prog State Unit :=
  Prog.modify fun s => s.setInode ip (f (s.inode ip))

/-- Change the fields of an inode in memory that live on disk. -/
def onDin (ip : Nat) (f : Dinode → Dinode) : Prog State Unit :=
  onInode ip fun x => { x with din := f x.din }

/-- The contents of a block. -/
def bread (b : Nat) : Prog State Block := do return (← Prog.get).disk b

/-! ## The log -/

/-- called at the start of each FS system call. -/
def beginOp : Prog State Unit :=
  Prog.atomic fun s =>
    if LOGSIZE < s.logged.length + (s.outstanding + 1) * MAXOPBLOCKS then .wait
    else .ok () { s with outstanding := s.outstanding + 1 }

/-- called at the end of each FS system call. commits if this was the last outstanding
    operation. -/
def endOp : Prog State Unit :=
  Prog.modify fun s =>
    if s.outstanding - 1 = 0 then { s with outstanding := 0, safe := s.disk, logged := [] }
    else { s with outstanding := s.outstanding - 1 }

/-- The block numbers in the log after `log_write` of block `b`. -/
def absorb (logged : List Nat) (b : Nat) : List Nat := if b ∈ logged then logged else logged ++ [b]

section

variable (sb : Superblock)

/-- Give block `b` the contents `v` and call `log_write`, with the result `r`. -/
def State.logWrite {ρ : Type} (s : State) (b : Nat) (v : Block) (r : ρ) : Outcome State ρ :=
  if LOGSIZE ≤ s.logged.length ∨ sb.nlog ≤ s.logged.length + 1 then .panic "too big a transaction"
  else if s.outstanding < 1 then .panic "log_write outside of trans"
  else .ok r { s.setBlock b v with logged := absorb s.logged b }

/-! ## Blocks -/

/-- Zero a block. -/
def bzero (bno : Nat) : Prog State Unit := Prog.atomic fun s => s.logWrite sb bno zeroes ()

/-- Mark the first free block of those from `b` on that share a bitmap block. -/
def ballocMark (b : Nat) : Prog State (Option Nat) :=
  Prog.atomic fun s =>
    let bp := s.disk (bblock sb b)
    match (List.range BPB).find? fun bi => b + bi < sb.size ∧ bitOf bp bi = false with
    | none => .ok none s
    | some bi => s.logWrite sb (bblock sb b) (setBit bp bi) (some (b + bi))

/-- The loop of `balloc` over the bitmap blocks. -/
def ballocLoop : (m b : Nat) → Prog State Nat
  | 0, _ => return 0
  | m + 1, b => do
    match ← ballocMark sb b with
    | some bno => do
      bzero sb bno
      return bno
    | none => ballocLoop m (b + BPB)

/-- Allocate a zeroed disk block. returns 0 if out of disk space. -/
def balloc : Prog State Nat := ballocLoop sb ((sb.size + BPB - 1) / BPB) 0

/-- Free a disk block. -/
def bfree (b : Nat) : Prog State Unit :=
  Prog.atomic fun s =>
    let bp := s.disk (bblock sb b)
    if bitOf bp (b % BPB) = false then .panic "freeing free block"
    else s.logWrite sb (bblock sb b) (clearBit bp (b % BPB)) ()

/-! ## The table of inodes -/

/-- Find the inode with number `inum` and return the in-memory copy. Does not lock the inode and
    does not read it from disk. -/
def iget (inum : Nat) : Prog State Nat :=
  Prog.atomic fun s =>
    -- Is the inode already in the table?
    match (List.range NINODE).find? fun e => 0 < (s.inode e).ref ∧ (s.inode e).inum = inum with
    | some e => .ok e (s.setInode e { s.inode e with ref := (s.inode e).ref + 1 })
    | none =>
      -- Recycle an inode entry.
      match (List.range NINODE).find? fun e => (s.inode e).ref = 0 with
      | none => .panic "iget: no inodes"
      | some e => .ok e (s.setInode e { s.inode e with inum, ref := 1, valid := false })

/-- Copy a modified in-memory inode to disk. -/
def iupdate (ip : Nat) : Prog State Unit :=
  Prog.atomic fun s =>
    let x := s.inode ip
    s.logWrite sb (iblock sb x.inum) (setDinode sb s.disk x.inum x.din (iblock sb x.inum)) ()

/-- Increment reference count for `ip`. -/
def idup (ip : Nat) : Prog State Nat := do
  onInode ip fun x => { x with ref := x.ref + 1 }
  return ip

/-- Take the lock of `ip` for process `t` if it is free; go to sleep on it if it is not. -/
def State.tryLock (s : State) (t ip : Nat) : Bool × State :=
  if (s.inode ip).lock = none then (true, s.setInode ip { s.inode ip with lock := some t })
  else (false, { s with chan := update s.chan t (some ip) })

/-- Wake up when the lock is free, and take it. -/
def sleepLock (t ip : Nat) : Prog State Unit :=
  Prog.atomic fun s =>
    if (s.inode ip).lock = none then
      .ok () { s.setInode ip { s.inode ip with lock := some t } with
        chan := update s.chan t none }
    else .wait

def acquiresleep (t ip : Nat) : Prog State Unit := do
  let got ← Prog.atomic fun s => .ok (s.tryLock t ip).1 (s.tryLock t ip).2
  Prog.when (got = false) (sleepLock t ip)

/-- Read the inode from disk if necessary. -/
def iload (ip : Nat) : Prog State Unit :=
  Prog.atomic fun s =>
    let x := s.inode ip
    if x.valid then .ok () s
    else
      let dip := dinodeOf sb s.disk x.inum
      if dip.type = 0 then .panic "ilock: no type"
      else .ok () (s.setInode ip { x with din := dip, valid := true })

/-- Lock the given inode. Reads the inode from disk if necessary. -/
def ilock (t ip : Nat) : Prog State Unit := do
  if (← inodeAt ip).ref < 1 then Prog.panic "ilock"
  else do
    acquiresleep t ip
    iload sb ip

/-- Unlock the given inode. -/
def iunlock (t ip : Nat) : Prog State Unit :=
  Prog.atomic fun s =>
    let x := s.inode ip
    if x.lock ≠ some t ∨ x.ref < 1 then .panic "iunlock"
    else .ok () (s.setInode ip { x with lock := none })

/-! ## Inode content -/

/-- The block that place `k` of `addrs` refers to, allocated if there is none. -/
def bmapAddr (ip k : Nat) : Prog State Nat := do
  let addr := (← inodeAt ip).din.addrs k
  if addr = 0 then do
    let addr ← balloc sb
    if addr = 0 then return 0
    else do
      onDin ip fun d => d.setAddr k addr
      return addr
  else return addr

/-- The block that entry `bn` of the indirect block `ind` refers to, allocated if there is none. -/
def bmapEntry (ind bn : Nat) : Prog State Nat := do
  let a ← bread ind
  if a.u32 (4 * bn) = 0 then do
    let addr ← balloc sb
    if addr = 0 then return 0
    else do
      Prog.atomic fun s => s.logWrite sb ind ((s.disk ind).setU32 (4 * bn) addr) ()
      return addr
  else return a.u32 (4 * bn)

/-- Return the disk block address of the nth block in inode `ip`. If there is no such block, `bmap`
    allocates one. returns 0 if out of disk space. -/
def bmap (ip bn : Nat) : Prog State Nat :=
  if bn < NDIRECT then bmapAddr sb ip bn
  else if bn - NDIRECT < NINDIRECT then do
    let addr ← bmapAddr sb ip NDIRECT
    if addr = 0 then return 0
    else bmapEntry sb addr (bn - NDIRECT)
  else Prog.panic "bmap: out of range"

/-- Free direct block `i`. -/
def truncDirect (ip i : Nat) : Prog State Unit := do
  let addr := (← inodeAt ip).din.addrs i
  Prog.when (addr ≠ 0) do
    bfree sb addr
    onDin ip fun d => d.setAddr i 0

/-- Free the indirect block `addr` and the blocks it refers to. -/
def truncIndirect (ip addr : Nat) : Prog State Unit := do
  let a ← bread addr
  Prog.loop (fun j => Prog.when (a.u32 (4 * j) ≠ 0) (bfree sb (a.u32 (4 * j)))) 0 NINDIRECT
  bfree sb addr
  onDin ip fun d => d.setAddr NDIRECT 0

/-- Truncate inode (discard contents). -/
def itrunc (ip : Nat) : Prog State Unit := do
  Prog.loop (truncDirect sb ip) 0 NDIRECT
  let addr := (← inodeAt ip).din.addrs NDIRECT
  Prog.when (addr ≠ 0) (truncIndirect sb ip addr)
  onDin ip fun d => { d with size := 0 }
  iupdate sb ip

/-- Drop the last reference of an inode without links: free the inode (and its content) on disk. -/
def ifree (t ip : Nat) (got : Bool) : Prog State Unit := do
  Prog.when (got = false) (sleepLock t ip)
  itrunc sb ip
  onDin ip fun d => { d with type := 0 }
  iupdate sb ip
  onInode ip fun x => { x with valid := false }
  onInode ip fun x => { x with lock := none }
  onInode ip fun x => { x with ref := x.ref - 1 }

/-- Drop a reference to an in-memory inode. If that was the last reference and the inode has no
    links to it, free the inode (and its content) on disk. -/
def iput (t ip : Nat) : Prog State Unit := do
  let got ← Prog.atomic fun s =>
    let x := s.inode ip
    if x.ref = 1 ∧ x.valid ∧ x.din.nlink = 0 then .ok (some (s.tryLock t ip).1) (s.tryLock t ip).2
    else .ok none (s.setInode ip { x with ref := x.ref - 1 })
  match got with
  | none => return ()
  | some got => ifree sb t ip got

/-- Common idiom: unlock, then put. -/
def iunlockput (t ip : Nat) : Prog State Unit := do
  iunlock t ip
  iput sb t ip

/-- The loop of `readi`; every round takes a byte or more, so there are at most `m` of them. -/
def readiLoop (ip reach n : Nat) :
    (m tot off : Nat) → List UInt8 → Prog State (Option Nat × List UInt8)
  | 0, tot, _, acc => return (some tot, acc)
  | m + 1, tot, off, acc =>
    if tot < n then do
      let addr ← bmap sb ip (off / BSIZE)
      if addr = 0 then return (some tot, acc)
      else do
        let bp ← bread addr
        let k := min (n - tot) (BSIZE - off % BSIZE)
        let data := (List.range k).map fun j => bp.bytes (off % BSIZE + j)
        if tot + k ≤ reach then readiLoop ip reach n m (tot + k) (off + k) (acc ++ data)
        else return (none, acc ++ data.take (reach - tot))
    else return (some tot, acc)

/-- Read data from inode. `reach` is the number of bytes from `dst` on that can be stored. Returns
    the number of bytes, or `none` for -1, and the bytes that are stored at `dst`. -/
def readi (ip reach off n : Nat) : Prog State (Option Nat × List UInt8) := do
  let size := (← inodeAt ip).din.size
  if size < off ∨ (off + n) % 2 ^ 32 < off then return (some 0, [])
  else
    let n := if size < off + n then size - off else n
    readiLoop sb ip reach n n 0 off []

/-- What `writei` copies from: bytes in memory, of which the first `reach` can be read. -/
structure Src where
  byte : Bytes
  reach : Nat

/-- Copy `k` bytes, from byte `tot` of the source on, to offset `off` of the block `addr`. A copy
    that fails has moved the bytes that could be read. -/
def copyBlock (addr off : Nat) (src : Src) (tot k : Nat) : Prog State Bool :=
  Prog.atomic fun s =>
    let from_ : Bytes := fun j => src.byte (tot + j)
    if tot + k ≤ src.reach then s.logWrite sb addr (patch (s.disk addr) off from_ k) true
    else .ok false (s.setBlock addr (patch (s.disk addr) off from_ (src.reach - tot)))

/-- The loop of `writei`, which ends with the number of bytes written and the offset after them. -/
def writeiLoop (ip : Nat) (src : Src) (n : Nat) : (m tot off : Nat) → Prog State (Nat × Nat)
  | 0, tot, off => return (tot, off)
  | m + 1, tot, off =>
    if tot < n then do
      let addr ← bmap sb ip (off / BSIZE)
      if addr = 0 then return (tot, off)
      else do
        let k := min (n - tot) (BSIZE - off % BSIZE)
        if ← copyBlock sb addr (off % BSIZE) src tot k then
          writeiLoop ip src n m (tot + k) (off + k)
        else return (tot, off)
    else return (tot, off)

/-- Write data to inode. Returns the number of bytes successfully written, or `none` for -1. -/
def writei (ip : Nat) (src : Src) (off n : Nat) : Prog State (Option Nat) := do
  let size := (← inodeAt ip).din.size
  if size < off ∨ (off + n) % 2 ^ 32 < off then return none
  else if MAXFILE * BSIZE < off + n then return none
  else do
    let (tot, off) ← writeiLoop sb ip src n n 0 off
    onDin ip fun d => { d with size := max d.size off }
    -- write the i-node back to disk even if the size didn't change because the loop above might
    -- have called bmap() and added a new block to ip->addrs[].
    iupdate sb ip
    return some tot

/-! ## Directories -/

/-- Read the directory entry at `off`; `msg` is what the caller panics with. -/
def readDirent (dp off : Nat) (msg : String) : Prog State Dirent := do
  let (r, buf) ← readi sb dp 16 off 16
  if r = some 16 then return Dirent.ofBytes (array buf)
  else Prog.panic msg

/-- The loop of `dirlookup` over the `m` entries from `off` on. -/
def dirlookupLoop (dp : Nat) (name : Bytes) : (m off : Nat) → Prog State (Option (Nat × Nat))
  | 0, _ => return none
  | m + 1, off => do
    let de ← readDirent sb dp off "dirlookup read"
    if de.inum ≠ 0 ∧ namecmp name de.name = 0 then do
      -- entry matches path element
      let ip ← iget de.inum
      return some (ip, off)
    else dirlookupLoop dp name m (off + 16)

/-- The number of rounds of `for(off = 0; off < size; off += sizeof(de))`. -/
def entries (size : Nat) : Nat := (size + 15) / 16

/-- Look for a directory entry in a directory. If found, return also the byte offset of entry. -/
def dirlookup (dp : Nat) (name : Bytes) : Prog State (Option (Nat × Nat)) := do
  let din := (← inodeAt dp).din
  if din.type ≠ T_DIR then Prog.panic "dirlookup not DIR"
  else dirlookupLoop sb dp name (entries din.size) 0

/-- Look for an empty dirent; the end of the directory if there is none. -/
def emptyDirent (dp : Nat) : (m off : Nat) → Prog State Nat
  | 0, off => return off
  | m + 1, off => do
    let de ← readDirent sb dp off "dirlink read"
    if de.inum = 0 then return off
    else emptyDirent dp m (off + 16)

/-- Write a directory entry at `off`. -/
def writeDirent (dp off : Nat) (de : Dirent) : Prog State (Option Nat) :=
  writei sb dp ⟨de.bytes, 16⟩ off 16

/-- Write a new directory entry (name, inum) into the directory `dp`. Returns whether it did (not,
    e.g., out of disk blocks). -/
def dirlink (t dp : Nat) (name : Bytes) (inum : Nat) : Prog State Bool := do
  -- Check that name is not present.
  match ← dirlookup sb dp name with
  | some (ip, _) => do
    iput sb t ip
    return false
  | none => do
    let size := (← inodeAt dp).din.size
    let off ← emptyDirent sb dp (entries size) 0
    let r ← writeDirent sb dp off ⟨inum % 2 ^ 16, strncpy name DIRSIZ⟩
    return r = some 16

/-! ## Paths -/

/-- Copy the next path element from path into name. Return the rest of the path, which has no
    leading slashes, and the name. If no name to remove, return `none`. -/
def skipelem (path : List UInt8) (name : Bytes) : Option (List UInt8 × Bytes) :=
  let path := path.dropWhile (· = 47)
  if path = [] then none
  else
    let s := path.takeWhile (· ≠ 47)
    let name :=
      if DIRSIZ ≤ s.length then blit name 0 (array s) DIRSIZ
      else update (blit name 0 (array s) s.length) s.length 0
    some ((path.dropWhile (· ≠ 47)).dropWhile (· = 47), name)

/-- The loop of `namex`, once for each element of the path: there are fewer than `m`. -/
def namexLoop (t : Nat) (nameiparent : Bool) :
    (m ip : Nat) → List UInt8 → Bytes → Prog State (Option Nat × Bytes)
  | 0, _, _, name => return (none, name)
  | m + 1, ip, path, name =>
    match skipelem path name with
    | none =>
      if nameiparent then do
        iput sb t ip
        return (none, name)
      else return (some ip, name)
    | some (path, name) => do
      ilock sb t ip
      if (← inodeAt ip).din.type ≠ T_DIR then do
        iunlockput sb t ip
        return (none, name)
      else if nameiparent ∧ path = [] then do
        -- Stop one level early.
        iunlock t ip
        return (some ip, name)
      else
        match ← dirlookup sb ip name with
        | none => do
          iunlockput sb t ip
          return (none, name)
        | some (next, _) => do
          iunlockput sb t ip
          namexLoop t nameiparent m next path name

/-- Look up and return the inode for a path name, from the root or from the current directory `cwd`.
    If `nameiparent`, return the inode for the parent and the final path element. -/
def namex (t cwd : Nat) (nameiparent : Bool) (path : List UInt8) (name : Bytes) :
    Prog State (Option Nat × Bytes) := do
  let ip ← if path.head? = some 47 then iget ROOTINO else idup cwd
  namexLoop sb t nameiparent (path.length + 1) ip path name

/-- The array `name` starts out with what is on the stack, `junk`. -/
def namei (t cwd : Nat) (path : List UInt8) (junk : Bytes) : Prog State (Option Nat) := do
  return (← namex sb t cwd false path junk).1

def nameiparent (t cwd : Nat) (path : List UInt8) (junk : Bytes) :
    Prog State (Option (Nat × Bytes)) := do
  let (ip, name) ← namex sb t cwd true path junk
  return ip.map fun ip => (ip, name)

end

/-! ## Starting -/

/-- Copy committed blocks from log to their home location, and forget them. -/
def recoverFromLog (logstart : Nat) : Prog State Unit := do
  let lh ← bread logstart
  Prog.loop
    (fun tail => do
      let lbuf ← bread (logstart + tail + 1)
      Prog.modify fun s => s.setBlock (lh.u32 (4 + 4 * tail)) lbuf)
    0 (lh.u32 0)
  Prog.modify fun s => s.setBlock logstart ((s.disk logstart).setU32 0 0)

/-- Init fs: read the super block and recover. -/
def fsinit : Prog State Superblock := do
  let sb := Superblock.ofBlock (← bread 1)
  if sb.magic ≠ FSMAGIC then Prog.panic "invalid file system"
  else do
    recoverFromLog sb.logstart
    Prog.modify fun s => { s with safe := s.disk }
    return sb

end Xv6.Fs
