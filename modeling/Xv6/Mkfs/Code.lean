import Xv6.Fs.Blocks
import Xv6.Lib.Seq

/-!
# `mkfs`

The program of `mkfs/mkfs.c`. Its state is the image file and the two counters from which inodes
and blocks are handed out; a failed `assert` and `die` are panics, so that a run that comes to its
end is one that exits with status 0. An input file is what `read` returns for it, piece by piece.
The host is little-endian, as it is for the `struct superblock` that `main` copies out as it is.
-/

namespace Xv6.Mkfs

open Lib Fs

abbrev NINODES : Nat := 200

abbrev nbitmap : Nat := FSSIZE / (BSIZE * 8) + 1
abbrev ninodeblocks : Nat := NINODES / IPB + 1
abbrev nlog : Nat := LOGSIZE
/-- Number of meta blocks (boot, sb, nlog, inode, bitmap) -/
abbrev nmeta : Nat := 2 + nlog + ninodeblocks + nbitmap
/-- Number of data blocks -/
abbrev nblocks : Nat := FSSIZE - nmeta

/-- convert to riscv byte order -/
def xshort (x : Nat) : Nat := x % 2 ^ 16

def xint (x : Nat) : Nat := x % 2 ^ 32

def sb : Superblock where
  magic := FSMAGIC
  size := xint FSSIZE
  nblocks := xint nblocks
  ninodes := xint NINODES
  nlog := xint nlog
  logstart := xint 2
  inodestart := xint (2 + nlog)
  bmapstart := xint (2 + nlog + ninodeblocks)

/-- The image file, with its length in blocks, and the counters. -/
structure Mk where
  img : Disk
  nsect : Nat
  freeinode : Nat
  freeblock : Nat

/-- The first piece of `main`: an empty file. -/
def start : Mk := ⟨fun _ => zeroes, 0, 1, nmeta⟩

/-- The file with a block written. -/
def Mk.write (s : Mk) (sec : Nat) (buf : Block) : Mk :=
  { s with
    img := Function.update s.img sec buf
    nsect := max s.nsect (sec + 1) }

def wsect (sec : Nat) (buf : Block) : Prog Mk Unit := Prog.modify fun s => s.write sec buf

/-- Past the end of the file there is nothing to read. -/
def rsect (sec : Nat) : Prog Mk Block :=
  Prog.atomic fun s => if sec < s.nsect then .ok (s.img sec) s else .panic "read"

def winode (inum : Nat) (ip : Dinode) : Prog Mk Unit := do
  let bn := iblock sb inum
  let buf ← rsect bn
  wsect bn (patch buf (inum % IPB * 64) ip.bytes 64)

def rinode (inum : Nat) : Prog Mk Dinode := do
  let buf ← rsect (iblock sb inum)
  return Dinode.ofBytes fun j => buf.bytes (inum % IPB * 64 + j)

/-- `freeinode++` -/
def nextInode : Prog Mk Nat :=
  Prog.atomic fun s => .ok s.freeinode { s with freeinode := s.freeinode + 1 }

/-- `freeblock++` -/
def nextBlock : Prog Mk Nat :=
  Prog.atomic fun s => .ok s.freeblock { s with freeblock := s.freeblock + 1 }

def ialloc (type : Nat) : Prog Mk Nat := do
  let inum ← nextInode
  winode inum { Dinode.zero with type := xshort type, nlink := xshort 1, size := xint 0 }
  return inum

/-- The bitmap of the first `used` blocks. -/
def bitmap (used : Nat) : Block := (List.range used).foldl setBit zeroes

def balloc (used : Nat) : Prog Mk Unit :=
  if used < BSIZE * 8 then wsect sb.bmapstart (bitmap used)
  else Prog.panic "assert"

/-- The block at entry `j` of the indirect block, allocated if there is none. -/
def ientry (din : Dinode) (j : Nat) : Prog Mk Nat := do
  let indirect ← rsect (xint (din.addrs NDIRECT))
  if indirect.u32 (4 * j) = 0 then do
    let b ← nextBlock
    wsect (xint (din.addrs NDIRECT)) (indirect.setU32 (4 * j) (xint b))
    return xint b
  else return xint (indirect.u32 (4 * j))

/-- The inode with its block `k` allocated if there was none. -/
def iblockAt (din : Dinode) (k : Nat) : Prog Mk Dinode :=
  if xint (din.addrs k) = 0 then do
    let b ← nextBlock
    return din.setAddr k (xint b)
  else return din

/-- The block for the `fbn`th block of a file, allocated if there is none. -/
def iaddr (din : Dinode) (fbn : Nat) : Prog Mk (Dinode × Nat) :=
  if fbn < NDIRECT then do
    let din ← iblockAt din fbn
    return (din, xint (din.addrs fbn))
  else do
    let din ← iblockAt din NDIRECT
    let x ← ientry din (fbn - NDIRECT)
    return (din, x)

/-- The loop of `iappend`; every round takes a byte or more, so there are at most `m` of them. -/
def iappendLoop : (m : Nat) → Dinode → (off : Nat) → List UInt8 → Prog Mk (Dinode × Nat)
  | 0, din, off, _ => return (din, off)
  | m + 1, din, off, p =>
    if p = [] then return (din, off)
    else
      let fbn := off / BSIZE
      if fbn < MAXFILE then do
        let (din, x) ← iaddr din fbn
        let n1 := min p.length ((fbn + 1) * BSIZE - off)
        let buf ← rsect x
        wsect x (patch buf (off - fbn * BSIZE) (array p) n1)
        iappendLoop m din (off + n1) (p.drop n1)
      else Prog.panic "assert"

def iappend (inum : Nat) (p : List UInt8) : Prog Mk Unit := do
  let din ← rinode inum
  let (din, off) ← iappendLoop p.length din (xint din.size) p
  winode inum { din with size := xint off }

/-- The bytes of a directory entry. -/
def direntBytes (inum : Nat) (name : List UInt8) : List UInt8 :=
  (List.range 16).map (Dirent.bytes ⟨xshort inum, strncpy (array name) DIRSIZ⟩)

/-- An input file: its name on the command line, a string, and what the calls of `read` return until
    one returns nothing. -/
structure Input where
  name : List UInt8
  reads : List (List UInt8)
  string : 0 ∉ name
  sizes : ∀ p ∈ reads, p ≠ [] ∧ p.length ≤ BSIZE

/-- The characters of "user/". -/
def userSlash : List UInt8 := [117, 115, 101, 114, 47]

/-- The file's name without "user/". -/
def Input.shortname (f : Input) : List UInt8 :=
  if userSlash.isPrefixOf f.name then f.name.drop 5 else f.name

/-- Skip leading _ in name when writing to file system. -/
def Input.fsname (f : Input) : List UInt8 :=
  if f.shortname.head? = some 95 then f.shortname.tail else f.shortname

/-- `while((cc = read(fd, buf, sizeof(buf))) > 0) iappend(inum, buf, cc);` -/
def appendReads (inum : Nat) : List (List UInt8) → Prog Mk Unit
  | [] => return ()
  | p :: rest => do
    iappend inum p
    appendReads inum rest

def addFile (rootino : Nat) (f : Input) : Prog Mk Unit :=
  -- `index(shortname, '/')` must find nothing
  if (47 : UInt8) ∈ f.shortname then Prog.panic "assert"
  else do
    let inum ← ialloc T_FILE
    iappend rootino (direntBytes inum f.fsname)
    appendReads inum f.reads

def addFiles (rootino : Nat) : List Input → Prog Mk Unit
  | [] => return ()
  | f :: rest => do
    addFile rootino f
    addFiles rootino rest

def main (files : List Input) : Prog Mk Unit := do
  Prog.loop (fun i => wsect i zeroes) 0 FSSIZE
  wsect 1 (patch zeroes 0 sb.bytes 32)
  let rootino ← ialloc T_DIR
  if rootino = ROOTINO then do
    -- the entries "." and ".."
    iappend rootino (direntBytes rootino [46])
    iappend rootino (direntBytes rootino [46, 46])
    addFiles rootino files
    -- fix size of root inode dir
    let din ← rinode rootino
    let off := (xint din.size / BSIZE + 1) * BSIZE
    winode rootino { din with size := xint off }
    let s ← Prog.get
    balloc s.freeblock
  else Prog.panic "assert"

/-- `mkfs` exits with status 0 and leaves the image `img`. -/
def Makes (files : List Input) (img : Disk) : Prop :=
  ∃ s, (main files).run start = .ok () s ∧ s.img = img

end Xv6.Mkfs
