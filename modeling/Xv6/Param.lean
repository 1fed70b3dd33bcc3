/-!
# Constants of `kernel/param.h` and `kernel/fs.h`, and the `int` that counts process ids
-/

namespace Xv6

/-- maximum number of processes -/
abbrev NPROC : Nat := 64
/-- open files per process -/
abbrev NOFILE : Nat := 16
/-- open files per system -/
abbrev NFILE : Nat := 100
/-- maximum number of active i-nodes -/
abbrev NINODE : Nat := 50
/-- maximum major device number -/
abbrev NDEV : Nat := 10
/-- max exec arguments -/
abbrev MAXARG : Nat := 32
/-- max # of blocks any FS op writes -/
abbrev MAXOPBLOCKS : Nat := 10
/-- max data blocks in on-disk log -/
abbrev LOGSIZE : Nat := MAXOPBLOCKS * 3
/-- size of disk block cache -/
abbrev NBUF : Nat := MAXOPBLOCKS * 3
/-- size of file system in blocks -/
abbrev FSSIZE : Nat := 2000
/-- block size -/
abbrev BSIZE : Nat := 1024

/-- `nextpid = nextpid + 1` in an `int` -/
def nextInt (n : Int) : Int := (n + 1 + 0x80000000) % 0x100000000 - 0x80000000

end Xv6
