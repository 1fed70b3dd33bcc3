import Xv6.Block.Lru
import Xv6.Block.Reserve
import Xv6.Block.Runs
import Xv6.Virtio.Runs
import Xv6.Mem.Isolate
import Xv6.Trap.Runs
import Xv6.Sched.Runs
import Xv6.Sched.Pids
import Xv6.Sched.Ticks
import Xv6.Sched.IntrRuns
import Xv6.Console.Lines
import Xv6.Fs.Files
import Xv6.Fs.Chunk
import Xv6.Fs.Fileread
import Xv6.Process.Segments
import Xv6.Process.Piperead
import Xv6.Process.SysExec
import Xv6.Libc.Printf
import Xv6.Shell.Strings
import Xv6.Shell.Pipeline
import Xv6.Grep.Lines
