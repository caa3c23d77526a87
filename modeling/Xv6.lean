import Xv6.LogCrash
import Xv6.LogSpace
import Xv6.Lib.Prog
import Xv6.RefCalls
import Xv6.Refine
import Xv6.Spinlocks
import Xv6.Sleeplock
import Xv6.PipeSleep
import Xv6.LogSleep
import Xv6.Console
import Xv6.Cga
import Xv6.Ticks
import Xv6.ProcWait
import Xv6.Kill
import Xv6.FileRefCalls
import Xv6.BioCache
import Xv6.VmProcs
import Xv6.VmFork
import Xv6.ExecLoad
import Xv6.VmLoops
import Xv6.UserArgs
import Xv6.Grep
import Xv6.Numbers
import Xv6.Mp
import Xv6.Memmove
import Xv6.UmallocRun
import Xv6.ShRun
import Xv6.IdeServe
import Xv6.MkfsRead
import Xv6.Offsets
import Xv6.Together
import Xv6.Chunks
import Xv6.Paths
import Xv6.NoHoles
import Xv6.DirMap
import Xv6.Resolution
