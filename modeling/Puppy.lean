import Puppy.Exec.Dlfcn
import Puppy.Exec.Proofs.Shebang
import Puppy.Exec.Proofs.Userland
import Puppy.Exec.Proofs.Validation
import Puppy.Fs.MemFS
import Puppy.Fs.Partition
import Puppy.Fs.Proofs.Initrd
import Puppy.Fs.Proofs.Mount
import Puppy.Fs.Proofs.Volume
import Puppy.Libc.Intervals
import Puppy.Libc.LogRing
import Puppy.Libc.Proofs.MallocSizes
import Puppy.Mm.Proofs.Boot
import Puppy.Mm.Proofs.Checks
import Puppy.Mm.Proofs.KernelHeap
import Puppy.Mm.Proofs.Layout
import Puppy.Mm.Proofs.Ownership
import Puppy.Mm.Proofs.PageZero
import Puppy.Mm.Proofs.Stats
import Puppy.Proc.Bitmap
import Puppy.Proc.Proofs.Clone
import Puppy.Proc.Proofs.Creation
import Puppy.Proc.Proofs.Descriptors
import Puppy.Proc.Proofs.Lottery
import Puppy.Proc.Proofs.Prioritize
import Puppy.Proc.Proofs.Sleeping
import Puppy.Proc.Proofs.Stacks
import Puppy.Proc.Proofs.Zombies
import Puppy.Shell.Chain
import Puppy.Shell.CommandLine
import Puppy.Synch.Proofs.MsgQueue
import Puppy.Synch.Proofs.MsgQueueFs
import Puppy.Synch.Proofs.Mutex
import Puppy.Synch.Proofs.Pipe
import Puppy.Synch.Proofs.Semaphore
import Puppy.Sys.Proofs.Handlers
import Puppy.Time.Manager
import Puppy.Tty.Escape
import Puppy.Wrapping
