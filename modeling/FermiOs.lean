import FermiOs.Mm.VmaFail
import FermiOs.Syscall.Mmap
import FermiOs.Syscall.Errno
import FermiOs.Syscall.ExecBytes
import FermiOs.Syscall.ExecCall
import FermiOs.Sched.Sleep
import FermiOs.Sched.Reap
import FermiOs.Fs.Proc
import FermiOs.Sched.ForkFail
import FermiOs.Sched.Preempt
import FermiOs.Sched.ExitStatus
import FermiOs.Sched.Parents
import FermiOs.Sched.Asid
import FermiOs.System.Root
import FermiOs.System.Isolation
import FermiOs.User.Qsort
import FermiOs.User.Stdio
import FermiOs.Virtio.NetRx
import FermiOs.Virtio.Blk
import FermiOs.Net.Checksum
import FermiOs.Net.Options
import FermiOs.Lib.Strings
import FermiOs.Fs.Fat32.Creation
import FermiOs.Fs.Fat32.Stale
import FermiOs.Fs.Fat32.Getdents
import FermiOs.Mm.Bitmap
import FermiOs.Mm.HeapHistory
import FermiOs.User.MallocRun
import FermiOs.Fs.Fat32.Concurrent
