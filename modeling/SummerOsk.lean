import SummerOsk.Log.Reservation
import SummerOsk.Bio.Recovery
import SummerOsk.Bio.Bcache
import SummerOsk.Bio.Pool
import SummerOsk.Fs.Ownership
import SummerOsk.Task.Leak
import SummerOsk.Task.ExecFs
import SummerOsk.Sched.Residue
import SummerOsk.Sched.Wakeup
import SummerOsk.Pipe.Fifo
import SummerOsk.Console.Isolation
import SummerOsk.Virtio.Integrity
import SummerOsk.Mkfs.Boot
import SummerOsk.Trace.Exceptions
import SummerOsk.Vm.Uvmfree
import SummerOsk.Vm.UserCopy
import SummerOsk.Task.Ps
import SummerOsk.Vm.Kalloc
import SummerOsk.Fs.ChunkLog
import SummerOsk.Sh.Terminate
import SummerOsk.Task.Grow
import SummerOsk.User.Memmove
import SummerOsk.User.Match
