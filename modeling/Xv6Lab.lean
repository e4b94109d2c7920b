import Xv6Lab.Umalloc.Coalescing
import Xv6Lab.Virtio.Protocol
import Xv6Lab.Bio.Lru
import Xv6Lab.Proc.Ledger
import Xv6Lab.Proc.Family
import Xv6Lab.Proc.Kill
import Xv6Lab.Kernel.FailedExec
import Xv6Lab.Mm.Copy
import Xv6Lab.Mm.Atomic
import Xv6Lab.Kernel.Fileread
import Xv6Lab.Sync.Exclusion
import Xv6Lab.Console.WaitLoops
import Xv6Lab.Fpu.Exec
import Xv6Lab.Fpu.Decode
import Xv6Lab.Proc.Pids
import Xv6Lab.Llm.RoundTrip
import Xv6Lab.Llm.Greedy
import Xv6Lab.Llm.Next
import Xv6Lab.Console.Delivery
import Xv6Lab.Shell.Screen
import Xv6Lab.Shell.Browse
import Xv6Lab.Shell.Confirm
import Xv6Lab.Shell.Encoding
import Xv6Lab.Shell.Words
import Xv6Lab.Mkfs.Regions
import Xv6Lab.Mkfs.RoundTrip
import Xv6Lab.Libc.Memmove
import Xv6Lab.Libc.Printint
import Xv6Lab.Shell.Cursor
import Xv6Lab.Llm.Reads
import Xv6Lab.Kernel.Fdt
import Xv6Lab.Sync.PushOff
import Xv6Lab.Console.Uart
