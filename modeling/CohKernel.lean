import CohKernel.StAlloc.Finds
import CohKernel.StAlloc.Rejects
import CohKernel.Fs.Chsize
import CohKernel.Fs.Gates
import CohKernel.DdiUio.Moves
import CohKernel.Tboot.Sys
import CohKernel.Termio.In
import CohKernel.Pipe.Poll
import CohKernel.Pipe.Progress
import CohKernel.DdiTime.Ids
import CohKernel.DdiTime.Tickets
import CohKernel.Clock.Runs
import CohKernel.Rlock.Close
import CohKernel.Sem386.Range
import CohKernel.Sem386.Wakeups
import CohKernel.Sem386.Cancel
import CohKernel.Msg386.Ids
import CohKernel.Msg386.Receive
import CohKernel.Mmu.Pages
import CohKernel.Shm.Release
import CohKernel.Shm.Access
import CohKernel.Shm.Overlap
import CohKernel.Bio.Unique
import CohKernel.Bio.Radix
import CohKernel.Bio.Lru
import CohKernel.Rawio.Physiock
import CohKernel.Itable.Unique
import CohKernel.Fd.Counts
import CohKernel.Rw.Safe
import CohKernel.SleepLock.Safe
import CohKernel.Ialloc.Free
import CohKernel.Frame.Msig
import CohKernel.Sig.Masks
import CohKernel.Defer.Order
import CohKernel.Mblk.Ops
import CohKernel.Shead.Timer
import CohKernel.Strhead.Wsrv
import CohKernel.Strm.Marks
import CohKernel.Message.Pullup
import CohKernel.Strmem.Bufcall
import CohKernel.Strwrite.Request
import CohKernel.Push.Mirror
import CohKernel.Strsched.Runs
import CohKernel.Mux.Runs
import CohKernel.Qprocs.Runs
import CohKernel.Dir.Empty
import CohKernel.Dir.Getdents
import CohKernel.Mkdir.Rename
import CohKernel.Mmu.MapPhys
import CohKernel.Ft.Cvt
import CohKernel.Exec.Stack
import CohKernel.Exec.Pexece
import CohKernel.Fs.Icopy
import CohKernel.Fs.Sorted
import CohKernel.Fs.Sysio
import CohKernel.Dma.Queue
import CohKernel.Strpoll.Sigpoll
import CohKernel.Strm.Alloc
import CohKernel.Devno.Numbers
import CohKernel.Kmem.Pool
import CohKernel.Gift.Fifo
import CohKernel.Bufq.Queues
