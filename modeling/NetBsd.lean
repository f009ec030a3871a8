import NetBsd.Bin.Compress
import NetBsd.Bin.CompressChains
import NetBsd.Bin.Sh.Memalloc
import NetBsd.Bin.Sh.MemallocBlocks
import NetBsd.Bin.Sh.MemallocRuns
import NetBsd.Bin.Sh.Pmatch
import NetBsd.Db.Lru
import NetBsd.Db.LruRuns
import NetBsd.Db.LruShape
import NetBsd.Db.PageOrder
import NetBsd.Db.Split
import NetBsd.Kern.Adjtime
import NetBsd.Kern.Bio
import NetBsd.Kern.BioLists
import NetBsd.Kern.BioRuns
import NetBsd.Kern.BioSpace
import NetBsd.Kern.Callout
import NetBsd.Kern.Descrip
import NetBsd.Kern.DescripRuns
import NetBsd.Kern.DescripTables
import NetBsd.Kern.Externalize
import NetBsd.Kern.ForkPid
import NetBsd.Kern.Hzto
import NetBsd.Kern.Itimer
import NetBsd.Kern.Madj
import NetBsd.Kern.Mbuf
import NetBsd.Kern.NameCache
import NetBsd.Kern.NameCacheChain
import NetBsd.Kern.NameCacheIds
import NetBsd.Kern.ProcGroup
import NetBsd.Kern.ProcGroupCounts
import NetBsd.Kern.ProcGroupMoves
import NetBsd.Kern.ProcGroupRuns
import NetBsd.Kern.Pullup
import NetBsd.Kern.Rlist
import NetBsd.Kern.RlistOverlap
import NetBsd.Kern.Select
import NetBsd.Kern.SelectRuns
import NetBsd.Kern.Sig
import NetBsd.Kern.SigRuns
import NetBsd.Kern.Sockbuf
import NetBsd.Kern.SockbufRuns
import NetBsd.Kern.Soreceive
import NetBsd.Kern.SoreceivePeek
import NetBsd.Kern.SoreceiveRuns
import NetBsd.Kern.Sosend
import NetBsd.Kern.Synch
import NetBsd.Kern.SynchRuns
import NetBsd.Kern.SynchWakeup
import NetBsd.Kern.Timeval
import NetBsd.Kern.TtyCatb
import NetBsd.Kern.TtyRing
import NetBsd.Kern.TtyWrite
import NetBsd.Kern.TtyWriteRuns
import NetBsd.Kern.UnpGc
import NetBsd.Kern.UnpGcRuns
import NetBsd.Lib.Alarms
import NetBsd.Lib.Assoc
import NetBsd.Lib.BitSet
import NetBsd.Lib.BlockTree
import NetBsd.Lib.ByteMem
import NetBsd.Lib.Chained
import NetBsd.Lib.Circular
import NetBsd.Lib.Fault
import NetBsd.Lib.InsQueue
import NetBsd.Lib.Intervals
import NetBsd.Lib.LinkedList
import NetBsd.Lib.Machine
import NetBsd.Lib.OnesComplement
import NetBsd.Lib.Periodic
import NetBsd.Lib.Queues
import NetBsd.Lib.Rearrange
import NetBsd.Lib.Reassembly
import NetBsd.Lib.RecordQueue
import NetBsd.Lib.Reversal
import NetBsd.Lib.Ring
import NetBsd.Lib.Segments
import NetBsd.Lib.Spool
import NetBsd.Lib.Stateful
import NetBsd.Lib.Sweep
import NetBsd.Lib.TailQueue
import NetBsd.Lib.Tally
import NetBsd.Lib.Threaded
import NetBsd.Lib.Wildcard
import NetBsd.Libc.Fnmatch
import NetBsd.Libc.Heapsort
import NetBsd.Libc.Malloc
import NetBsd.Libc.MallocBlocks
import NetBsd.Libc.MallocRuns
import NetBsd.Libc.Qsort
import NetBsd.Libc.Random
import NetBsd.Libc.RandomRuns
import NetBsd.Libc.ResComp
import NetBsd.Libc.ResCompNames
import NetBsd.Libc.ResCompReads
import NetBsd.Libc.ResCompRuns
import NetBsd.Libc.Setenv
import NetBsd.Libc.Setmode
import NetBsd.Libc.SetmodeActions
import NetBsd.Libc.SetmodeCommands
import NetBsd.Libc.SetmodeModes
import NetBsd.Libc.SetmodeStrings
import NetBsd.Libc.Stdio
import NetBsd.Libc.StdioOutput
import NetBsd.Libc.StdioVwrite
import NetBsd.Libc.StdioWrite
import NetBsd.Libc.Strtol
import NetBsd.Libc.Vfprintf
import NetBsd.Libc.VfprintfAnsi
import NetBsd.Libc.VfprintfExact
import NetBsd.Libc.VfprintfFields
import NetBsd.Libc.VfprintfScan
import NetBsd.Libc.Vis
import NetBsd.Libc.VisStrings
import NetBsd.Net.Bpf.Chain
import NetBsd.Net.Bpf.Filter
import NetBsd.Net.Bpf.Residue
import NetBsd.Net.Bpf.Safety
import NetBsd.Net.InCksum
import NetBsd.Net.Ip.Dooptions
import NetBsd.Net.Ip.Output
import NetBsd.Net.Route
import NetBsd.Net.RouteRefs
import NetBsd.Net.Slip.Checksum
import NetBsd.Net.Slip.Compress
import NetBsd.Net.Slip.Deltas
import NetBsd.Net.Slip.Framing
import NetBsd.Net.Slip.Line
import NetBsd.Net.Slip.Recency
import NetBsd.Net.Slip.Reject
import NetBsd.Net.Slip.RoundTrip
import NetBsd.Net.Slip.Sender
import NetBsd.Net.Tcp.Events
import NetBsd.Net.Tcp.Input
import NetBsd.Net.Tcp.Output
import NetBsd.Net.Tcp.Predict
import NetBsd.Net.Tcp.Reass
import NetBsd.Net.Tcp.Rtt
import NetBsd.Net.Tcp.Tcb
import NetBsd.Net.Tcp.Trim
import NetBsd.Ufs.Balloc
import NetBsd.Ufs.Bmap
import NetBsd.Ufs.BmapPath
import NetBsd.Ufs.Disksort
import NetBsd.Ufs.Hashalloc
import NetBsd.Ufs.Indirtrunc
import NetBsd.Ufs.Itrunc
import NetBsd.Ufs.Lockf.Advlock
import NetBsd.Ufs.Lockf.Edits
import NetBsd.Ufs.Lockf.Loops
import NetBsd.Ufs.Lockf.Machine
import NetBsd.Ufs.Lockf.Model
import NetBsd.Ufs.Lockf.Ranges
import NetBsd.Ufs.Lockf.Rep
import NetBsd.Ufs.Lockf.Split
import NetBsd.Ufs.Quota
import NetBsd.Vm.Collapse
import NetBsd.Vm.CollapseRuns
import NetBsd.Vm.Lock
import NetBsd.Vm.LockRuns
import NetBsd.Vm.Map
import NetBsd.Vm.MapFirstFit
import NetBsd.Vm.MapLists
import NetBsd.Vm.MapRuns
import NetBsd.Vm.MapSteps
import NetBsd.Vm.SwapPager
import NetBsd.Vm.SwapRuns
