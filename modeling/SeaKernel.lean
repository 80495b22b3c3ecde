import SeaKernel.Block.Cache
import SeaKernel.Block.Request
import SeaKernel.Ds.HashBounds
import SeaKernel.Ext2.Ownership
import SeaKernel.Ext2.ReadPage
import SeaKernel.Ext2.WritePage
import SeaKernel.Fs.Chroot
import SeaKernel.Fs.FileContents
import SeaKernel.Fs.InitialArchive
import SeaKernel.Fs.InodePut
import SeaKernel.Fs.LinkCount
import SeaKernel.Fs.Pwritev
import SeaKernel.Fs.Rename
import SeaKernel.Kobj.CharBufferRuns
import SeaKernel.Kobj.LruRuns
import SeaKernel.Kobj.SlabRuns
import SeaKernel.Memory.BuddyRuns
import SeaKernel.Memory.FrameRuns
import SeaKernel.Memory.MappingTermination
import SeaKernel.Memory.MmapPlacement
import SeaKernel.Memory.PageTableOverlap
import SeaKernel.Memory.ProtectEffect
import SeaKernel.Memory.SharedMemory
import SeaKernel.Net.Ipv6Send
import SeaKernel.Net.ReceiveBounds
import SeaKernel.Net.TcpClose
import SeaKernel.Net.TcpCredit
import SeaKernel.Net.TcpReceive
import SeaKernel.Net.UnixConnect
import SeaKernel.Process.Credentials
import SeaKernel.Process.SignalFrames
import SeaKernel.Process.Signals
import SeaKernel.Process.Wait
import SeaKernel.Sched.Mutex
import SeaKernel.Sched.RunQueue
import SeaKernel.Sched.SleepFlag
import SeaKernel.Sched.TimerLevels
import SeaKernel.Tty.LineDiscipline
import SeaKernel.Tty.Nonblocking
