import Xinu.Foundations.CooperativeFlow
import Xinu.Foundations.CooperativeMachine
import Xinu.Foundations.RelyGuarantee
import Xinu.Foundations.LinkedPath
import Xinu.Foundations.Spans
import Xinu.Foundations.CountingSemaphore
import Xinu.Foundations.TokenLedger
import Xinu.Foundations.DeltaQueue
import Xinu.Foundations.ScatteredList
import Xinu.Foundations.RingBuffer
import Xinu.Foundations.ReturnPaths
import Xinu.Foundations.CountedLoop
import Xinu.Foundations.AnyScheduler
import Xinu.Foundations.NullTerminated
import Xinu.Foundations.WordMemory
import Xinu.Foundations.StablePriority
import Xinu.Foundations.RotatingSearch
import Xinu.Foundations.CallSequence
import Xinu.Foundations.OnesComplement
import Xinu.Foundations.SingleLink
import Xinu.Memory.Allocator
import Xinu.Memory.FreeList
import Xinu.Memory.Partition
import Xinu.Memory.Requests
import Xinu.Memory.BadFree
import Xinu.Memory.AddressSpace
import Xinu.Kernel.State
import Xinu.Kernel.Queue
import Xinu.Kernel.QueueSpec
import Xinu.Kernel.Scheduler
import Xinu.Kernel.Invariant
import Xinu.Kernel.SchedulerSpec
import Xinu.Kernel.Clock
import Xinu.Kernel.Process
import Xinu.Kernel.Semaphore
import Xinu.Kernel.Startup
import Xinu.Kernel.SemaphoreSpec
import Xinu.Kernel.ClockSpec
import Xinu.Kernel.ProcessSpec
import Xinu.Kernel.Interleaving
import Xinu.Kernel.QueueInvariant
import Xinu.Kernel.ReadyList
import Xinu.Kernel.SemaphoreCounts
import Xinu.Kernel.SemaphoreTokens
import Xinu.Kernel.TimedWakeup
import Xinu.Kernel.DeltaList
import Xinu.Kernel.SemaphoreWorld
import Xinu.Kernel.WorldBystanders
import Xinu.Kernel.Footprint
import Xinu.Kernel.Messages
import Xinu.Kernel.Bystanders
import Xinu.Kernel.Script
import Xinu.Kernel.KillOnce
import Xinu.Kernel.HighestPriority
import Xinu.Kernel.Interrupts
import Xinu.Kernel.Future
import Xinu.Kernel.FutureRounds
import Xinu.Kernel.BufferPool
import Xinu.Kernel.BufferPoolSpec
import Xinu.Kernel.Ports
import Xinu.Kernel.PortTraffic
import Xinu.Kernel.WorldLodging
import Xinu.Kernel.QueueIds
import Xinu.Kernel.Marks
import Xinu.Kernel.Creation
import Xinu.Kernel.RotatingAllocators
import Xinu.Kernel.MaskSpec
import Xinu.Net.State
import Xinu.Net.Script
import Xinu.Net.Arp
import Xinu.Net.ArpSpec
import Xinu.Net.ArpCache
import Xinu.Net.ArpAnswers
import Xinu.Net.Tftp
import Xinu.Net.TftpDownload
import Xinu.Net.Udp
import Xinu.Net.UdpSpec
import Xinu.Net.UdpQueues
import Xinu.Net.Packet
import Xinu.Net.Ip
import Xinu.Net.Icmp
import Xinu.Net.IcmpSpec
import Xinu.Net.IcmpQueues
import Xinu.Net.Checksums
import Xinu.Net.MaskSpec
import Xinu.Device.RemoteComm
import Xinu.Device.RemoteCommSpec
import Xinu.Device.RemoteRead
import Xinu.Device.NameSpace
import Xinu.Device.NameSpaceSpec
import Xinu.Device.Loopback
import Xinu.Device.LoopbackSpec
import Xinu.Device.Uart
import Xinu.Device.UartSpec
import Xinu.Device.UartRead
import Xinu.Device.UartInput
import Xinu.Device.UartReports
import Xinu.Device.Tty
import Xinu.Device.TtyOutput
import Xinu.Device.TtyInput
import Xinu.Device.TtyLines
import Xinu.Shell.Jobs
import Xinu.Shell.Lexan
import Xinu.Shell.LineTokens
import Xinu.Shell.LexanBounds
import Xinu.Foundations.ThreeWayPartition
import Xinu.Lib.Quicksort
import Xinu.Foundations.Calendar
import Xinu.Lib.DatePrinting
import Xinu.Lib.NumberPrinting
import Xinu.Lib.FormattedScan
import Xinu.Shell.CommandLine
import Xinu.Shell.Launch
import Xinu.Shell.Grammar
import Xinu.Shell.Arguments
import Xinu.Shell.JobsSpec
import Xinu.FileSystem.State
import Xinu.FileSystem.Files
import Xinu.FileSystem.Directory
import Xinu.FileSystem.Bitmap
import Xinu.FileSystem.InodeTable
import Xinu.FileSystem.BlockIsolation
import Xinu.FileSystem.BlockOwnership
import Xinu.FileSystem.ByteFile
import Xinu.LocalFileSystem.State
import Xinu.LocalFileSystem.Format
import Xinu.Foundations.Endings
import Xinu.Foundations.SharedBlocks
import Xinu.LocalFileSystem.OpenFiles
import Xinu.LocalFileSystem.Layout
import Xinu.LocalFileSystem.Setup
import Xinu.LocalFileSystem.ByteFiles
import Xinu.LocalFileSystem.Refinement
import Xinu.LocalFileSystem.Transfer
import Xinu.LocalFileSystem.Truncation
import Xinu.LocalFileSystem.Contents
import Xinu.LocalFileSystem.Opening
import Xinu.LocalFileSystem.Runs
import Xinu.Net.DottedQuad
import Xinu.Net.DnsAnswers
import Xinu.Net.PacketBounds
import Xinu.Net.DhcpOptions
import Xinu.Net.DhcpClient
import Xinu.Apps.ProcessRing
import Xinu.Apps.RingWalker
import Xinu.Apps.RingCountdown
import Xinu.Apps.RingDeadlock
