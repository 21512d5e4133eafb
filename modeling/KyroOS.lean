import KyroOS.Basic
import KyroOS.Lib.Transition
import KyroOS.Lib.RoundRobin
import KyroOS.Lib.RingBuffer
import KyroOS.Sync.Machine
import KyroOS.Sync.LockDiscipline
import KyroOS.Sync.Blocking
import KyroOS.Sync.Mutex
import KyroOS.Sync.PipeFifo
import KyroOS.Sync.PipeProgress
import KyroOS.Sync.Preemption
import KyroOS.Sync.Agreement
import KyroOS.Lib.RadixTree
import KyroOS.Memory.Pmm
import KyroOS.Memory.PmmInit
import KyroOS.Memory.PmmRuns
import KyroOS.Memory.Vmm
import KyroOS.Memory.AddressSpace
import KyroOS.Memory.Teardown
import KyroOS.Memory.UserMemory
import KyroOS.Memory.Filling
import KyroOS.Memory.Phases
import KyroOS.Memory.Translation
import KyroOS.Lib.ByteMap
import KyroOS.Memory.FrameBytes
import KyroOS.Lib.CircularList
import KyroOS.Threads.Basic
import KyroOS.Threads.Scheduler
import KyroOS.Threads.RunQueue
import KyroOS.Threads.Create
import KyroOS.Threads.UserSpace
import KyroOS.Threads.RingRuns
import KyroOS.Threads.Runnable
import KyroOS.Threads.Reaper
import KyroOS.Elf.Load
import KyroOS.Elf.Bounds
import KyroOS.Elf.Mapping
import KyroOS.Elf.KernelHalf
import KyroOS.Elf.Contents
import KyroOS.Process.Ownership
import KyroOS.Process.Runs
import KyroOS.Process.Life
import KyroOS.Heap.Basic
import KyroOS.Heap.Blocks
import KyroOS.Heap.Free
import KyroOS.Heap.Alloc
import KyroOS.Heap.Calls
import KyroOS.Heap.Runs
import KyroOS.Vfs.Kyrofs
import KyroOS.Lib.Splice
import KyroOS.Vfs.Content
import KyroOS.Vfs.CreateResolve
import KyroOS.Vfs.Names
import KyroOS.Vfs.Descriptors
import KyroOS.Vfs.Changes
import KyroOS.Vfs.Stat
import KyroOS.Vfs.TreeShape
import KyroOS.Vfs.Readdir
import KyroOS.Vfs.WholePath
import KyroOS.Vfs.Path
import KyroOS.Vfs.Tree
import KyroOS.Disk.FsDisk
import KyroOS.Disk.MountFailure
import KyroOS.Disk.Table
import KyroOS.Disk.Calls
import KyroOS.Disk.Exits
import KyroOS.Disk.WriteThrough
import KyroOS.Disk.Isolation
import KyroOS.Disk.Ide
import KyroOS.Disk.Partition
import KyroOS.Disk.HostileImage
import KyroOS.Mount.Vfs
import KyroOS.Mount.Unmount
import KyroOS.Mount.Independence
import KyroOS.Mount.ReadToEnd
import KyroOS.Mount.FormatMount
import KyroOS.Net.Bytes
import KyroOS.Net.Checksum
import KyroOS.Net.Host
import KyroOS.Net.Arp
import KyroOS.Net.IpSend
import KyroOS.Net.Dhcp
import KyroOS.Net.Socket
import KyroOS.Net.Receive
import KyroOS.Net.Bounds
import KyroOS.Net.RoundTrip
import KyroOS.Net.ArpExchange
import KyroOS.Net.UdpRoundTrip
import KyroOS.Net.DhcpAddress
import KyroOS.Net.DhcpSafety
import KyroOS.Net.RecvBuffer
import KyroOS.Net.RecvWait
import KyroOS.Net.Ports
import KyroOS.Net.TransmitRing
import KyroOS.Disk.BlockDevice
import KyroOS.Lib.AddressRange
import KyroOS.Syscalls.Handlers
import KyroOS.Syscalls.UserPointers
import KyroOS.Context.FirstDispatch
import KyroOS.Context.Transparency
import KyroOS.Memory.AllocPages
import KyroOS.Memory.DestroyCalls
import KyroOS.Heap.Search
import KyroOS.Heap.Contents
import KyroOS.Threads.RoundRobin
import KyroOS.Memory.UserCopy
import KyroOS.Context.Arguments
import KyroOS.Lib.Custody
import KyroOS.Net.SocketOwners
import KyroOS.Vfs.PathWalk
import KyroOS.Vfs.Growth
import KyroOS.Vfs.OpenAtomic
import KyroOS.Mount.FailedCalls
import KyroOS.Vfs.Append
import KyroOS.Crypto.Buffering
import KyroOS.Crypto.Digest
import KyroOS.Crypto.Sha256
import KyroOS.Disk.NodePtr
import KyroOS.Process.ExecAtomic
import KyroOS.Lib.FifoCache
import KyroOS.Net.ArpHistory
import KyroOS.Syscalls.ProgramBreak
import KyroOS.Disk.FileNames
import KyroOS.Disk.Space
import KyroOS.Disk.WriteFailure
import KyroOS.Net.ReceiveRing
import KyroOS.Net.Echo
import KyroOS.Net.SendTruth
import KyroOS.Net.DhcpOptions
import KyroOS.Sync.PipeDestroy
import KyroOS.Sync.PipeClose
import KyroOS.Sync.PipeReturn
import KyroOS.Input.EventQueue
import KyroOS.Console.LogHistory
import KyroOS.Crypto.Random
import KyroOS.Console.Font
import KyroOS.Console.Framebuffer
import KyroOS.Console.Bounds
import KyroOS.Input.Mouse
import KyroOS.Strings.Memmove
import KyroOS.Lib.Terminal
import KyroOS.Console.Putchar
import KyroOS.Vfs.Removal
import KyroOS.Packages.RemoveRecursive
import KyroOS.Packages.Database
import KyroOS.Packages.RemovePackage
import KyroOS.Lib.BoundedArray
import KyroOS.Packages.Info
import KyroOS.Packages.Archive
import KyroOS.Packages.Install
import KyroOS.Packages.InBounds
import KyroOS.Strings.Copies
import KyroOS.Lib.Numerals
import KyroOS.Strings.Printf
import KyroOS.Strings.FormatReads
import KyroOS.Strings.NumberFormats
import KyroOS.Lib.Fuel
import KyroOS.Coreutils.Calls
import KyroOS.Coreutils.FileText
import KyroOS.Coreutils.Opened
import KyroOS.Coreutils.Move
import KyroOS.Coreutils.Copy
import KyroOS.Coreutils.CopyInto
import KyroOS.Pci.Bars
import KyroOS.Pci.Scan
import KyroOS.Disk.AtaDevice
import KyroOS.Disk.AtaRuns
import KyroOS.Interrupts.Descriptors
import KyroOS.Interrupts.Pic
import KyroOS.Interrupts.Dispatch
import KyroOS.Input.Keyboard
import KyroOS.Userspace.TuiText
import KyroOS.Vfs.BootModules
import KyroOS.Lib.SlotTable
import KyroOS.Disk.FileMap
