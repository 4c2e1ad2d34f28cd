import YakOS.Lib.Run
import YakOS.Lib.Bytes
import YakOS.Lib.Bitops
import YakOS.Lib.Lists
import YakOS.Lib.Links
import YakOS.Lib.Circles
import YakOS.Lib.Ring
import YakOS.Lib.Buddy
import YakOS.Lib.PageTable
import YakOS.Lib.Paths
import YakOS.Lib.Numerals
import YakOS.Lib.Arm
import YakOS.Lib.Terminal
import YakOS.Kernel.ListHead
import YakOS.Kernel.Task
import YakOS.Kernel.Semaphore
import YakOS.Kernel.Log
import YakOS.Kernel.LogDump
import YakOS.Kernel.Digits
import YakOS.Kernel.Printf
import YakOS.Kernel.Format
import YakOS.Kernel.Messages
import YakOS.Kernel.Sched
import YakOS.Kernel.Priority
import YakOS.Kernel.RoundRobin
import YakOS.Kernel.Transitions
import YakOS.Kernel.Machine
import YakOS.Kernel.Frame
import YakOS.Kernel.Critical
import YakOS.Kernel.Wakeup
import YakOS.Kernel.Timer
import YakOS.Kernel.Expiry
import YakOS.Kernel.Tick
import YakOS.Kernel.Periodic
import YakOS.Kernel.Workqueue
import YakOS.Kernel.Pending
import YakOS.Kernel.Flush
import YakOS.Kernel.Completion
import YakOS.Kernel.WaitQueue
import YakOS.Kernel.Timeout
import YakOS.Mm.PageAlloc
import YakOS.Mm.Frames
import YakOS.Mm.Partition
import YakOS.Mm.Capacity
import YakOS.Mm.Bounds
import YakOS.Mm.Slob
import YakOS.Mm.Freelist
import YakOS.Mm.SlobPage
import YakOS.Mm.HeapInv
import YakOS.Mm.Init
import YakOS.Mm.Kmalloc
import YakOS.Mm.Extents
import YakOS.Mm.Owners
import YakOS.Mm.Room
import YakOS.Module.Elf
import YakOS.Module.Sections
import YakOS.Module.Segment
import YakOS.Module.Tables
import YakOS.Module.Relocate
import YakOS.Module.Load
import YakOS.Module.Resolve
import YakOS.Module.Loaded
import YakOS.Module.Target
import YakOS.Module.Range
import YakOS.Module.Alloc
import YakOS.Module.Locals
import YakOS.Module.Blocks
import YakOS.Module.Symtab
import YakOS.Module.Insmod
import YakOS.Fs.Fat
import YakOS.Fs.Pread
import YakOS.Fs.Dir
import YakOS.Fs.SameFile
import YakOS.Fs.Memory
import YakOS.Fs.Chain
import YakOS.Fs.Table
import YakOS.Fs.RootDir
import YakOS.Fs.Lookup
import YakOS.Fs.Listing
import YakOS.Fs.Registry
import YakOS.Fs.Vfs
import YakOS.Fs.Nodes
import YakOS.Fs.Closing
import YakOS.Fs.Walk
import YakOS.Fs.Session
import YakOS.Fs.Tree
import YakOS.Fs.Stores
import YakOS.Fs.Mount
import YakOS.Fs.Layout
import YakOS.Fs.Clip
import YakOS.Fs.ReadBound
import YakOS.Fs.CurPath
import YakOS.Fs.Components
import YakOS.Arch.Serial
import YakOS.Arch.Mmu
import YakOS.Arch.Section
import YakOS.Arch.Irq
import YakOS.Arch.Interrupt
import YakOS.Arch.Context
import YakOS.Arch.Boot
import YakOS.Arch.Faults
import YakOS.Kernel.Dump
import YakOS.Arch.Report
import YakOS.Arch.AddressSpace
import YakOS.Arch.Receive
import YakOS.Driver.Kobject
import YakOS.Driver.Bus
import YakOS.Driver.BusLock
import YakOS.Driver.Devices
import YakOS.Shell.Readline
import YakOS.Shell.Commands
import YakOS.Shell.Numbers
import YakOS.Shell.Console
import YakOS.Libc.Memory
import YakOS.Libc.Strings
import YakOS.Libc.Strchr
