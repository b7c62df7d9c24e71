import PS2Bios.Library.Run
import PS2Bios.Library.QueueFamily
import PS2Bios.Library.Semaphore
import PS2Bios.Sysmem.Exclusive
import PS2Bios.Kernel.Scheduler
import PS2Bios.Kernel.Pick
import PS2Bios.Kernel.SemaphoreSafety
import PS2Bios.Heaplib.ArenaSafety
import PS2Bios.Library.Line
import PS2Bios.Library.RingBuffer
import PS2Bios.Sif.Delivery
import PS2Bios.Kernel.HandOver
import PS2Bios.Kernel.Staging
import PS2Bios.Loadcore.Reboot
import PS2Bios.Rom.Iopboot
import PS2Bios.Irx.Relocation
import PS2Bios.Sio2man.Owner
import PS2Bios.Servers.Reports
import PS2Bios.Eesync.Answers
import PS2Bios.Eesync.Whole
import PS2Bios.Heaplib.Refusal
import PS2Bios.Threadman.PermanentAlarm
import PS2Bios.Threadman.Arming
import PS2Bios.Irx.Place
import PS2Bios.Kernel.Delivery
import PS2Bios.Kernel.SetDma
import PS2Bios.Loadcore.CommandLine
import PS2Bios.Servers.FileRead
import PS2Bios.Servers.ElfImage
import PS2Bios.Mcman.Bounds
import PS2Bios.Mcman.Cards
import PS2Bios.Mcman.Listing
import PS2Bios.Intrman.DispatchEnds
import PS2Bios.Ioman.Drivers
import PS2Bios.Cdvdman.Drive
import PS2Bios.Cdvdman.Config
import PS2Bios.Library.Ownership
import PS2Bios.Library.Reading
import PS2Bios.Ioman.Descriptors
import PS2Bios.Ioman.Romdrv
import PS2Bios.Ioman.RomHandles
import PS2Bios.Ioman.RomFiles
import PS2Bios.Library.StableInsert
import PS2Bios.Excepman.Chains
import PS2Bios.Excepman.Registry
import PS2Bios.Vblank.Lists
import PS2Bios.Vblank.Handlers
import PS2Bios.Vblank.Dispatch
import PS2Bios.Library.Threads
import PS2Bios.Cdvdman.Files
import PS2Bios.Cdvdman.SharedReads
import PS2Bios.Library.Search
import PS2Bios.Cdvdman.Directory
import PS2Bios.Cdvdman.RecordBounds
import PS2Bios.Cdvdman.PathSearch
import PS2Bios.Cdvdman.Tree
import PS2Bios.Kernel.OsdConfig
import PS2Bios.Kernel.QueueIndex
import PS2Bios.Threadman.Slots
import PS2Bios.Threadman.Stacks
import PS2Bios.Sysclib.Format
import PS2Bios.Sysclib.Numerals
import PS2Bios.Sysclib.RoundTrip
import PS2Bios.Modload.Starts
import PS2Bios.Padman.Safety
import PS2Bios.Threadman.Preemption
import PS2Bios.Threadman.SemaphoreSafety
import PS2Bios.Threadman.MailboxDelivery
import PS2Bios.Threadman.WaitOrder
import PS2Bios.Threadman.ReadyRuns
import PS2Bios.Threadman.FlagRuns
