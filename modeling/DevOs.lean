import DevOs.Ipc.Order
import DevOs.Memory.Grants
import DevOs.Fat32.Space
import DevOs.Fat32.Frame
import DevOs.Ipc.Envelope
import DevOs.Ipc.Reply
import DevOs.Lib.Choice
import DevOs.Scheduler.Model
import DevOs.Scheduler.Scan
import DevOs.Scheduler.Selection
import DevOs.Scheduler.Priority
import DevOs.Scheduler.Accounting
import DevOs.Lib.Slots
import DevOs.Scheduler.Queues
import DevOs.Management.Handles
import DevOs.Management.Lock
import DevOs.Ahci.Slots
import DevOs.Lib.Bitmaps
import DevOs.Lib.Ranges
import DevOs.Heap.Account
import DevOs.Fat32.Content
import DevOs.Lib.Fields
import DevOs.Lib.Loops
import DevOs.Lib.Radix
import DevOs.Paging.Model
import DevOs.Paging.Tables
import DevOs.Paging.Map
import DevOs.Paging.Readback
import DevOs.Paging.Stale
import DevOs.Paging.Large
import DevOs.Paging.Tlb
import DevOs.Lib.Holes
import DevOs.Paging.Blocks
import DevOs.Paging.Search
import DevOs.Paging.Available
import DevOs.Paging.Tags
import DevOs.Files.Exclusive
import DevOs.Fat32.Names
import DevOs.Fat32.Stored
import DevOs.Memory.Single
import DevOs.Memory.Contiguous
import DevOs.Memory.Counted
import DevOs.Memory.RunMarks
import DevOs.Memory.Init
import DevOs.Memory.Bounds
import DevOs.Memory.PageArray
import DevOs.Memory.Physical
import DevOs.Memory.IoMemory
import DevOs.Memory.IoWindows
import DevOs.Heap.Tree
import DevOs.Lib.Maxima
import DevOs.Heap.Calls
import DevOs.Heap.Recache
import DevOs.Heap.Caches
import DevOs.Heap.Occupancy
import DevOs.Heap.Bookkeeping
import DevOs.Heap.FullTree
import DevOs.Fat32.Paths
import DevOs.Fat32.Label
import DevOs.Fat32.LongNames
import DevOs.Fat32.Coherence
import DevOs.Fat32.ShortNames
import DevOs.Ahci.Interrupts
import DevOs.Ahci.Read
import DevOs.Disks.Disk
import DevOs.Disks.Partition
import DevOs.Fat32.LeftOver
import DevOs.Fat32.Unique
import DevOs.Files.Registry
import DevOs.Ipc.Server
import DevOs.Lib.Overlays
import DevOs.Loader.Imports
import DevOs.Loader.KernelImage
import DevOs.Loader.Relocation
import DevOs.Management.Devices
import DevOs.Memory.FirmwareMap
import DevOs.Fat32.Found
import DevOs.Disks.Resolve
import DevOs.Files.Spelling
import DevOs.Interrupts.Allocation
import DevOs.Interrupts.Capabilities
import DevOs.Lib.Collected
import DevOs.Management.Iteration
import DevOs.Paging.Pcids
import DevOs.Pci.Enumerate
import DevOs.Pci.Find
import DevOs.Pci.Writes
import DevOs.Aml.Model
import DevOs.Aml.Names
import DevOs.Aml.PackageLength
import DevOs.Aml.Skipping
import DevOs.Ddk.Bits
import DevOs.Files.Listing
import DevOs.Kernel.Fill
import DevOs.Kernel.Numbers
import DevOs.Lib.Threads
import DevOs.Setfile.Create
import DevOs.Usb.Addresses
import DevOs.Usb.Schedule
import DevOs.Usb.Queues
import DevOs.Kernel.Comparison
import DevOs.Kernel.Decimal
import DevOs.Kernel.Hexadecimal
import DevOs.Acpi.Madt
import DevOs.Lib.Growing
import DevOs.Processes.Create
import DevOs.Processes.Threads
import DevOs.Smbios.Structures
import DevOs.Usb.Transfers
import DevOs.Lib.Additions
import DevOs.Lib.Forests
import DevOs.Loader.Twice
import DevOs.Paging.Space
import DevOs.Management.DebugPrint
