import FrodOS.Lib.Memory
import FrodOS.Lib.Loop
import FrodOS.Lib.Run
import FrodOS.Lib.Update
import FrodOS.Lib.CString
import FrodOS.Lib.BoundedMap
import FrodOS.Frodfs.Storage
import FrodOS.Frodfs.FileTable
import FrodOS.Frodfs.Refinement
import FrodOS.Frodfs.Naming
import FrodOS.Frodfs.Held
import FrodOS.Frodfs.Extent
import FrodOS.Frodfs.Put
import FrodOS.Frodfs.Listing
import FrodOS.Lib.Bits
import FrodOS.Lib.Ledger
import FrodOS.Pmm.Bitmap
import FrodOS.Pmm.Initialisation
import FrodOS.Pmm.Termination
import FrodOS.Pmm.MemoryMap
import FrodOS.Pmm.Ownership
import FrodOS.Pmm.Refusals
import FrodOS.Pmm.Frames
import FrodOS.Kernel.State
import FrodOS.Kernel.Paging
import FrodOS.Kernel.FsCalls
import FrodOS.Kernel.Exec
import FrodOS.Kernel.ExecBounds
import FrodOS.Kernel.ExecMapping
import FrodOS.Kernel.Tar
import FrodOS.Kernel.Userland
import FrodOS.Kernel.ExecFailure
import FrodOS.Kernel.Syscalls
import FrodOS.Sdk.Packer
import FrodOS.Sdk.Matrix
import FrodOS.Kernel.ExecPacked
import FrodOS.Kernel.Import
import FrodOS.Kernel.ImportWalk
import FrodOS.Kernel.Archive
import FrodOS.Kernel.SizeField
import FrodOS.Kernel.LookupWalk
import FrodOS.Kernel.Oversized
import FrodOS.Kernel.Ustar
import FrodOS.Kernel.FullNames
import FrodOS.Ramfs.Lookup
import FrodOS.Ramfs.Agreement
import FrodOS.Kernel.ImportArchive
import FrodOS.Kernel.ImportComplete
import FrodOS.Kernel.ImportSound
import FrodOS.Kernel.Lookup
import FrodOS.Kernel.Relaunch
import FrodOS.Lib.Ring
import FrodOS.Drivers.Keyboard
import FrodOS.Lib.Tape
import FrodOS.Drivers.Video
import FrodOS.Drivers.Screen
import FrodOS.Drivers.Modifiers
import FrodOS.Drivers.Timer
import FrodOS.Shell.LineEditor
import FrodOS.Shell.Commands
import FrodOS.Shell.FileCommands
import FrodOS.Shell.FileSession
import FrodOS.Lib.Stack
import FrodOS.Lib.FirstMatch
import FrodOS.Frodfs.Disk
import FrodOS.Drivers.Sound
import FrodOS.Lib.Numeral
import FrodOS.Drivers.Numbers
import FrodOS.Kernel.Fault
import FrodOS.Lib.Supply
import FrodOS.Kernel.Loading
import FrodOS.Kernel.DiskCalls
import FrodOS.Shell.Language
import FrodOS.Shell.Interpreter
import FrodOS.Shell.MainLoop
import FrodOS.Shell.Recall
import FrodOS.Cpu.Segments
import FrodOS.Cpu.Gates
import FrodOS.Cpu.Instructions
import FrodOS.Cpu.Stubs
import FrodOS.Cpu.Interrupts
import FrodOS.Cpu.Start
import FrodOS.Cpu.Programs
import FrodOS.Cpu.UserMode
import FrodOS.Cpu.SystemCalls
import FrodOS.Cpu.Faults
import FrodOS.System.Machine
import FrodOS.System.Files
import FrodOS.System.Devices
import FrodOS.System.Frames
import FrodOS.System.Boot
