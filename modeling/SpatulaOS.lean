import SpatulaOS.Lib.Threaded
import SpatulaOS.Mm.Heap
import SpatulaOS.Mm.Arena
import SpatulaOS.Mm.HeapRep
import SpatulaOS.Mm.HeapMalloc
import SpatulaOS.Mm.HeapFree
import SpatulaOS.Lib.Runs
import SpatulaOS.Mm.HeapClients
import SpatulaOS.Mm.HeapSafety
import SpatulaOS.Mm.HeapFrees
import SpatulaOS.Mm.HeapValidate
import SpatulaOS.Mm.HeapCoalesce
import SpatulaOS.Lib.Floyd
import SpatulaOS.Mm.HeapCycle
import SpatulaOS.Mm.HeapNull
import SpatulaOS.Mm.HeapSize
import SpatulaOS.Mm.HeapRoundTrip
import SpatulaOS.Mm.HeapDouble
import SpatulaOS.Lib.X86
import SpatulaOS.Boot.IsrStubs
import SpatulaOS.Lib.Descriptors
import SpatulaOS.Boot.Descriptors
import SpatulaOS.Boot.ContextSwitch
import SpatulaOS.Lib.Loops
import SpatulaOS.Core.Multiboot
import SpatulaOS.Lib.Bitmap
import SpatulaOS.Mm.Pmm
import SpatulaOS.Mm.PmmFrames
import SpatulaOS.Mm.PmmInit
import SpatulaOS.Mm.Paging
import SpatulaOS.Core.Idt
import SpatulaOS.Drivers.Keyboard
import SpatulaOS.Lib.Prescaler
import SpatulaOS.Core.Time
import SpatulaOS.Core.Interrupts
import SpatulaOS.Lib.Roll
import SpatulaOS.Video.Terminal
import SpatulaOS.Video.Grid
import SpatulaOS.Lib.Numeral
import SpatulaOS.Lib.OnDemand
import SpatulaOS.Core.DemandPaging
import SpatulaOS.Lib.Pic
import SpatulaOS.Drivers.Pic
import SpatulaOS.Video.Driver
import SpatulaOS.Video.Cursor
import SpatulaOS.Core.Console
import SpatulaOS.Core.LineBuffer
import SpatulaOS.Core.Echo
import SpatulaOS.Shell.Update
import SpatulaOS.Lib.Tokens
import SpatulaOS.Fs.Ramfs
import SpatulaOS.Lib.FirstDifference
import SpatulaOS.Fs.Strings
import SpatulaOS.Fs.Vfs
import SpatulaOS.Fs.Fd
import SpatulaOS.Fs.Mounts
import SpatulaOS.Fs.Buffers
import SpatulaOS.Fs.Calls
import SpatulaOS.Fs.Blocks
import SpatulaOS.Fs.Reference
import SpatulaOS.Fs.Refinement
import SpatulaOS.Fs.Tables
import SpatulaOS.Shell.Arguments
import SpatulaOS.Shell.Utoa
import SpatulaOS.Shell.Commands
import SpatulaOS.Shell.Bounds
import SpatulaOS.Shell.Paths
import SpatulaOS.Mm.PmmMap
import SpatulaOS.Mm.PmmWalks
import SpatulaOS.Mm.PagingFailure
import SpatulaOS.Mm.PagingOn
import SpatulaOS.Lib.History
import SpatulaOS.Drivers.Waiting
import SpatulaOS.Shell.Joined
import SpatulaOS.Fs.Creation
import SpatulaOS.Fs.Leftover
import SpatulaOS.Shell.WriteBack
import SpatulaOS.Fs.Requests
import SpatulaOS.Core.Numerals
import SpatulaOS.Shell.FileCalls
import SpatulaOS.Shell.LastAlloc
import SpatulaOS.Shell.TypedNumbers
import SpatulaOS.Shell.Calc
import SpatulaOS.Shell.Memdump
import SpatulaOS.Mm.FirstFit
import SpatulaOS.Mm.HeapCode
import SpatulaOS.Core.PagedHeap
import SpatulaOS.Shell.Store
import SpatulaOS.Shell.StoreRep
import SpatulaOS.Shell.StoreRefinement
import SpatulaOS.Video.Paper
import SpatulaOS.Shell.Desk
import SpatulaOS.Shell.Desktop
import SpatulaOS.Fs.OnHeap
import SpatulaOS.Shell.StoreOnHeap
import SpatulaOS.Shell.Startup
import SpatulaOS.Shell.Computer
