import Voyager.Heap.Kmalloc
import Voyager.Lib.Tiling
import Voyager.Lib.LinkedList
import Voyager.Heap.Layout
import Voyager.Heap.FreeList
import Voyager.Heap.Blocks
import Voyager.Heap.Coalesce
import Voyager.Heap.Grow
import Voyager.Heap.Interface
import Voyager.Heap.Client
import Voyager.Boot
import Voyager.Frames.EarlyAlloc
import Voyager.Frames.FrameAlloc
import Voyager.Frames.Bitmaps
import Voyager.Frames.Init
import Voyager.Frames.Handoff
import Voyager.Lib.Bits
import Voyager.Lib.RadixTable
import Voyager.Paging.Tables
import Voyager.Paging.Bootstrap
import Voyager.Paging.MapPage
import Voyager.Paging.Ranges
import Voyager.Paging.Lays
import Voyager.Paging.Direct
import Voyager.Paging.Switch
import Voyager.Paging.Protection
import Voyager.Paging.Runtime
import Voyager.Paging.Supply
import Voyager.Heap.Pages
import Voyager.Paging.Spares
import Voyager.Paging.Bringup
import Voyager.Heap.Private
import Voyager.Lib.X86
import Voyager.Interrupts.Stubs
import Voyager.Acpi.Madt
import Voyager.Acpi.Topology
import Voyager.Interrupts.Vectors
import Voyager.Drivers.Keyboard
import Voyager.Heap.Vector
import Voyager.Time.Timers
import Voyager.Time.Countdown
import Voyager.Heap.Demand
import Voyager.Heap.Honest
import Voyager.Console.Putchar
import Voyager.Console.Startup
import Voyager.Heap.Payload
import Voyager.Lib.RoundRobin
import Voyager.Lib.Stores
import Voyager.Sched.Process
import Voyager.Sched.Create
import Voyager.Sched.RunQueue
import Voyager.Sched.Tasks
import Voyager.Sched.Arrival
import Voyager.Sched.Dispatch
import Voyager.Sched.Turns
import Voyager.Heap.Escape
import Voyager.Frames.EarlyChoice
import Voyager.Heap.DoubleFree
import Voyager.Frames.Ledger
import Voyager.Paging.Law
import Voyager.Paging.Requests
import Voyager.Paging.Neighbours
import Voyager.Paging.Chart
import Voyager.Paging.Cover
import Voyager.Paging.CoverLaw
import Voyager.Paging.Image
import Voyager.Paging.Resolve
import Voyager.Paging.Operations
import Voyager.Paging.Walkers
import Voyager.Interrupts.Handler
import Voyager.Interrupts.Frame
import Voyager.Time.Calendar
import Voyager.Time.Rtc
import Voyager.Console.Serial
import Voyager.Shell.Readline
import Voyager.Paging.Duplicate
import Voyager.Paging.DeepCopy
import Voyager.Paging.Populated
import Voyager.Paging.Paths
import Voyager.Paging.CopyRun
import Voyager.Access
import Voyager.Libc.Memory
import Voyager.Acpi.Tables
import Voyager.Apic.IoApic
import Voyager.Diagnostics.StackTrace
import Voyager.Lib.Decimal
import Voyager.Libc.Decimal
import Voyager.Libc.Signed
import Voyager.Console.Timestamp
import Voyager.Heap.Sequence
import Voyager.Libc.Strtok
import Voyager.Lib.Calls
import Voyager.Lib.Loops
import Voyager.Terminal.Term
import Voyager.Terminal.Recognition
import Voyager.Terminal.Sequences
import Voyager.Terminal.Safety
import Voyager.Terminal.Flush
import Voyager.Terminal.Console
import Voyager.Terminal.Typing
import Voyager.Terminal.Writes
import Voyager.Terminal.Limits
import Voyager.Printf.Format
import Voyager.Printf.Text
import Voyager.Printf.Output
import Voyager.Printf.Numbers
import Voyager.Printf.Directives
import Voyager.Printf.Panic
import Voyager.Printf.Delivery
