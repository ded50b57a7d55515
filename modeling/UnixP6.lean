import UnixP6.CSemantics.Loop
import UnixP6.CSemantics.Memory
import UnixP6.CSemantics.Links
import UnixP6.CSemantics.Run
import UnixP6.CSemantics.Collapse
import UnixP6.CSemantics.Bits
import UnixP6.CSemantics.Bytes
import UnixP6.CSemantics.Walk
import UnixP6.CSemantics.Compare
import UnixP6.CSemantics.Strings
import UnixP6.CSemantics.Stack
import UnixP6.CSemantics.Update
import UnixP6.CSemantics.BitFields
import UnixP6.CSemantics.Arrays
import UnixP6.CSemantics.Ownership
import UnixP6.CSemantics.Priority
import UnixP6.Core.Tools
import UnixP6.Core.Vbe
import UnixP6.Core.Heap
import UnixP6.Core.Frames
import UnixP6.Core.Boot
import UnixP6.Core.Bitmaps
import UnixP6.Core.Tar
import UnixP6.Core.Console
import UnixP6.Core.Multiboot
import UnixP6.Core.Numbers
import UnixP6.Core.Format
import UnixP6.Core.Copy
import UnixP6.Core.IntHandlers
import UnixP6.Core.Descriptors
import UnixP6.Core.Irq
import UnixP6.Core.Handling
import UnixP6.Core.Masking
import UnixP6.Theory.Tools.Strings
import UnixP6.Theory.Tools.Words
import UnixP6.Theory.Tools.Reverse
import UnixP6.Theory.Tools.Numbers
import UnixP6.Theory.Tools.Pieces
import UnixP6.Theory.Tools.Format
import UnixP6.Theory.Tools.Copy
import UnixP6.Theory.Tools.Dwords
import UnixP6.Theory.Tools.Invert
import UnixP6.Theory.Heap.Blocks
import UnixP6.Theory.Heap.Chain
import UnixP6.Theory.Heap.Alloc
import UnixP6.Theory.Heap.Session
import UnixP6.Theory.Heap.Release
import UnixP6.Theory.Heap.Restore
import UnixP6.Theory.Heap.FirstFit
import UnixP6.Theory.Heap.Aligned
import UnixP6.Theory.Frames.Scan
import UnixP6.Theory.Frames.Search
import UnixP6.Theory.Frames.Used
import UnixP6.Theory.Frames.FirstFit
import UnixP6.Theory.Frames.Session
import UnixP6.Theory.Frames.Hint
import UnixP6.Theory.Frames.Inside
import UnixP6.Theory.Frames.Index
import UnixP6.Theory.Boot.Calc
import UnixP6.Theory.Boot.Chain
import UnixP6.Theory.Boot.Image
import UnixP6.Theory.Boot.Cuts
import UnixP6.Theory.Boot.Partition
import UnixP6.Theory.Boot.Region
import UnixP6.Theory.Manager.Bitmaps
import UnixP6.Theory.Manager.Pool
import UnixP6.Theory.Manager.Calls
import UnixP6.Theory.Manager.Sharing
import UnixP6.Theory.Manager.Runs
import UnixP6.Theory.Manager.Start
import UnixP6.Theory.Multiboot.Tags
import UnixP6.Theory.Multiboot.Walk
import UnixP6.Theory.Multiboot.Modules
import UnixP6.Theory.Fs.Tar
import UnixP6.Theory.Fs.Bounds
import UnixP6.Theory.Fs.Progress
import UnixP6.Theory.Console.Canvas
import UnixP6.Theory.Console.Cursor
import UnixP6.Theory.Vbe.Picture
import UnixP6.Theory.Vbe.Screen
import UnixP6.Theory.Console.Session
import UnixP6.Theory.Interrupts.Frame
import UnixP6.Theory.Interrupts.Descriptors
import UnixP6.Theory.Interrupts.Masks
import UnixP6.Theory.Interrupts.Updates
import UnixP6.Theory.Interrupts.Delivery
import UnixP6.Theory.Interrupts.Service
import UnixP6.Theory.Interrupts.Handlers
import UnixP6.Theory.Interrupts.Waiting
import UnixP6.Theory.Serial.Line
import UnixP6.Theory.Serial.Progress
import UnixP6.Theory.Kernel.Steps
import UnixP6.Theory.Kernel.Start
import UnixP6.Theory.Kernel.Ramdisk
import UnixP6.Theory.Kernel.Exceptions
