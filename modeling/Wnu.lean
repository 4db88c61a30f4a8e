import Wnu.Memory.Bytes
import Wnu.Memory.LittleEndian
import Wnu.Memory.Parts
import Wnu.Memory.Rounding
import Wnu.Runs.Machine
import Wnu.Runs.Loops
import Wnu.Runs.Gate
import Wnu.Runs.Visits
import Wnu.Runs.While
import Wnu.Slots.Table
import Wnu.Text.CString
import Wnu.Text.Components
import Wnu.Text.Numerals
import Wnu.Text.Padding
import Wnu.Walks.Preorder
import Wnu.Words.EndAround
import Wnu.Terminal.Grid
import Wnu.Terminal.Raster
import Wnu.Heap.Allocator
import Wnu.Lib.Memmove
import Wnu.Lib.Numbers
import Wnu.Lib.Printf
import Wnu.Console.Screen
import Wnu.Console.Pixels
import Wnu.Console.Refinement
import Wnu.Console.Glyphs
import Wnu.Console.LineInput
import Wnu.Console.LineDiscipline
import Wnu.Console.Echo
import Wnu.Vfs.Nodes
import Wnu.Vfs.Paths
import Wnu.Vfs.Operations
import Wnu.Vfs.Invariant
import Wnu.Vfs.Representation
import Wnu.Vfs.Namespace
import Wnu.Vfs.Listing
import Wnu.Vfs.Contents
import Wnu.Vfs.Tree
import Wnu.Vfs.TreeOrder
import Wnu.Fat32.Mount
import Wnu.Fat32.Stages
import Wnu.Fat32.Chain
import Wnu.Fat32.Paths
import Wnu.Fat32.Volume
import Wnu.Fat32.Files
import Wnu.Fat32.Reference
import Wnu.Fat32.Directory
import Wnu.Fat32.Confinement
import Wnu.Fat32.Bounds
import Wnu.Fat32.Import
import Wnu.Fat32.Failure
import Wnu.Fat32.Termination
import Wnu.Fat32.Attributes
import Wnu.Fat32.Rounds
import Wnu.Fat32.Delivery
import Wnu.Fat32.Sectors
import Wnu.Fat32.ShortNames
import Wnu.Net.Frames
import Wnu.Net.Gateway
import Wnu.Net.ArpGate
import Wnu.Net.Receive
import Wnu.Net.Checksum
import Wnu.Pci.Config
import Wnu.Pci.Enumeration
import Wnu.Sata.Command
import Wnu.Sata.BlockRead
import Wnu.Sata.Scan
import Wnu.Block.Devices
import Wnu.Rtl8139.Driver
import Wnu.Rtl8139.Steps
import Wnu.Rtl8139.Ring
import Wnu.Rtl8139.Position
import Wnu.Rtl8139.Transmit
import Wnu.Shell.Resolve
import Wnu.Shell.Commands
import Wnu.Shell.Effects
import Wnu.Shell.WorkingDirectory
import Wnu.Shell.Resolution
import Wnu.Shell.RoundTrip
import Wnu.Shell.Frame
import Wnu.Shell.Mounted
import Wnu.Shell.DiskFiles
import Wnu.Runs.Projection
import Wnu.Lib.Compare
import Wnu.Block.Registry
import Wnu.Block.DeviceFiles
import Wnu.Vfs.Start
import Wnu.Lib.Output
import Wnu.Sata.Listing
import Wnu.Sata.Survey
import Wnu.Sata.Init
import Wnu.Rtl8139.Network
import Wnu.Kernel.Machine
import Wnu.Kernel.Boot
import Wnu.Runs.Fair
import Wnu.Kernel.Lines
import Wnu.Kernel.Progress
import Wnu.Memory.Packed
import Wnu.Memory.Stack
import Wnu.Elf.Header
import Wnu.Arch.Descriptors
import Wnu.Arch.Stub
import Wnu.Console.Display
import Wnu.Kernel.Display
import Wnu.Kernel.Requests
import Wnu.Kernel.Firmware
import Wnu.Devices.InterruptController
import Wnu.Kernel.Interrupts
import Wnu.Runs.Links
import Wnu.Net.Host
import Wnu.Net.Conversation
