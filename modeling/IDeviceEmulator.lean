import IDeviceEmulator.TcpUsb.Framing
import IDeviceEmulator.TcpUsb.Passthrough
import IDeviceEmulator.Pl192.Fiq
import IDeviceEmulator.Pl192.Masking
import IDeviceEmulator.Pl192.VectorChoice
import IDeviceEmulator.Pl192.Nesting
import IDeviceEmulator.Pl192.Bounds
import IDeviceEmulator.Pl192.Snapshot
import IDeviceEmulator.Cdma.Scatter
import IDeviceEmulator.Cdma.Termination
import IDeviceEmulator.H2fmi.Buffer
import IDeviceEmulator.H2fmi.Fifo
import IDeviceEmulator.Nor.Flash
import IDeviceEmulator.Nor.Spi
import IDeviceEmulator.Cdma.Interrupts
import IDeviceEmulator.Cdma.Bounds
import IDeviceEmulator.Cdma.Aes
import IDeviceEmulator.Nor.Cfi02
import IDeviceEmulator.Synopsys.Device
import IDeviceEmulator.Synopsys.Irq
import IDeviceEmulator.Synopsys.Peer
import IDeviceEmulator.TcpUsb.Response
import IDeviceEmulator.Timer.Device
import IDeviceEmulator.Timer.Ticks
import IDeviceEmulator.Library.Circular
import IDeviceEmulator.Timer.Liveness
import IDeviceEmulator.Uart.Device
import IDeviceEmulator.Uart.Queue
import IDeviceEmulator.I2c.Bus
import IDeviceEmulator.I2c.Controller
import IDeviceEmulator.I2c.Snapshot
import IDeviceEmulator.I2c.Smbus
import IDeviceEmulator.Skin.Draw
import IDeviceEmulator.Library.Text
import IDeviceEmulator.Skin.Mouse
import IDeviceEmulator.Skin.Zoom
import IDeviceEmulator.Aes.Engine
import IDeviceEmulator.Aes.Programming
import IDeviceEmulator.Aes.Isolation
import IDeviceEmulator.Arm.Banked
import IDeviceEmulator.Library.History
import IDeviceEmulator.Library.Masks
import IDeviceEmulator.Arm.Cpu
import IDeviceEmulator.Arm.Cpsr
import IDeviceEmulator.Arm.Exceptions
import IDeviceEmulator.Arm.Fpscr
import IDeviceEmulator.Arm.Mmu
import IDeviceEmulator.Arm.Snapshot
import IDeviceEmulator.Skin.Rotation
import IDeviceEmulator.Qcow2.Cache
import IDeviceEmulator.Qcow2.Flush
import IDeviceEmulator.Qcow2.Transparency
import IDeviceEmulator.Library.Hoare
import IDeviceEmulator.Qcow2.Cluster
import IDeviceEmulator.Library.Sums
import IDeviceEmulator.Qcow2.Ledger
import IDeviceEmulator.Qcow2.Tables
import IDeviceEmulator.Qcow2.Writes
import IDeviceEmulator.Qcow2.Overlap
import IDeviceEmulator.Qcow2.InFlight
import IDeviceEmulator.Qcow2.Contents
import IDeviceEmulator.Qcow2.Mapping
import IDeviceEmulator.Qcow2.Lookup
import IDeviceEmulator.Qcow2.Counts
import IDeviceEmulator.Qcow2.Ranges
import IDeviceEmulator.Clock.Queue
import IDeviceEmulator.Clock.Ticks
import IDeviceEmulator.Qobject.Qdict
import IDeviceEmulator.Exec.Tlb
import IDeviceEmulator.Qcow2.Barrier
import IDeviceEmulator.Qcow2.Ordering
import IDeviceEmulator.Library.Intrusive
import IDeviceEmulator.Exec.Blocks
import IDeviceEmulator.Exec.CodeBitmap
import IDeviceEmulator.Exec.Bookkeeping
import IDeviceEmulator.Exec.Invalidation
import IDeviceEmulator.Exec.Runs
import IDeviceEmulator.Json.Lexer
import IDeviceEmulator.Json.Streamer
import IDeviceEmulator.Qobject.Object
import IDeviceEmulator.Json.Parser
import IDeviceEmulator.Json.Safety
import IDeviceEmulator.Json.Lexing
import IDeviceEmulator.Json.Printer
import IDeviceEmulator.Json.Strings
import IDeviceEmulator.Json.Numbers
import IDeviceEmulator.Json.Trees
import IDeviceEmulator.Json.RoundTrip
import IDeviceEmulator.Json.Sizes
import IDeviceEmulator.Net.Queue
import IDeviceEmulator.SaveVm.File
import IDeviceEmulator.SaveVm.Stream
import IDeviceEmulator.Opts.Parse
import IDeviceEmulator.Opts.Codec
import IDeviceEmulator.Block.Completion
import IDeviceEmulator.Virtio.Queue
import IDeviceEmulator.Virtio.Available
import IDeviceEmulator.Block.Dirty
import IDeviceEmulator.SaveVm.Vmstate
import IDeviceEmulator.SaveVm.RoundTrip
import IDeviceEmulator.Exec.PhysMap
import IDeviceEmulator.Exec.PhysRouting
import IDeviceEmulator.Exec.PhysRegister
import IDeviceEmulator.Exec.PhysRuns
import IDeviceEmulator.Block.Pread
import IDeviceEmulator.H2fmi.PageRead
import IDeviceEmulator.H2fmi.Chips
import IDeviceEmulator.Nor.EraseWindow
import IDeviceEmulator.Nor.SpiLevel
import IDeviceEmulator.Nor.SpiSafety
import IDeviceEmulator.Synopsys.Transfer
import IDeviceEmulator.Synopsys.Registers
import IDeviceEmulator.Json.Exact
import IDeviceEmulator.TcpUsb.Slot
import IDeviceEmulator.Timer.Interval
import IDeviceEmulator.Skin.Clip
import IDeviceEmulator.Skin.Buffer
import IDeviceEmulator.Uart.DataReady
import IDeviceEmulator.I2c.Bracket
import IDeviceEmulator.Timer.Schedule
import IDeviceEmulator.Skin.Button
import IDeviceEmulator.Skin.Switch
import IDeviceEmulator.Sha1.Engine
import IDeviceEmulator.Tcg.Liveness
import IDeviceEmulator.Library.Dataflow
import IDeviceEmulator.Tcg.Analysis
import IDeviceEmulator.Tcg.Rewriting
import IDeviceEmulator.Tcg.Execution
import IDeviceEmulator.Tcg.Deadness
import IDeviceEmulator.Tcg.Preservation
import IDeviceEmulator.Library.Leases
import IDeviceEmulator.Qcow2.Handles
import IDeviceEmulator.Qcow2.Calls
import IDeviceEmulator.Qcow2.Holding
import IDeviceEmulator.Qcow2.Returns
import IDeviceEmulator.Qcow2.Balance
import IDeviceEmulator.Arm.Cp15
import IDeviceEmulator.Arm.Walk
import IDeviceEmulator.Arm.Packed
import IDeviceEmulator.Arm.Parallel
import IDeviceEmulator.Arm.Shifts
import IDeviceEmulator.Arm.Zip
import IDeviceEmulator.Arm.Flags
import IDeviceEmulator.Qcow2.Growth
import IDeviceEmulator.Block.Pwrite
import IDeviceEmulator.Qcow2.Snapshots
import IDeviceEmulator.Json.Quotes
import IDeviceEmulator.Library.Division
import IDeviceEmulator.Timer.Ptimer
import IDeviceEmulator.Timer.Countdown
import IDeviceEmulator.Block.Vectors
import IDeviceEmulator.H2fmi.Bounds
import IDeviceEmulator.Opts.Registry
import IDeviceEmulator.Opts.Dictionary
