import F32c.Clocked
import F32c.Ring
import F32c.Dcache.Cache
import F32c.Dcache.System
import F32c.Dcache.Coherence
import F32c.Sdram.Controller
import F32c.Sdram.Control
import F32c.Sdram.Protocol
import F32c.Sdram.Startup
import F32c.Sdram.Response
import F32c.Sdram.Agreement
import F32c.Files.Table
import F32c.Files.Refs
import F32c.Files.Calls
import F32c.Files.Opens
import F32c.Files.Close
import F32c.Files.Pipe
import F32c.Heap.Malloc
import F32c.Heap.Tiling
import F32c.Heap.Invariant
import F32c.Heap.Sizes
import F32c.Boot.Srec
import F32c.Boot.Binboot
import F32c.Soc.Sio
import F32c.Sram.Controller
import F32c.Sram.Invariant
import F32c.Sram.Fairness
import F32c.Sram.Requests
import F32c.Core.Decode
import F32c.Core.Pipeline
import F32c.Core.Datapath
import F32c.Rv32.Isa
import F32c.Core.Rv32Exec
import F32c.Core.Rv32System
import F32c.Core.Rv32Refines
import F32c.Core.Rv32Run
import F32c.Core.Exceptions
import F32c.Flash.Nor
import F32c.Flash.Chip
import F32c.Flash.Disk
import F32c.Flash.Erase
import F32c.Flash.RoundTrip
import F32c.Vector.Dma
import F32c.Vector.Unit
import F32c.Vector.Walk
import F32c.Vector.Port
import F32c.Vector.Load
import F32c.Vector.Store
import F32c.Vector.Transfer
import F32c.Dvi.Framebuffer
import F32c.Dvi.Order
import F32c.Dvi.Unpack
import F32c.Dvi.Fetch
import F32c.Dvi.Scanout
import F32c.Dvi.Bursts
import F32c.Dvi.Frame
import F32c.Loop
import F32c.Libc.Division
import F32c.Core.Multiplier
import F32c.Fb.Draw
import F32c.Fb.Screen
import F32c.Fb.Line
import F32c.Fb.Bits
import F32c.Fb.Rectangle
import F32c.Fb.Fill
import F32c.Fb.Flood
import F32c.Fb.Bounds
import F32c.Fb.Safety
import F32c.Fb.Circle
import F32c.Fb.Sprite
import F32c.Fb.Registry
import F32c.Fb.Blit
import F32c.Fb.Image
import F32c.Libc.Printf
import F32c.Libc.Format
import F32c.Libc.Sprintf
import F32c.Serial.Driver
import F32c.Serial.Write
import F32c.Serial.Read
import F32c.Serial.Spi
import F32c.Libc.Strcmp
import F32c.Time.Calendar
import F32c.Time.Fat
import F32c.Boot.FatLoader
import F32c.Dcache.StoreBuffer
import F32c.Core.Issue
import F32c.Core.Shift
import F32c.Core.Lanes
import F32c.Core.Multicycle
import F32c.Debug.Unit
import F32c.Debug.Commands
import F32c.Debug.Framing
import F32c.Lehmer
import F32c.Libc.Random
import F32c.Soc.Receive
import F32c.Soc.Timer
import F32c.Time.Rtc
import F32c.Time.Clock
import F32c.Sdram.Refresh
import F32c.Vector.Tour
import F32c.Vector.AnySize
import F32c.Icache.Fetch
import F32c.Fp.Format
import F32c.Fp.Round
import F32c.Fp.Lib
import F32c.Fp.Mul
import F32c.Fp.Add
import F32c.Fp.Div
import F32c.Fp.Compare
import F32c.Fp.Convert
import F32c.Fp.Extend
import F32c.Fp.Truncate
