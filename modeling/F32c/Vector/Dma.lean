import F32c.Clocked
import Mathlib.Tactic

/-!
# The vector DMA unit

This module embeds the entity `f32c_vector_dma` (`rtl/soc/vector/f32c_vector_dma.vhd`)
with 32-bit elements.  The unit walks a linked list of segments: it reads the three words
of a header, and then moves the data of the segment between the bus and the vector unit.
Stored elements come through a small FIFO that fetches ahead of the bus, and starts to do
so while the first header is read.

The outputs `suggest_burst`, `suggest_cache` and `bram_addr` are used by nothing that the
unit is connected to, and are left out.
-/

namespace F32c
namespace Vector

abbrev Word := BitVec 32
abbrev Addr := BitVec 28

/-- Bits 29 to 2 of a pointer. -/
def wordAddr (w : Word) : Addr := w.extractLsb' 2 28

inductive DmaPhase where
  | idle
  | waitReadDataAck
  | waitWriteDataAck
deriving DecidableEq

/-- The registers, for registers of `2 ^ V` elements. -/
structure Dma (V : Nat) where
  storeMode : Bool
  ramAddr : Addr
  bramAddr : BitVec (V + 1)
  state : DmaPhase
  done : Bool
  next : Bool
  addrStrobe : Bool
  dataWrite : Bool
  header : BitVec 2 → Word
  headerMode : Bool
  lengthRemaining : BitVec V
  wdataFifo : BitVec 2 → Word
  wdataFifoReset : Bool
  indexIn : BitVec 2
  indexOut : BitVec 2
  bramRdataReady : Bool

/-- The inputs of a clock. -/
structure DmaInput where
  addr : Addr
  request : Bool
  storeMode : Bool
  bramRdata : Word
  dataReady : Bool
  dataIn : Word

/-- Places of the header words. -/
abbrev headerDataLength : BitVec 2 := 2#2
abbrev headerDataAddr : BitVec 2 := 1#2
abbrev headerNext : BitVec 2 := 0#2

variable {V : Nat}
variable (d : Dma V)
variable (i : DmaInput)

/-- `conv_std_logic_vector(C_header_max-1, C_vaddr_bits)`. -/
def headerLength : BitVec V := BitVec.ofNat V 2

/-- The end of a segment or of a header, with the safety measure of the source. -/
def Dma.atEnd : Bool := d.bramAddr.msb || d.lengthRemaining == 0#V

def Dma.needRefill : Bool := (d.indexIn - d.indexOut).ult 2#2

/-- Bit lines to the vector unit. -/
def Dma.bramWe : Bool := i.dataReady && !d.storeMode && !d.headerMode

def Dma.bramNext : Bool :=
  i.dataReady && !d.storeMode && !d.headerMode || d.needRefill && d.storeMode || d.next

def Dma.dataOut : Word := d.wdataFifo d.indexOut

def Dma.doneOut : Bool := d.done && !d.next

/-- The state `C_state_idle`. -/
def Dma.idleStep : Dma V :=
  if i.request then
    { d with
      ramAddr := i.addr
      bramAddr := 0
      storeMode := i.storeMode
      wdataFifoReset := i.storeMode
      lengthRemaining := headerLength
      headerMode := true
      done := false
      addrStrobe := true
      state := .waitReadDataAck }
  else d

/-- A jump to the next header. -/
def Dma.jumpNext : Dma V :=
  { d with
    ramAddr := wordAddr (d.header headerNext)
    lengthRemaining := headerLength
    headerMode := true }

/-- The state `C_state_wait_read_data_ack`, when the data are ready. -/
def Dma.readAck : Dma V :=
  if d.atEnd then
    if d.headerMode then
      let d' :=
        { d with
          header := Function.update d.header headerNext i.dataIn
          ramAddr := wordAddr (d.header headerDataAddr)
          lengthRemaining := (d.header headerDataLength).setWidth V
          headerMode := false }
      if d.storeMode then
        { d' with
          bramAddr := d.bramAddr + 1
          dataWrite := true
          state := .waitWriteDataAck }
      else d'
    else
      let d' := { d with bramAddr := d.bramAddr + 1 }
      if d.header headerNext = 0 then
        { d' with
          addrStrobe := false
          done := true
          headerMode := true
          next := true
          state := .idle }
      else d'.jumpNext
  else
    let d' :=
      if d.headerMode then
        { d with header := Function.update d.header (d.lengthRemaining.setWidth 2) i.dataIn }
      else { d with bramAddr := d.bramAddr + 1 }
    { d' with
      ramAddr := d.ramAddr + 1
      lengthRemaining := d.lengthRemaining - 1 }

/-- The state `C_state_wait_write_data_ack`, when the data were taken. -/
def Dma.writeAck : Dma V :=
  let d' := { d with indexOut := d.indexOut + 1 }
  if d.atEnd then
    let d' :=
      { d' with
        dataWrite := false
        headerMode := true }
    if d.header headerNext = 0 then
      { d' with
        addrStrobe := false
        storeMode := false
        done := true
        next := true
        state := .idle }
    else { d'.jumpNext with state := .waitReadDataAck }
  else
    { d' with
      ramAddr := d.ramAddr + 1
      lengthRemaining := d.lengthRemaining - 1
      bramAddr := d.bramAddr + 1 }

/-- The state machine; its registers default to their values and `R_next` to zero. -/
def Dma.control : Dma V :=
  let d := { d with next := false }
  match d.state with
  | .idle => d.idleStep i
  | .waitReadDataAck =>
    let d := { d with wdataFifoReset := false }
    if i.dataReady then d.readAck i else d
  | .waitWriteDataAck => if i.dataReady then d.writeAck else d

/-- One clock: the state machine, and the FIFO that takes what the block RAM has sent. -/
def Dma.step : Dma V :=
  let d' := d.control i
  if d.wdataFifoReset then
    { d' with
      indexIn := d.indexOut
      bramRdataReady := false }
  else if d.bramRdataReady then
    { d' with
      wdataFifo := Function.update d.wdataFifo d.indexIn i.bramRdata
      indexIn := d.indexIn + 1
      bramRdataReady := d.needRefill }
  else { d' with bramRdataReady := d.needRefill }

end Vector
end F32c
