import F32c.Vector.Dma

/-!
# The vector unit

This module embeds what `vector.vhd` does for a load or a store of a vector register: the
decoder of the commands, the indexers of the register ports, the I/O functional unit and
the block RAMs.  The results of the arithmetic units are inputs of the model.  The
interrupt flags, and with them the registers that the CPU reads, are left out, as are
writes of less than a word, which are no commands.

A system is the vector unit, the DMA unit and a memory that answers the DMA unit in the
clocks in which it is granted the bus.
-/

namespace F32c
namespace Vector

variable {V : Nat}

section VectorUnit

/-- Generics: the number of address bits of the vectors, and `C_bram_pass_thru`. -/
structure Config where
  vectorsBits : Nat
  bramPassThru : Bool

/-- The functional unit for I/O. -/
abbrev functionIo : BitVec 2 := 3#2

/-- Registers of the vector unit; each of the arrays has one place for each register port. -/
structure Vec (V : Nat) where
  vaddress : Word
  ioRequest : Bool
  ioStoreMode : Bool
  wdata : Word
  addr : Nat → BitVec V
  addrStart : Nat → BitVec V
  addrStop : Nat → BitVec V
  indexReset : Nat → Bool
  write : Nat → Bool
  writeRequest : Nat → Bool
  incrementDelay : Nat → BitVec 5
  incrementDelayStart : Nat → BitVec 5
  ioFlowcontrol : Nat → Bool
  arg1 : BitVec 2 → Nat
  result : Nat → BitVec 2
  ram : Nat → BitVec V → Word
  ramOut : Nat → Word

/-- Inputs of a clock; `cpu` is a write of a word to one of the registers. -/
structure VecInput where
  cpu : Option (BitVec 3 × Word)
  bramWe : Bool
  bramNext : Bool
  bramWdata : Word
  fuResult : BitVec 2 → Word

variable (c : Config)
variable (v : Vec V)
variable (i : VecInput)

abbrev cVaddress : BitVec 3 := 0#3
abbrev cVcommand : BitVec 3 := 4#3

/-- A port number in a command. -/
def cmdPort (c : Config) (w : Word) (lsb : Nat) : Nat :=
  (w.extractLsb' lsb (c.vectorsBits + 1)).toNat

/-- Command `A` sets the range of a port. -/
def Vec.setRange (w : Word) : Vec V :=
  let result := cmdPort c w 0
  { v with
    addrStart := Function.update v.addrStart result (w.extractLsb' 4 V)
    addrStop := Function.update v.addrStop result (w.extractLsb' 16 V) }

/-- No delay: the most significant bit is set. -/
def noDelay (x : BitVec 5) : BitVec 5 := x ||| 0b10000#5

/-- Command `E` starts a functional unit. -/
def Vec.execute (w : Word) : Vec V :=
  let result := cmdPort c w 0
  let arg1 := cmdPort c w 4
  let arg2 := cmdPort c w 8
  let function : BitVec 2 := w.extractLsb' 24 2
  let store := w.getLsbD 23
  let delayStart := Function.update v.incrementDelayStart result (w.extractLsb' 12 5)
  let v :=
    if function = functionIo then
      { v with
        ioRequest := true
        ioStoreMode := store
        ioFlowcontrol := Function.update v.ioFlowcontrol result true
        indexReset := Function.update v.indexReset result true
        incrementDelayStart := delayStart }
    else
      { v with
        ioFlowcontrol := fun p =>
          if p = arg1 ∨ p = arg2 ∨ p = result then false else v.ioFlowcontrol p
        indexReset := fun p =>
          if p = arg1 ∨ p = arg2 ∨ p = result then true else v.indexReset p
        incrementDelayStart := fun p =>
          if p = arg1 ∨ p = arg2 then noDelay (delayStart p) else delayStart p }
  { v with
    arg1 := Function.update v.arg1 function arg1
    result := Function.update v.result result function
    writeRequest := Function.update v.writeRequest result !store }

/-- The command decoder; the requests last for one clock. -/
def Vec.decode : Vec V :=
  match i.cpu with
  | some (a, w) =>
    let v := if a = cVaddress then { v with vaddress := w } else v
    if a = cVcommand then
      if w.extractLsb' 28 4 = 0xa#4 then v.setRange c w
      else if w.extractLsb' 28 4 = 0xe#4 then v.execute c w
      else v
    else v
  | none =>
    { v with
      ioRequest := false
      indexReset := fun _ => false
      writeRequest := fun _ => false }

/-- The indexer of a port moves: always, or when the I/O unit says so. -/
def Vec.moves (p : Nat) : Bool := !v.ioFlowcontrol p || i.bramNext

def Vec.addrNext (p : Nat) : BitVec V :=
  if v.indexReset p then v.addrStart p
  else if v.moves i p && (v.incrementDelay p).msb && v.addr p != v.addrStop p then v.addr p + 1
  else v.addr p

def Vec.delayNext (p : Nat) : BitVec 5 :=
  if v.indexReset p then v.incrementDelayStart p
  else if v.moves i p && !(v.incrementDelay p).msb then v.incrementDelay p - 1
  else v.incrementDelay p

def Vec.writeNext (p : Nat) : Bool :=
  if v.indexReset p then v.writeRequest p
  else if v.moves i p && (v.incrementDelay p).msb && v.addr p == v.addrStop p then false
  else v.write p

/-- The result that a port listens to. -/
def Vec.dataIn (p : Nat) : Word :=
  if v.result p = functionIo then v.wdata else i.fuResult (v.result p)

/-- A write through a port. -/
def Vec.writePort (p : Nat) (m : BitVec V → Word) : BitVec V → Word :=
  if v.write p then Function.update m (v.addr p) (v.dataIn i p) else m

/-- A register after the writes through its two ports. -/
def Vec.ramNext (k : Nat) : BitVec V → Word :=
  v.writePort i (2 * k + 1) (v.writePort i (2 * k) (v.ram k))

/-- What a port sends. -/
def Vec.ramOutNext (p : Nat) : Word :=
  (if c.bramPassThru then v.ramNext i (p / 2) else v.ram (p / 2)) (v.addr p)

/-- One clock of the vector unit. -/
def Vec.step : Vec V :=
  { v.decode c i with
    wdata := if i.bramWe then i.bramWdata else v.wdata
    addr := v.addrNext i
    incrementDelay := v.delayNext i
    write := v.writeNext i
    ram := v.ramNext i
    ramOut := v.ramOutNext c i }

/-- `io_bram_rdata`, the first argument of the I/O unit. -/
def Vec.ioBramRdata : Word := v.ramOut (v.arg1 functionIo)

end VectorUnit

section System

/-- The contents of the memory. -/
abbrev Mem := Addr → Word

structure System (V : Nat) where
  vec : Vec V
  dma : Dma V
  mem : Mem

/-- Inputs of a clock; `float` is on the bus when nothing is read. -/
structure Input where
  cpu : Option (BitVec 3 × Word)
  grant : Bool
  fuResult : BitVec 2 → Word
  float : Word

variable (c : Config)
variable (y : System V)
variable (i : Input)

def System.dataReady : Bool := y.dma.addrStrobe && i.grant

def System.dataIn : Word :=
  if y.dataReady i && !y.dma.dataWrite then y.mem y.dma.ramAddr else i.float

def System.dmaInput : DmaInput where
  addr := wordAddr y.vec.vaddress
  request := y.vec.ioRequest
  storeMode := y.vec.ioStoreMode
  bramRdata := y.vec.ioBramRdata
  dataReady := y.dataReady i
  dataIn := y.dataIn i

def System.vecInput : VecInput where
  cpu := i.cpu
  bramWe := y.dma.bramWe (y.dmaInput i)
  bramNext := y.dma.bramNext (y.dmaInput i)
  bramWdata := y.dataIn i
  fuResult := i.fuResult

/-- A write that the memory takes in this clock. -/
def System.busWrite : Option (Addr × Word) :=
  if y.dataReady i && y.dma.dataWrite then some (y.dma.ramAddr, y.dma.dataOut) else none

def System.step : System V where
  vec := y.vec.step c (y.vecInput i)
  dma := y.dma.step (y.dmaInput i)
  mem :=
    match y.busWrite i with
    | some (a, w) => Function.update y.mem a w
    | none => y.mem

end System

end Vector
end F32c
