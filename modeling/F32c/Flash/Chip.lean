import F32c.Flash.Nor

/-!
# An SPI NOR flash

The chip behind the SPI port, one byte at a time.  A transaction begins when the chip is
selected, and a command that changes something takes effect when the chip is selected
again.  The memory is busy for some number of reads of the status register after each
program and erase operation, and takes no other command meanwhile.

Programming and erasing need the write enable latch.  Page program clears bits within one
page of 256 bytes.  Parts of one manufacturer program words in the auto address increment
mode instead, which begins with an address and lasts until `WRDI`.
-/

namespace F32c
namespace Flash

open Nor

abbrev Byte := BitVec 8

section Commands

abbrev cmdPagewr : Byte := 0x02#8
abbrev cmdWrdi : Byte := 0x04#8
abbrev cmdRdsr : Byte := 0x05#8
abbrev cmdWren : Byte := 0x06#8
abbrev cmdFastrd : Byte := 0x0b#8
abbrev cmdSer : Byte := 0x20#8
abbrev cmdBer32k : Byte := 0x52#8
abbrev cmdAaiwr : Byte := 0xad#8
abbrev cmdBer64k : Byte := 0xd8#8

abbrev mfrMicrochip : Byte := 0xbf#8

end Commands

section Chip

/-- What one kind of chip does; `polls k` is how long its `k`th operation takes. -/
structure Part where
  mfgId : Byte
  ber32k : Bool
  ber64k : Bool
  polls : Nat → Nat

/-- The state of a chip, with the bytes of the transaction that is going on. -/
structure Chip where
  mem : Contents 8
  wel : Bool
  aai : Option Nat
  busy : Nat
  shift : List Byte
  ops : Nat

variable (p : Part)

def address (a2 a1 a0 : Byte) : Nat := a2.toNat * 65536 + a1.toNat * 256 + a0.toNat

/-- Page program, from an offset in the page on. -/
def programPage (m : Contents 8) (page off : Nat) : List Byte → Contents 8
  | [] => m
  | d :: ds =>
    programPage (Function.update m (page + off) (m (page + off) &&& d)) page ((off + 1) % 256) ds

/-- An operation on the memory begins. -/
def Chip.operate (c : Chip) (mem : Contents 8) : Chip :=
  { c with
    mem := mem
    busy := p.polls c.ops
    ops := c.ops + 1 }

/-- A command with an address. -/
def Chip.addressed (c : Chip) (cmd : Byte) (addr : Nat) (data : List Byte) : Chip :=
  if cmd = cmdPagewr ∧ p.mfgId ≠ mfrMicrochip then
    { c.operate p (programPage c.mem (addr / 256 * 256) (addr % 256) data) with wel := false }
  else if cmd = cmdAaiwr ∧ p.mfgId = mfrMicrochip ∧ data.length = 2 then
    { c.operate p (program c.mem addr data) with aai := some (addr + 2) }
  else if cmd = cmdSer then
    { c.operate p (erase c.mem (addr / 4096 * 4096) 4096) with wel := false }
  else if cmd = cmdBer32k ∧ p.ber32k then
    { c.operate p (erase c.mem (addr / 32768 * 32768) 32768) with wel := false }
  else if cmd = cmdBer64k ∧ p.ber64k then
    { c.operate p (erase c.mem (addr / 65536 * 65536) 65536) with wel := false }
  else c

/-- A command outside of the auto address increment mode. -/
def Chip.command (c : Chip) (cmd : Byte) : List Byte → Chip
  | [] => if cmd = cmdWren then { c with wel := true }
      else if cmd = cmdWrdi then { c with wel := false }
      else c
  | a2 :: a1 :: a0 :: data => if c.wel then c.addressed p cmd (address a2 a1 a0) data else c
  | _ => c

/-- A command in the auto address increment mode. -/
def Chip.aaiCommand (c : Chip) (addr : Nat) (cmd : Byte) (args : List Byte) : Chip :=
  if cmd = cmdWrdi then
    { c with
      wel := false
      aai := none }
  else if cmd = cmdAaiwr ∧ args.length = 2 then
    { c.operate p (program c.mem addr args) with aai := some (addr + 2) }
  else c

/-- The end of a transaction. -/
def Chip.execute (c : Chip) : Chip :=
  match c.shift with
  | [] => c
  | cmd :: args =>
    if c.busy ≠ 0 then c
    else
      match c.aai with
      | none => c.command p cmd args
      | some addr => c.aaiCommand p addr cmd args

/-- The status register. -/
def Chip.status (c : Chip) : Byte :=
  0#1 ++ BitVec.ofBool c.aai.isSome ++ 0#4 ++ BitVec.ofBool c.wel ++ BitVec.ofBool (c.busy != 0)

/-- The byte that a chip sends while it receives the next one. -/
def Chip.reply (c : Chip) : Byte :=
  match c.shift with
  | cmd :: args =>
    if cmd = cmdRdsr then c.status
    else
      match args with
      | a2 :: a1 :: a0 :: _ :: rest =>
        if cmd = cmdFastrd ∧ c.busy = 0 ∧ c.aai = none then
          c.mem ((address a2 a1 a0 + rest.length) % 2 ^ 24)
        else 0xff#8
      | _ => 0xff#8
  | [] => 0xff#8

/-- A received byte; each read of the status register brings the memory closer to the end. -/
def Chip.receive (c : Chip) (out : Byte) : Chip :=
  { c with
    shift := c.shift ++ [out]
    busy := if c.shift.head? = some cmdRdsr then c.busy - 1 else c.busy }

end Chip

section Port

variable (p : Part)

/-- `spi_start_transaction`. -/
def spiStartTransaction (c : Chip) : Chip := { c.execute p with shift := [] }

/-- `spi_byte`. -/
def spiByte (c : Chip) (out : Byte) : Byte × Chip := (c.reply, c.receive out)

/-- Calls of `spi_byte` whose results are not used, and `spi_block_out`. -/
def spiSend (c : Chip) (out : List Byte) : Chip := out.foldl Chip.receive c

/-- `spi_block_in`. -/
def spiBlockIn (c : Chip) : Nat → List Byte × Chip
  | 0 => ([], c)
  | len + 1 =>
    let (b, c) := spiByte c 0xff#8
    let (bs, c) := spiBlockIn c len
    (b :: bs, c)

end Port

end Flash
end F32c
