import F32c.Clocked
import Mathlib.Tactic

/-!
# The SRAM controller

This module embeds the entity `sram` (`rtl/soc/sram.vhd`) with `C_pipelined_read` false,
and an idealised asynchronous SRAM of 16 bits behind its pins: a read is combinational in
the address, and a write takes effect when `sram_wel` returns to one, with the address,
the lanes and the data of the clock before.  A value that nobody drives is an input of
the model.

The upper bits of `R_snoop_addr` are assigned nowhere in the source and are left out.
-/

namespace F32c
namespace Sram

section Entity

variable {n : Nat}

/-- Generics of `sram` with `n` ports; `none` stands for a `C_prio_port` of -1. -/
structure Config (n : Nat) where
  prioPort : Option (Fin n)
  waitCycles : Nat

/-- A request record (`sram_port_type`). -/
structure Req where
  addr : BitVec 28
  dataIn : BitVec 32
  byteSel : BitVec 4
  addrStrobe : Bool
  write : Bool

/-- The address of a word within the SRAM, bits 19 to 2. -/
def Req.word (q : Req) : BitVec 18 := q.addr.extractLsb 17 0

/-- A write that selects no byte of the lower half. -/
def Req.upperOnly (q : Req) : Bool := q.write && q.byteSel.extractLsb 1 0 == 0b00#2

/-- The registers; `none` on the data pins stands for `'Z'`. -/
structure State (n : Nat) where
  a : BitVec 19
  d : Option (BitVec 16)
  wel : Bool
  lbl : Bool
  ubl : Bool
  writeCycle : Bool
  byteSelHi : BitVec 2
  outWord : BitVec 32
  busOut : BitVec 32
  phase : Nat
  curPort : Fin n
  nextPort : Fin n
  lastPort : Fin n
  prioPending : Bool
  ackBitmap : Fin n → Bool
  snoopCycle : Bool
  snoopAddr : BitVec 18

variable (c : Config n)
variable (s : State n)
variable (bus : Fin n → Req)

def Config.readUpperHalf : Nat := c.waitCycles - 1
def Config.readTerminate : Nat := c.waitCycles * 2 - 1
def Config.writeUpperHalf : Nat := c.waitCycles
def Config.writeTerminate : Nat := c.waitCycles * 2 - 1

/-- The port `j` places behind `p`. -/
def portAfter (p : Fin n) (j : Nat) : Fin n :=
  ⟨(p + j) % n, Nat.mod_lt _ (by have := p.isLt; omega)⟩

/-- A port that takes part in the round-robin selection. -/
def candidate (p : Fin n) : Bool := (bus p).addrStrobe && some p != c.prioPort

/-- Round-robin port selection, beginning behind the last port. -/
def roundRobin : Fin n :=
  match (List.range n).find? fun j => candidate c bus (portAfter s.lastPort (j + 1)) with
  | some j => portAfter s.lastPort (j + 1)
  | none => s.lastPort

/-- `next_port`. -/
def nextPort : Fin n :=
  if s.prioPending then c.prioPort.getD s.lastPort else roundRobin c s bus

def prioPendingNext : Bool :=
  match c.prioPort with
  | some p => (s.curPort != p || s.phase == 0) && (bus p).addrStrobe
  | none => false

/-- A new transaction of the port `R_next_port`; a write is acknowledged at once. -/
def startTransaction (r : State n) : State n :=
  let q := bus s.nextPort
  let r :=
    { r with
      curPort := s.nextPort
      phase := if q.upperOnly then c.writeUpperHalf else 1
      byteSelHi := q.byteSel.extractLsb 3 2
      a := q.word ++ BitVec.ofBool q.upperOnly }
  if q.write then
    { r with
      writeCycle := true
      wel := false
      outWord := q.dataIn
      ubl := !q.byteSel.getLsbD (if q.upperOnly then 3 else 1)
      lbl := !q.byteSel.getLsbD (if q.upperOnly then 2 else 0)
      ackBitmap := Function.update r.ackBitmap s.nextPort true
      snoopAddr := q.word
      snoopCycle := true }
  else r

/-- What every clock does, before the state machine. -/
def defaults (sramD : BitVec 16) : State n :=
  { s with
    busOut :=
      sramD ++ (if s.phase = c.readUpperHalf then sramD else s.busOut.extractLsb 15 0)
    ackBitmap := fun _ => false
    snoopCycle := false
    prioPending := prioPendingNext c s bus
    lastPort := if s.phase == 1 && some s.curPort != c.prioPort then s.curPort else s.lastPort
    nextPort := nextPort c s bus }

/-- The physical signals at the end of a 16 bit write. -/
def terminateWrite (r : State n) : State n :=
  { r with
    wel := true
    ubl := true
    lbl := true
    d := none }

/-- `R_a(0) <= '1'`. -/
def bumpAddr (a : BitVec 19) : BitVec 19 := a.extractLsb 18 1 ++ 1#1

/-- The phase `C_phase_idle`. -/
def idleStep (r : State n) : State n :=
  let r := { r with writeCycle := false, wel := true, ubl := false, lbl := false, d := none }
  if s.ackBitmap s.nextPort || !(bus s.nextPort).addrStrobe then { r with ubl := true, lbl := true }
  else startTransaction c s bus r

/-- The phases of a read. -/
def readStep (r : State n) : State n :=
  if s.phase = c.readUpperHalf then { r with phase := s.phase + 1, a := bumpAddr s.a }
  else if s.phase = c.readTerminate then
    let r := { r with ackBitmap := Function.update r.ackBitmap s.curPort true }
    if s.curPort ≠ s.nextPort ∧ (bus s.nextPort).addrStrobe then startTransaction c s bus r
    else { r with phase := 0, ubl := true, lbl := true }
  else { r with phase := s.phase + 1 }

/-- The phases of a write. -/
def writeStep (r : State n) : State n :=
  if s.phase = 1 then { r with phase := s.phase + 1, d := some (s.outWord.extractLsb 15 0) }
  else if s.phase = c.writeUpperHalf - 1 then
    terminateWrite { r with phase := if s.byteSelHi ≠ 0b00#2 then s.phase + 1 else 0 }
  else if s.phase = c.writeUpperHalf then
    { r with
      phase := s.phase + 1
      a := bumpAddr s.a
      ubl := !s.byteSelHi.getLsbD 1
      lbl := !s.byteSelHi.getLsbD 0
      wel := false }
  else if s.phase = c.writeUpperHalf + 1 then
    { r with phase := s.phase + 1, d := some (s.outWord.extractLsb 31 16) }
  else if s.phase = c.writeTerminate then terminateWrite { r with phase := 0 }
  else { r with phase := s.phase + 1 }

/-- One clock of the controller. -/
def step (sramD : BitVec 16) : State n :=
  let r := defaults c s bus sramD
  if s.phase = 0 then idleStep c s bus r
  else if s.writeCycle then writeStep c s r
  else readStep c s bus r

end Entity

section Chip

variable {n : Nat}

/-- Contents of the SRAM. -/
abbrev Mem := BitVec 19 → BitVec 16

/-- A half word with some of its bytes replaced. -/
def mergeHalf (old new : BitVec 16) (ub lb : Bool) : BitVec 16 :=
  (if ub then new.extractLsb 15 8 else old.extractLsb 15 8) ++
    (if lb then new.extractLsb 7 0 else old.extractLsb 7 0)

/-- The value on the data pins. -/
def sramD (s : State n) (mem : Mem) (float : BitVec 16) : BitVec 16 :=
  match s.d with
  | some d => d
  | none => if s.wel then mergeHalf float (mem s.a) (!s.ubl) (!s.lbl) else float

/-- The contents after a clock that takes the pins from `s` to `s'`. -/
def chipNext (s s' : State n) (mem : Mem) (float : BitVec 16) : Mem :=
  if !s.wel && s'.wel then
    Function.update mem s.a (mergeHalf (mem s.a) (s.d.getD float) (!s.ubl) (!s.lbl))
  else mem

structure Input (n : Nat) where
  bus : Fin n → Req
  float : BitVec 16

/-- The controller and the chip. -/
structure System (n : Nat) where
  ctl : State n
  mem : Mem

def System.step (c : Config n) (y : System n) (i : Input n) : System n :=
  let ctl := Sram.step c y.ctl i.bus (sramD y.ctl y.mem i.float)
  ⟨ctl, chipNext y.ctl ctl y.mem i.float⟩

end Chip

section Spec

variable {n : Nat}

/-- A memory of words, as the ports see it. -/
abbrev Words := BitVec 18 → BitVec 32

/-- A word with the selected bytes replaced. -/
def mergeWord (old new : BitVec 32) (sel : BitVec 4) : BitVec 32 :=
  mergeHalf (old.extractLsb 31 16) (new.extractLsb 31 16) (sel.getLsbD 3) (sel.getLsbD 2) ++
    mergeHalf (old.extractLsb 15 0) (new.extractLsb 15 0) (sel.getLsbD 1) (sel.getLsbD 0)

/-- A write request changes the selected bytes of its word. -/
def writeWord (w : Words) (q : Req) : Words :=
  Function.update w q.word (mergeWord (w q.word) q.dataIn q.byteSel)

/-- The words that the SRAM holds. -/
def words (mem : Mem) : Words := fun a => mem (a ++ 1#1) ++ mem (a ++ 0#1)

/-- The writes that are acknowledged in a clock, applied to a memory of words. -/
def acceptWrites (w : Words) (s : State n) (bus : Fin n → Req) : Words :=
  (List.finRange n).foldl
    (fun w p => if s.ackBitmap p && (bus p).write then writeWord w (bus p) else w) w

variable (c : Config n) (y : System n) (inp : Nat → Input n)

/-- The system after `t` clocks. -/
def systemAt (t : Nat) : System n := Clocked.stateAt (System.step c) y inp t

/-- All writes that were acknowledged before clock `t`, applied in order. -/
def accepted : Nat → Words
  | 0 => words y.mem
  | t + 1 => acceptWrites (accepted t) (systemAt c y inp t).ctl (inp t).bus

/-- `ready_out`. -/
def ready (t : Nat) (p : Fin n) : Bool := (systemAt c y inp t).ctl.ackBitmap p

/-- Each port holds its request until it is acknowledged. -/
def HoldsRequests : Prop :=
  ∀ t p, ((inp t).bus p).addrStrobe = true → ready c y inp t p = false →
    (inp (t + 1)).bus p = (inp t).bus p

/-- The controller waits for a request and has acknowledged nothing. -/
structure Idle (s : State n) : Prop where
  phase : s.phase = 0
  wel : s.wel = true
  ackBitmap : ∀ p, s.ackBitmap p = false
  snoopCycle : s.snoopCycle = false

end Spec

end Sram
end F32c
