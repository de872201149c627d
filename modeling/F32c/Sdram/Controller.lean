import F32c.Clocked
import Mathlib.Tactic

/-!
# The multiport SDRAM controller

This module embeds `sdram_controller` of `rtl/soc/sdram_mz.vhd`.

The single clocked process of the source makes four groups of assignments in
textual order, and a later assignment to a signal overrides an earlier one:

* the default assignments (no command, the response shift registers advance);
* the capture of a new request when `accepting_new` holds;
* the state machine;
* the synchronous reset.

Every group is one function.  It reads the registers before the clock edge and
overwrites the registers scheduled by the groups before it.

The pins of the chip are the `iob` registers, so the command the chip samples
is the one scheduled by the previous clock.
-/

namespace F32c
namespace Sdram

/-- Generics of the controller, with the ranges the entity declares. -/
structure Config where
  ports : Nat
  ras : Nat
  cas : Nat
  pre : Nat
  clockRange : Nat
  addressWidth : Nat
  columnBits : Nat
  startupCycles : Nat
  cyclesPerRefresh : Nat
  ports_pos : 0 < ports
  ras_range : ras = 2 ∨ ras = 3
  cas_range : cas = 2 ∨ cas = 3
  pre_range : pre = 2 ∨ pre = 3
  clockRange_range : clockRange ≤ 2
  columnBits_range : 2 ≤ columnBits ∧ columnBits ≤ 12
  addressWidth_range :
    columnBits + 3 ≤ addressWidth ∧ addressWidth ≤ columnBits + 15 ∧
      addressWidth ≤ 31

namespace Config

variable (c : Config)

/-- Index of the highest bit of the response shift registers. -/
def delayHigh : Nat := c.clockRange / 2 + c.cas

def startOfBank : Nat := c.columnBits - 1

def startOfRow : Nat := c.columnBits + 1

/-- Number of address bits above the bank. -/
def rowBits : Nat := c.addressWidth - 2 - c.columnBits

end Config

/-- The commands the controller drives on CS, RAS, CAS and WE. -/
inductive Command where
  | nop
  | active
  | read
  | write
  | precharge
  | refresh
  | loadModeReg
deriving DecidableEq, Repr

inductive FsmState where
  | startup
  | idleIn6 | idleIn5 | idleIn4 | idleIn3 | idleIn2 | idleIn1
  | idle
  | openIn2 | openIn1
  | write1 | write2 | write3
  | read1 | read2 | read3 | read4
  | precharge
deriving DecidableEq, Repr

/-- A request record (`sdram_req_type`). -/
structure Req where
  addr : BitVec 30
  dataIn : BitVec 32
  byteSel : BitVec 4
  burstLen : BitVec 8
  write : Bool
  strobe : Bool
deriving DecidableEq, Repr

/-- Inputs sampled by one clock edge. -/
structure Input where
  req : Nat → Req
  reset : Bool

/-- Registers of the controller. -/
structure State where
  state : FsmState
  startupRefreshCount : BitVec 14
  iobCommand : Command
  iobAddress : BitVec 13
  iobBank : BitVec 2
  iobData : BitVec 16
  iobDataNext : BitVec 16
  iobDqm : BitVec 2
  iobCke : Bool
  iobDqHiz : Bool
  dqmSr : BitVec 4
  saveWr : Bool
  saveRow : BitVec 13
  saveBank : BitVec 2
  saveCol : BitVec 13
  saveDataIn : BitVec 32
  saveByteEnable : BitVec 4
  saveBurstLen : BitVec 8
  readyForNew : Bool
  canBackToBack : Bool
  readDone : Bool
  /-- `R_data_ready_delay`, lowest bit first. -/
  dataReadyDelay : List Bool
  /-- `R_data_last_delay`, lowest bit first. -/
  dataLastDelay : List Bool
  readyOut : Nat → Bool
  lastOut : Nat → Bool
  curPort : Nat
  nextPort : Nat

section Combinational

variable (c : Config)

def addrRow (a : BitVec 30) : BitVec 13 :=
  (a.extractLsb' c.startOfRow c.rowBits).setWidth 13

def addrBank (a : BitVec 30) : BitVec 2 :=
  a.extractLsb' c.startOfBank 2

def addrCol (a : BitVec 30) : BitVec 13 :=
  (a.extractLsb' 0 (c.columnBits - 1) ++ (0#1)).setWidth 13

/-- `to_unsigned(C_startup_cycles, 14)` below the largest counter value. -/
def startupCount : BitVec 14 :=
  BitVec.allOnes 14 - BitVec.ofNat 14 c.startupCycles

def pendingRefresh (s : State) : Bool :=
  s.startupRefreshCount.getLsbD 11

def forcingRefresh (s : State) : Bool :=
  s.startupRefreshCount.getLsbD 12

/-- The request selected by the inbound multiport mux. -/
def curReq (s : State) (i : Input) : Req :=
  i.req s.nextPort

/-- Round-robin port selection: the first strobing port after the current one. -/
def arbiter (s : State) (i : Input) : Nat :=
  (((List.range c.ports).map (fun k => (s.curPort + (k + 1)) % c.ports)).find?
    (fun n => (i.req n).strobe)).getD s.curPort

def acceptingNew (s : State) (i : Input) : Bool :=
  s.readyForNew && (curReq s i).strobe && s.readDone && !s.readyOut s.nextPort

/-- Shift a response register one position down; the bit entering at the top. -/
def shiftDown (d : List Bool) (b : Bool) : List Bool :=
  d.tail ++ [b]

/-- The low three bits read `"001"`. -/
def lastInSight (s : State) : Bool :=
  s.dataLastDelay.take 3 == [true, false, false]

/-- The row and bank held for the current transaction are those of `a`. -/
def sameRow (s : State) (a : BitVec 30) : Bool :=
  s.saveBank == addrBank c a && s.saveRow == addrRow c a

/-- The column about to be read is the last one of its row. -/
def lastColumn (s : State) : Bool :=
  s.saveCol.extractLsb' 1 (c.columnBits - 1) == BitVec.allOnes (c.columnBits - 1)

end Combinational

section Clock

variable (c : Config)

/-- Default assignments of the clocked process. -/
def defaults (s : State) (i : Input) : State :=
  { s with
    nextPort := arbiter c s i
    iobCommand := .nop
    iobAddress := 0
    iobBank := 0
    startupRefreshCount := s.startupRefreshCount + 1
    readDone := if lastInSight s then s.saveBurstLen == 0 else s.readDone
    dataReadyDelay := shiftDown s.dataReadyDelay false
    dataLastDelay := shiftDown s.dataLastDelay false
    iobDqm := s.dqmSr.extractLsb' 0 2
    dqmSr := 0b11#2 ++ s.dqmSr.extractLsb' 2 2
    readyOut := fun p => p == s.curPort && s.dataReadyDelay.headD false
    lastOut := fun p => p == s.curPort && s.dataLastDelay.headD false }

/-- Capture of the request presented by the selected port. -/
def capture (s : State) (i : Input) (t : State) : State :=
  if acceptingNew s i then
    let r := curReq s i
    { t with
      curPort := s.nextPort
      canBackToBack := sameRow c s r.addr
      saveRow := addrRow c r.addr
      saveBank := addrBank c r.addr
      saveCol := addrCol c r.addr
      saveWr := r.write
      saveDataIn := r.dataIn
      saveByteEnable := r.byteSel
      saveBurstLen := if r.write then t.saveBurstLen else r.burstLen
      readyForNew := false
      readyOut := if r.write then Function.update t.readyOut s.nextPort true else t.readyOut
      lastOut := if r.write then Function.update t.lastOut s.nextPort true else t.lastOut
      readDone := if r.write then t.readDone else false }
  else t

/-- Set the top bit of a response register. -/
def setHigh (d : List Bool) : List Bool :=
  d.dropLast ++ [true]

/-- A10 of the address pins: auto precharge, or all banks for PRECHARGE. -/
def setA10 (a : BitVec 13) (b : Bool) : BitVec 13 :=
  if b then a ||| BitVec.twoPow 13 10 else a &&& ~~~(BitVec.twoPow 13 10)

def modeReg : BitVec 13 :=
  if c.cas = 2 then 0b0000000100001#13 else 0b0000000110001#13

def fsmStartup (s : State) (t : State) : State :=
  let t := { t with iobCke := true }
  let n := s.startupRefreshCount
  let t :=
    if n = BitVec.allOnes 14 - 31 then
      { t with iobCommand := .precharge, iobAddress := setA10 t.iobAddress true, iobBank := 0 }
    else if n = BitVec.allOnes 14 - 23 then { t with iobCommand := .refresh }
    else if n = BitVec.allOnes 14 - 15 then { t with iobCommand := .refresh }
    else if n = BitVec.allOnes 14 - 7 then
      { t with iobCommand := .loadModeReg, iobAddress := modeReg c }
    else t
  if n = 0 then
    { t with
      state := .idle
      readyForNew := true
      saveBurstLen := 0
      readDone := true
      startupRefreshCount := BitVec.ofInt 14 (2048 - (c.cyclesPerRefresh : Int) + 1) }
  else t

def fsmIdle (s : State) (i : Input) (t : State) : State :=
  if pendingRefresh s || forcingRefresh s then
    { t with
      state := .idleIn6
      iobCommand := .refresh
      startupRefreshCount :=
        s.startupRefreshCount - BitVec.ofNat 14 c.cyclesPerRefresh + 1 }
  else if acceptingNew s i || !s.readyForNew then
    { t with
      state := if c.ras = 2 then .openIn1 else .openIn2
      iobCommand := .active
      iobAddress := if acceptingNew s i then addrRow c (curReq s i).addr else s.saveRow
      iobBank := if acceptingNew s i then addrBank c (curReq s i).addr else s.saveBank }
  else t

def fsmOpenIn1 (s : State) (t : State) : State :=
  let t :=
    if s.saveWr then
      { t with
        state := .write1
        iobDqHiz := false
        iobData := s.saveDataIn.extractLsb' 0 16 }
    else { t with iobDqHiz := true, state := .read1 }
  if s.saveWr || s.saveBurstLen == 0 then { t with readyForNew := true } else t

def fsmRead1 (s : State) (t : State) : State :=
  { t with
    state := .read2
    iobCommand := .read
    iobAddress := setA10 s.saveCol false
    iobBank := s.saveBank
    dataReadyDelay := setHigh t.dataReadyDelay
    dataLastDelay :=
      if s.saveBurstLen == 0 then setHigh t.dataLastDelay else t.dataLastDelay
    iobDqm := 0
    dqmSr := t.dqmSr.extractLsb' 2 2 ++ 0b00#2 }

def fsmRead2 (s : State) (t : State) : State :=
  let t :=
    if s.saveBurstLen ≠ 0 then
      let t :=
        { t with
          state := .read1
          saveBurstLen := s.saveBurstLen - 1
          saveCol := (s.saveCol + 2) &&& ~~~(BitVec.twoPow 13 c.columnBits) }
      -- the burst leaves the row: close it and reopen at the next bank or row
      if lastColumn c s then
        { t with
          state := .read3
          canBackToBack := false
          saveBank := s.saveBank + 1
          saveRow := if s.saveBank = 3 then s.saveRow + 1 else t.saveRow }
      else if s.saveBurstLen = 1 then { t with readyForNew := true }
      else t
    else { t with state := .read3 }
  if c.cas = 3 then { t with dqmSr := t.dqmSr.extractLsb' 2 2 ++ 0b00#2 } else t

def fsmRead3 (s : State) (i : Input) (t : State) : State :=
  let r := curReq s i
  if forcingRefresh s || (acceptingNew s i && !sameRow c s r.addr) || !s.canBackToBack then
    { t with state := if c.cas = 2 then .precharge else .read4 }
  else if acceptingNew s i then
    if r.write then
      { t with
        state := .write1
        iobDqHiz := false
        iobData := r.dataIn.extractLsb' 0 16
        readyForNew := true }
    else
      { t with
        state := .read1
        readyForNew := if r.burstLen == 0 then true else t.readyForNew }
  else if !s.readyForNew then
    if s.saveWr then
      { t with
        state := .write1
        iobDqHiz := false
        iobData := s.saveDataIn.extractLsb' 0 16
        readyForNew := true }
    else
      { t with
        state := .read1
        readyForNew := if s.saveBurstLen == 0 then true else t.readyForNew }
  else t

def fsmWrite1 (s : State) (t : State) : State :=
  { t with
    state := .write2
    iobCommand := .write
    iobAddress := setA10 s.saveCol false
    iobBank := s.saveBank
    iobDqm := ~~~(s.saveByteEnable.extractLsb' 0 2)
    dqmSr := t.dqmSr.extractLsb' 2 2 ++ ~~~(s.saveByteEnable.extractLsb' 2 2)
    iobData := s.saveDataIn.extractLsb' 0 16
    iobDataNext := s.saveDataIn.extractLsb' 16 16 }

def fsmWrite2 (s : State) (t : State) : State :=
  let t := { t with state := .write3, iobData := s.iobDataNext }
  if !forcingRefresh s && !s.readyForNew && s.canBackToBack && s.saveWr then
    { t with state := .write1, readyForNew := true }
  else t

def fsmWrite3 (s : State) (t : State) : State :=
  if !forcingRefresh s && !s.readyForNew && s.canBackToBack then
    if s.saveWr then { t with state := .write1, readyForNew := true }
    else
      { t with
        state := .read1
        iobDqHiz := true
        readyForNew := if s.saveBurstLen == 0 then true else t.readyForNew }
  else { t with iobDqHiz := true, state := .precharge }

def fsmPrecharge (t : State) : State :=
  { t with
    state := if c.pre = 2 then .idleIn2 else .idleIn3
    iobCommand := .precharge
    iobAddress := setA10 t.iobAddress true }

/-- The state machine. -/
def fsm (s : State) (i : Input) (t : State) : State :=
  match s.state with
  | .startup => fsmStartup c s t
  | .idleIn6 => { t with state := .idleIn5 }
  | .idleIn5 => { t with state := .idleIn4 }
  | .idleIn4 => { t with state := .idleIn3 }
  | .idleIn3 => { t with state := .idleIn2 }
  | .idleIn2 => { t with state := .idleIn1 }
  | .idleIn1 => { t with state := .idle }
  | .idle => fsmIdle c s i t
  | .openIn2 => { t with state := .openIn1 }
  | .openIn1 => fsmOpenIn1 s t
  | .read1 => fsmRead1 s t
  | .read2 => fsmRead2 c s t
  | .read3 => fsmRead3 c s i t
  | .read4 => { t with state := .precharge }
  | .write1 => fsmWrite1 s t
  | .write2 => fsmWrite2 s t
  | .write3 => fsmWrite3 s t
  | .precharge => fsmPrecharge c t

def syncReset (i : Input) (t : State) : State :=
  if i.reset then
    { t with
      state := .startup
      readyForNew := false
      startupRefreshCount := startupCount c }
  else t

/-- One rising edge of the clock. -/
def step (s : State) (i : Input) : State :=
  syncReset c i (fsm c s i (capture c s i (defaults c s i)))

end Clock

end Sdram
end F32c
