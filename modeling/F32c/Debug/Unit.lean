import F32c.Clocked
import Mathlib.Data.Fintype.Basic

/-!
# The debug unit

Commands arrive as a byte with the number and the width of the arguments, and then the arguments,
which are shifted into registers that keep what they hold of earlier commands.  The unit answers a
command with a sequence number, and executes it after its last argument.
-/

namespace F32c
namespace Debug

open Clocked

abbrev Byte := BitVec 8
abbrev Word := BitVec 32

section Codes

def debCmdActive : Byte := 0x9d#8
def debCmdRegRd : Byte := 0xa0#8
def debCmdBreakpointRd : Byte := 0xa1#8
def debCmdBreakpointWr : Byte := 0xe1#8
def debCmdMemRd : Byte := 0xe2#8
def debCmdClkStep : Byte := 0xef#8

/-- `R_req_state`. -/
inductive ReqState
  | idle
  | arg1
  | arg2
  | exec
deriving DecidableEq, Repr

end Codes

section Registers

/-- Generic parameters. -/
structure Config where
  pcMask : BitVec 30
  breakpoints : Nat

/-- The registers; what a breakpoint register holds is an address and, in the low bits, whether it
was hit and whether it is enabled. -/
structure State (n : Nat) where
  debugActive : Bool
  reqState : ReqState
  cmd : Byte
  arg1 : Word
  arg2 : Word
  argcnt : BitVec 2
  seqn : Byte
  breakAddrs : Fin n → Word
  breakpoint : Bool
  clkEnable : Bool
  ctrlOut : Byte
  ctrlOutStrobe : Bool

/-- The inputs of a clock.  `traceData` is what the core gives for each `trace_addr`, and `undef`
what is read from a register that there is not. -/
structure Input where
  ctrlInData : Byte
  ctrlInStrobe : Bool
  ctrlOutBusy : Bool
  traceBreakPc : BitVec 30
  traceData : BitVec 6 → Word
  undef : Word

end Registers

section Next

variable {c : Config} (s : State c.breakpoints) (i : Input)

/-- A byte of a word. -/
def byteOf (w : Word) (k : BitVec 2) : Byte :=
  if k = 0b00#2 then w.extractLsb 7 0
  else if k = 0b01#2 then w.extractLsb 15 8
  else if k = 0b10#2 then w.extractLsb 23 16
  else w.extractLsb 31 24

/-- `trace_data_in`; the core takes six bits of the address. -/
def traceDataIn : Word := i.traceData (s.arg1.extractLsb 5 0)

/-- `R_break_addrs(break_iter)`. -/
def breakAddr (k : Nat) : Word :=
  if h : k < c.breakpoints then s.breakAddrs ⟨k, h⟩ else i.undef

/-- The number of the further bytes of an argument. -/
def argBytes (cmd : Byte) : BitVec 2 :=
  if cmd.getLsbD 6 then 0b11#2 else 0b00#2

/-- The bytes of a command. -/
def receive : State c.breakpoints :=
  let r := { s with ctrlOutStrobe := false }
  if i.ctrlInStrobe then
    match s.reqState with
    | .idle =>
        if !s.debugActive && i.ctrlInData != debCmdActive then r
        else if i.ctrlInData.getLsbD 7 then
          { r with
            cmd := i.ctrlInData
            reqState := .arg1
            argcnt := argBytes i.ctrlInData
            ctrlOut := s.seqn
            ctrlOutStrobe := true
            seqn := s.seqn + 1 }
        else r
    | .arg1 =>
        let r := { r with arg1 := s.arg1.extractLsb 23 0 ++ i.ctrlInData }
        if s.argcnt = 0b00#2 then
          { r with
            argcnt := argBytes s.cmd
            reqState := if s.cmd.getLsbD 5 then .arg2 else .exec }
        else { r with argcnt := s.argcnt - 1 }
    | .arg2 =>
        let r := { r with arg2 := s.arg2.extractLsb 23 0 ++ i.ctrlInData }
        if s.argcnt = 0b00#2 then { r with reqState := .exec }
        else { r with argcnt := s.argcnt - 1 }
    | .exec => { r with reqState := .idle }
  else r

/-- A byte of a register or a breakpoint is sent, and after the last one the next item follows. -/
def sendItem (w : Word) (r : State c.breakpoints) : State c.breakpoints :=
  if !i.ctrlOutBusy && !s.ctrlOutStrobe then
    let r :=
      { r with
        ctrlOut := byteOf w s.argcnt
        argcnt := s.argcnt + 1
        ctrlOutStrobe := true }
    if s.argcnt = 0b11#2 then
      if s.arg2.extractLsb 7 0 = 0x00#8 then { r with reqState := .idle }
      else { r with arg2 := s.arg2 - 1, arg1 := s.arg1 + 1 }
    else r
  else r

/-- `DEB_CMD_MEM_RD`. -/
def sendMemory (r : State c.breakpoints) : State c.breakpoints :=
  if !i.ctrlOutBusy && !s.ctrlOutStrobe then
    let r :=
      { r with
        ctrlOut := byteOf (traceDataIn s i) (s.arg1.extractLsb 1 0)
        ctrlOutStrobe := true }
    if s.arg2 = 0#32 then { r with reqState := .idle }
    else { r with arg2 := s.arg2 - 1, arg1 := s.arg1 + 1 }
  else r

/-- `DEB_CMD_CLK_STEP`. -/
def clkStep (r : State c.breakpoints) : State c.breakpoints :=
  if s.arg2 = 0#32 then { r with clkEnable := s.arg1.getLsbD 0, reqState := .idle }
  else
    { r with
      clkEnable := true
      breakpoint := false
      breakAddrs := fun k => s.breakAddrs k &&& ~~~0b10#32
      arg2 := s.arg2 - 1 }

/-- `DEB_CMD_BREAKPOINT_WR`. -/
def breakpointWr (r : State c.breakpoints) : State c.breakpoints :=
  { r with
    breakAddrs := fun k => if k.val = s.arg1.toNat then s.arg2 else s.breakAddrs k
    reqState := .idle }

/-- The received command, by `R_cmd`. -/
def executeCmd (r : State c.breakpoints) : State c.breakpoints :=
  if s.cmd = debCmdActive then
    { r with
      debugActive := s.arg1.extractLsb 7 0 != 0xdd#8
      reqState := .idle }
  else if s.cmd = debCmdRegRd then sendItem s i (traceDataIn s i) r
  else if s.cmd = debCmdBreakpointRd then sendItem s i (breakAddr s i s.arg1.toNat) r
  else if s.cmd = debCmdBreakpointWr then breakpointWr s r
  else if s.cmd = debCmdMemRd then sendMemory s i r
  else if s.cmd = debCmdClkStep then clkStep s r
  else { r with reqState := .idle }

/-- The execution of a command; there is only one for a debugger that is not active. -/
def execute (r : State c.breakpoints) : State c.breakpoints :=
  if s.reqState = .exec then
    if !s.debugActive then
      { r with
        debugActive := s.arg1.extractLsb 7 0 == 0xed#8
        reqState := .idle }
    else executeCmd s i r
  else r

/-- A breakpoint is enabled and its address is the one that is fetched from. -/
def hit (k : Fin c.breakpoints) : Bool :=
  (s.breakAddrs k).getLsbD 0 &&
    i.traceBreakPc &&& c.pcMask == (s.breakAddrs k).extractLsb 31 2 &&& c.pcMask

def anyHit : Bool := decide (∃ k : Fin c.breakpoints, hit s i k = true)

/-- The breakpoint detection. -/
def detect (r : State c.breakpoints) : State c.breakpoints :=
  { r with
    breakpoint := anyHit s i || r.breakpoint
    breakAddrs := fun k => if hit s i k then r.breakAddrs k ||| 0b10#32 else r.breakAddrs k
    clkEnable := !anyHit s i && r.clkEnable }

/-- One clock of the unit. -/
def step : State c.breakpoints :=
  let r := execute s i (receive s i)
  let r := if !s.debugActive && !s.breakpoint then { r with clkEnable := true } else r
  detect s i r

end Next

section Outputs

variable {c : Config}

/-- What a clock sends, and where it comes from: the byte of an item by its number. -/
inductive Out
  | seqn
  | register (k : BitVec 6) (j : BitVec 2)
  | breakpoint (k : Nat) (j : BitVec 2)
  | memory (k : BitVec 6) (j : BitVec 2)
deriving DecidableEq, Repr

/-- The byte. -/
def Out.byte (s : State c.breakpoints) (i : Input) : Out → Byte
  | seqn => s.seqn
  | register k j => byteOf (i.traceData k) j
  | breakpoint k j => byteOf (breakAddr s i k) j
  | memory k j => byteOf (i.traceData k) j

/-- What a command sends, by `R_cmd`. -/
def outputCmd (s : State c.breakpoints) : Option Out :=
  if s.cmd = debCmdRegRd then some (.register (s.arg1.extractLsb 5 0) s.argcnt)
  else if s.cmd = debCmdBreakpointRd then some (.breakpoint s.arg1.toNat s.argcnt)
  else if s.cmd = debCmdMemRd then some (.memory (s.arg1.extractLsb 5 0) (s.arg1.extractLsb 1 0))
  else none

/-- What is sent in a clock, if anything. -/
def output (s : State c.breakpoints) (i : Input) : Option Out :=
  match s.reqState with
  | .idle =>
      if i.ctrlInStrobe && (s.debugActive || i.ctrlInData == debCmdActive) &&
        i.ctrlInData.getLsbD 7 then some .seqn else none
  | .exec =>
      if s.debugActive && !i.ctrlOutBusy && !s.ctrlOutStrobe then outputCmd s else none
  | _ => none

end Outputs

end Debug
end F32c
