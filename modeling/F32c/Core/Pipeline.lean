import F32c.Core.Decode
import F32c.Clocked

/-!
# The five-stage pipeline

This module embeds `f32c_core` (`rtl/cpu/f32c_core.vhd`) with `C_debug` false:
the pipeline registers, the multiplier, the COP0 registers and the branch
predictor as one record of registers, every combinational signal as a function
of the registers and the inputs of a clock, and the value that every register
takes at the rising edge.

Three things happen on the falling edge, in the middle of a clock: `R_hi_lo`
takes a finished product, `MEM_bpredict_score` is computed, and without the
load aligner the register file is written.  The signals below are the ones at
the end of a clock, so they see what its falling edge did.
-/

namespace F32c
namespace Core

section Registers

/-- Boundary between the IF and the ID stage. -/
structure IfId where
  fetchInProgress : Bool
  incompleteBranch : Bool
  instruction : Word
  bpredictScore : BitVec 2
  bpredictIndex : BitVec 13
  pc : Addr
  pc4 : Addr
  pcNext : Addr
  epc : Addr
  eip : Bool
  bubble : Bool
deriving Inhabited

/-- Boundary between the ID and the EX stage. -/
structure IdEx where
  bpredictScore : BitVec 2
  bpredictIndex : BitVec 13
  writebackAddr : RegAddr
  cop0Addr : BitVec 5
  reg1Data : Word
  reg2Data : Word
  aluOp2 : Word
  fwdExReg1 : Bool
  fwdExReg2 : Bool
  fwdExAluOp2 : Bool
  fwdMemReg1 : Bool
  fwdMemReg2 : Bool
  fwdMemAluOp2 : Bool
  sltSigned : Bool
  cmovCycle : Bool
  cmovCondition : Bool
  branchCycle : Bool
  branchLikely : Bool
  jumpRegister : Bool
  cancelNext : Bool
  predictTaken : Bool
  branchTarget : Addr
  branchCondition : BitVec 3
  opMajor : OpMajor
  opMinor : BitVec 3
  readAlt : Bool
  altSel : AltSel
  shiftFunct : ShiftFn
  shiftVariable : Bool
  shiftAmount : BitVec 5
  memCycle : Bool
  memWrite : Bool
  memSize : MemSize
  memReadSignExtend : Bool
  multicycleLhLb : Bool
  latency : BitVec 2
  sebSehCycle : Bool
  sebSehSelect : Bool
  mult : Bool
  multSigned : Bool
  madd : Bool
  mulCompound : Bool
  mthi : Bool
  mtlo : Bool
  ll : Bool
  sc : Bool
  flushILine : Bool
  flushDLine : Bool
  branchDelayFollows : Bool
  branchDelaySlot : Bool
  cop0Write : Bool
  wait : Bool
  exception : Bool
  ei : Bool
  di : Bool
  epc : Addr
  eip : Bool
  bubble : Bool
deriving Inhabited

/-- Boundary between the EX and the MEM stage. -/
structure ExMem where
  writebackAddr : RegAddr
  addsubData : Word
  logicData : Word
  logicCycle : Bool
  memDataOut : Word
  branchTarget : Addr
  takeBranch : Bool
  branchCycle : Bool
  branchTaken : Bool
  branchLikely : Bool
  bpredictScore : BitVec 2
  bpredictIndex : BitVec 13
  latency : Bool
  memCycle : Bool
  memWrite : Bool
  memSize : MemSize
  memByteSel : BitVec 4
  memReadSignExtend : Bool
  multicycleLhLb : Bool
  shamt : BitVec 3
  shiftFunct : ShiftFn
  shiftBlocked : Bool
  opMajor : OpMajor
  flushILine : Bool
  flushDLine : Bool
  llBit : Bool
  llAddr : Addr
  sc : Bool
  eip : Bool
deriving Inhabited

/-- Boundary between the MEM and the WB stage. -/
structure MemWb where
  memCycle : Bool
  memReadSignExtend : Bool
  memSize : MemSize
  memAddrOffset : BitVec 2
  writebackAddr : RegAddr
  writeEnable : Bool
  exData : Word
  memData : Word
  multicycleLhLb : Bool
deriving Inhabited

/-- Registers of the multiplication unit. -/
structure Mul where
  rCommit : Bool
  rDone : Bool
  done : Bool
  rWeHi : Bool
  rWeLo : Bool
  rClrHi : Bool
  rClrLo : Bool
  rHiLo : BitVec 64
  rHiLoTarget : BitVec 64
  rX : BitVec 64
  rY : BitVec 33
  rCmp : BitVec 33
  rMulResS : BitVec 67
  rMulHiLo : BitVec 64
  rMulX : BitVec 33
  rMulY : BitVec 34
deriving Inhabited

structure Cop0 where
  rCount : Word
  rCompare : Word
  rEpc : Addr
  rEbase : Addr
  rEi : Bool
  rBd : Bool
  rIntr : BitVec 8
  rIntrMask : BitVec 8
  rExCode : BitVec 5
  rTimerFrit : Bool
  rTimerFrut : Bool
  rTimerIntr : Bool
deriving Inhabited

/-- The branch predictor; `C_bp_global_depth` low bits of the history are in use. -/
structure Bpredict where
  mBptrace : BitVec 13 → BitVec 2
  branchHist : BitVec 13
  memScore : BitVec 2
deriving Inhabited

/-- All registers.  `M_R1` and `M_R2` are written together, so one array stands for both. -/
structure State where
  rReset : Bool
  ifId : IfId
  idEx : IdEx
  exMem : ExMem
  memWb : MemWb
  mR : RegAddr → Word
  mul : Mul
  cop0 : Cop0
  bp : Bpredict
deriving Inhabited

/-- Inputs of a clock. -/
structure Input where
  reset : Bool
  imemDataIn : Word
  imemDataReady : Bool
  dmemDataIn : Word
  dmemDataReady : Bool
  dmemCacheWait : Bool
  snoopCycle : Bool
  snoopAddr : Addr
  intr : BitVec 6
  undef : Undef
deriving Inhabited

end Registers

section Units

/-- `C_PC_mask(31 downto 2)`. -/
def pcMask (c : Config) : Addr := c.pcMask.extractLsb 31 2

/-- The word with its bytes in the opposite order. -/
def swapBytes (w : Word) : Word :=
  w.extractLsb 7 0 ++ w.extractLsb 15 8 ++ w.extractLsb 23 16 ++ w.extractLsb 31 24

def endian (c : Config) (w : Word) : Word :=
  if c.bigEndian then swapBytes w else w

/-- `EX_from_alu_addsubx`: a 33 bit sum or difference. -/
def aluAddsubx (opMinor : BitVec 3) (x y : Word) : BitVec 33 :=
  if opMinor.getLsbD 1 then x.setWidth 33 - y.setWidth 33 else x.setWidth 33 + y.setWidth 33

def aluLogic (opMinor : BitVec 3) (x y : Word) : Word :=
  if opMinor.extractLsb 1 0 = 0b00#2 then x &&& y
  else if opMinor.extractLsb 1 0 = 0b01#2 then x ||| y
  else if opMinor.extractLsb 1 0 = 0b10#2 then x ^^^ y
  else ~~~(x ||| y)

/-- `SEB` and `SEH`. -/
def signExtend (half : Bool) (w : Word) : Word :=
  if half then (w.extractLsb 15 0).signExtend 32 else (w.extractLsb 7 0).signExtend 32

/-- A stage of the barrel shifter, which shifts by `n` when `sel` is set. -/
def shiftStage (n : Nat) (fn : ShiftFn) (sel : Bool) (w : Word) : Word :=
  if sel then
    match fn with
    | .ll => w <<< n
    | .rl => w >>> n
    | .ra => w.sshiftRight n
    | .bypass => w
  else w

/-- `EX_mem_byte_sel`. -/
def memByteSel (size : MemSize) (offset : BitVec 2) : BitVec 4 :=
  let bit (n : BitVec 2) (upper : Bool) : BitVec 1 :=
    BitVec.ofBool (offset == n || size.bit1 || (size.bit0 && offset.getLsbD 1 == upper))
  bit 3#2 true ++ bit 2#2 true ++ bit 1#2 false ++ bit 0#2 false

/-- `EX_memalign_shamt`. -/
def memalignShamt (c : Config) (size : MemSize) (offset : BitVec 2) : BitVec 2 :=
  if size.bit1 then 0b00#2
  else if !c.bigEndian then offset
  else if size = .size16 then BitVec.ofBool (!offset.getLsbD 1) ++ 0#1
  else if offset = 0b11#2 then 0b00#2
  else if offset = 0b10#2 then 0b01#2
  else if offset = 0b01#2 then 0b10#2
  else 0b11#2

/-- The byte that the load aligner selects. -/
def memAlignB (c : Config) (offset : BitVec 2) (w : Word) : BitVec 8 :=
  if offset = (if c.bigEndian then 0b11#2 else 0b00#2) then w.extractLsb 7 0
  else if offset = (if c.bigEndian then 0b10#2 else 0b01#2) then w.extractLsb 15 8
  else if offset = (if c.bigEndian then 0b01#2 else 0b10#2) then w.extractLsb 23 16
  else w.extractLsb 31 24

/-- The half word that the load aligner selects. -/
def memAlignH (c : Config) (u : Undef) (offset : BitVec 2) (w : Word) : BitVec 16 :=
  if offset = (if c.bigEndian then 0b10#2 else 0b00#2) then w.extractLsb 15 0
  else if offset = (if c.bigEndian then 0b00#2 else 0b10#2) then w.extractLsb 31 16
  else u.memAlignH

/-- The load aligner, `WB_mem_data_aligned`. -/
def memDataAligned (c : Config) (u : Undef) (size : MemSize) (signed : Bool)
    (offset : BitVec 2) (w : Word) : Word :=
  if size.bit1 then
    if offset = 0b00#2 then
      if c.bigEndian then w else w.extractLsb 31 8 ++ memAlignB c offset w
    else u.memDataAligned
  else if !size.bit0 then
    if signed then (memAlignB c offset w).signExtend 32 else (memAlignB c offset w).setWidth 32
  else if offset.getLsbD 0 then u.memDataAligned
  else if signed then (memAlignH c u offset w).signExtend 32
  else (memAlignH c u offset w).setWidth 32

end Units

section Signals

variable (c : Config)
variable (s : State)
variable (i : Input)

/-- The clock of the pipeline registers is gated by `dmem_cache_wait`. -/
def clkRun : Bool := !c.cache || !i.dmemCacheWait

section Mem

def memRunning : Bool :=
  (!i.dmemCacheWait || !c.cache) && (!s.exMem.memCycle || i.dmemDataReady) &&
    !(!c.fullShifter && s.exMem.shiftBlocked)

def memEffData : Word :=
  if s.exMem.logicCycle then s.exMem.logicData else s.exMem.addsubData

def memTakeBranch : Bool := s.exMem.takeBranch ^^ s.exMem.branchTaken

def memCancelEx : Bool :=
  (c.arch == .mi32 && c.branchLikely && s.exMem.branchLikely && !s.exMem.takeBranch) ||
    (c.arch == .rv32 && s.exMem.takeBranch)

def memShamt : BitVec 3 :=
  if !c.fullShifter && s.exMem.shiftBlocked then 0b001#3
  else if !c.fullShifter then 0b00#2 ++ s.exMem.shamt.extractLsb 0 0
  else s.exMem.shamt

/-- The 1, 2 and 4 bit stages of the barrel shifter. -/
def memShiftStage4 : Word :=
  let sel (n : Nat) := (memShamt c s).getLsbD n
  let stage1 := shiftStage 1 s.exMem.shiftFunct (sel 0) s.exMem.memDataOut
  let stage2 := shiftStage 2 s.exMem.shiftFunct (sel 1) stage1
  shiftStage 4 s.exMem.shiftFunct (sel 2) stage2

/-- The shifted value; without the load aligner also a loaded byte or half word, extended. -/
def memFromShift : Word :=
  let stage4 := memShiftStage4 c s
  if !c.loadAligner && s.memWb.multicycleLhLb then
    if !s.exMem.memSize.bit0 then
      if s.exMem.memReadSignExtend then (stage4.extractLsb 7 0).signExtend 32
      else (stage4.extractLsb 7 0).setWidth 32
    else if s.exMem.memReadSignExtend then (stage4.extractLsb 15 0).signExtend 32
    else (stage4.extractLsb 15 0).setWidth 32
  else stage4

def memDataIn : Word := endian c i.dmemDataIn

/-- `dmem_addr`. -/
def dmemAddr : Addr := s.exMem.addsubData.extractLsb 31 2

/-- `dmem_data_out`. -/
def dmemDataOut : Word := endian c s.exMem.memDataOut

/-- `MEM_bpredict_score` after the falling edge of the clock. -/
def memBpredictScore : BitVec 2 :=
  if clkRun c i then
    if s.exMem.takeBranch then
      if s.exMem.bpredictScore = 0b00#2 then 0b01#2
      else if s.exMem.bpredictScore = 0b01#2 then 0b10#2
      else 0b11#2
    else
      if s.exMem.bpredictScore = 0b11#2 then 0b10#2
      else if s.exMem.bpredictScore = 0b10#2 then 0b01#2
      else 0b00#2
  else s.bp.memScore

end Mem

section Wb

def wbEffData : Word :=
  if s.memWb.memCycle then s.memWb.memData else s.memWb.exData

def wbMemDataAligned : Word :=
  memDataAligned c i.undef s.memWb.memSize s.memWb.memReadSignExtend s.memWb.memAddrOffset
    s.memWb.memData

def wbWritebackData : Word :=
  if !c.loadAligner then wbEffData s
  else if s.memWb.memCycle then wbMemDataAligned c s i
  else s.memWb.exData

/-- The register file after the write port took the instruction in the WB stage. -/
def regfileWritten : RegAddr → Word :=
  if s.memWb.writeEnable then
    Function.update s.mR s.memWb.writebackAddr (wbWritebackData c s i)
  else s.mR

/--
What a read port returns: without the load aligner the write happens on the
falling edge, before an asynchronous read and together with a synchronous one.
-/
def regfileRead (a : RegAddr) : Word :=
  if !c.loadAligner && !c.regfileSynchronousRead then regfileWritten c s i a else s.mR a

end Wb

section MulOutput

/-- `hi_lo_from_mul`. -/
def hiLoFromMul : BitVec 64 :=
  if c.multIter then s.mul.rMulHiLo else s.mul.rMulResS.extractLsb 63 0

/-- Whether the unit has the registers of `G_mul_staged`. -/
def mulStaged : Bool := c.mulAcc || c.exceptions

def mulDone : Bool := if mulStaged c then s.mul.rDone else s.mul.done

/-- `R_hi_lo` after the falling edge of the clock. -/
def hiLo : BitVec 64 :=
  if mulStaged c then
    let hi : BitVec 32 :=
      if c.mulAcc && s.mul.rClrHi then 0#32
      else if s.mul.rCommit && s.mul.rWeHi then s.mul.rHiLoTarget.extractLsb 63 32
      else s.mul.rHiLo.extractLsb 63 32
    let lo : BitVec 32 :=
      if c.mulAcc && s.mul.rClrLo then 0#32
      else if s.mul.rCommit && s.mul.rWeLo then s.mul.rHiLoTarget.extractLsb 31 0
      else s.mul.rHiLo.extractLsb 31 0
    hi ++ lo
  else hiLoFromMul c s

end MulOutput

section Ex

def exRunning : Bool :=
  memRunning c s i && !(c.exceptions && s.idEx.wait) &&
    (!c.multEnable || memCancelEx c s || (mulDone c s && !s.idEx.mulCompound) ||
      (s.idEx.altSel != .hi && s.idEx.altSel != .lo))

def exEffReg1 : Word :=
  if s.idEx.fwdExReg1 && c.resultForwarding then memEffData s
  else if s.idEx.fwdMemReg1 && c.resultForwarding then wbEffData s
  else s.idEx.reg1Data

def exEffReg2 : Word :=
  if s.idEx.fwdExReg2 && c.resultForwarding then memEffData s
  else if s.idEx.fwdMemReg2 && (c.resultForwarding || !c.loadAligner) then wbEffData s
  else s.idEx.reg2Data

def exEffAluOp2 : Word :=
  if s.idEx.fwdExAluOp2 && c.resultForwarding then memEffData s
  else if s.idEx.fwdMemAluOp2 && c.resultForwarding then wbEffData s
  else s.idEx.aluOp2

def exFromAluAddsubx : BitVec 33 :=
  aluAddsubx s.idEx.opMinor (exEffReg1 c s) (exEffAluOp2 c s)

def exFromAluLogic : Word :=
  let logic := aluLogic s.idEx.opMinor (exEffReg1 c s) (exEffAluOp2 c s)
  if c.signExtend && s.idEx.sebSehCycle then signExtend s.idEx.sebSehSelect logic else logic

def ex2bitAdd : BitVec 2 :=
  (exEffReg1 c s).extractLsb 1 0 + s.idEx.aluOp2.extractLsb 1 0

def exMemalignShamt : BitVec 2 := memalignShamt c s.idEx.memSize (ex2bitAdd c s)

def exShamt : BitVec 5 :=
  if s.idEx.memCycle then exMemalignShamt c s ++ i.undef.shamt
  else if s.idEx.shiftVariable then (exEffReg1 c s).extractLsb 4 0
  else s.idEx.shiftAmount

/-- The 8 and 16 bit stages of the barrel shifter. -/
def exFromShift : Word :=
  let sel (n : Nat) := (exShamt c s i).getLsbD n
  let stage8 := shiftStage 8 s.idEx.shiftFunct (sel 3) (exEffReg2 c s)
  shiftStage 16 s.idEx.shiftFunct (sel 4) stage8

def exMemByteSel : BitVec 4 := memByteSel s.idEx.memSize (ex2bitAdd c s)

def exPcRet : Addr :=
  match c.arch with
  | .mi32 => s.ifId.pc4
  | .rv32 => s.ifId.epc

def sr : Word :=
  0#16 ++ s.cop0.rIntrMask ++ 0#7 ++ BitVec.ofBool s.cop0.rEi

def cause : Word :=
  BitVec.ofBool s.cop0.rBd ++ 0#15 ++ s.cop0.rIntr ++ 0#1 ++ s.cop0.rExCode ++ 0#2

/-- `R_cop0_config`; bits 30 to 16 and 13 to 12 are undefined. -/
def cop0Config : Word :=
  0#1 ++ i.undef.cop0Config.extractLsb 30 16 ++ BitVec.ofBool c.bigEndian ++
    BitVec.ofBool (c.arch == .rv32) ++ i.undef.cop0Config.extractLsb 13 12 ++ c.cpuid

def mi32Cop0Count : BitVec 5 := 0b01001#5
def mi32Cop0Compare : BitVec 5 := 0b01011#5
def mi32Cop0Status : BitVec 5 := 0b01100#5
def mi32Cop0Cause : BitVec 5 := 0b01101#5
def mi32Cop0ExcPc : BitVec 5 := 0b01110#5
def mi32Cop0Ebase : BitVec 5 := 0b01111#5
def mi32Cop0Config : BitVec 5 := 0b10000#5

def exFromCop0 : Word :=
  match c.arch with
  | .rv32 => s.cop0.rCount
  | .mi32 =>
      if s.idEx.cop0Addr = mi32Cop0Count then s.cop0.rCount
      else if s.idEx.cop0Addr = mi32Cop0Compare then s.cop0.rCompare
      else if s.idEx.cop0Addr = mi32Cop0Status then sr s
      else if s.idEx.cop0Addr = mi32Cop0Cause then cause s
      else if s.idEx.cop0Addr = mi32Cop0ExcPc then s.cop0.rEpc ++ 0#2
      else if s.idEx.cop0Addr = mi32Cop0Config then cop0Config c i
      else i.undef.fromCop0

def exFromAlt : Word :=
  match s.idEx.altSel with
  | .hi => (hiLo c s).extractLsb 63 32
  | .lo => (hiLo c s).extractLsb 31 0
  | .cop0 => exFromCop0 c s i
  | .pcRet => exPcRet c s ++ 0#2

def exEqual : Bool := exEffReg1 c s == exEffReg2 c s

/-- The sign of a signed comparison. -/
def exLessSigned : Bool :=
  (exEffReg1 c s).getLsbD 31 ^^ (exEffAluOp2 c s).getLsbD 31 ^^ (exFromAluAddsubx c s).getLsbD 32

/-- Outcome of the test `ID_EX_branch_condition`. -/
def exTestBranch : Bool :=
  let cond := s.idEx.branchCondition
  match c.arch with
  | .mi32 =>
      if cond = mi32TestLtz then (exEffReg1 c s).getLsbD 31
      else if cond = mi32TestGez then !(exEffReg1 c s).getLsbD 31
      else if cond = mi32TestEq then exEqual c s
      else if cond = mi32TestNe then !exEqual c s
      else if cond = mi32TestLez then (exEffReg1 c s).getLsbD 31 || exEqual c s
      else if cond = mi32TestGtz then !(exEffReg1 c s).getLsbD 31 && !exEqual c s
      else false
  | .rv32 =>
      if cond = rv32TestAlways then true
      else if cond = rv32TestEq then exEqual c s
      else if cond = rv32TestNe then !exEqual c s
      else if cond = rv32TestLt then exLessSigned c s
      else if cond = rv32TestGe then !exLessSigned c s
      else if cond = rv32TestLtu then (exFromAluAddsubx c s).getLsbD 32
      else if cond = rv32TestGeu then !(exFromAluAddsubx c s).getLsbD 32
      else false

def exTakeBranch : Bool := s.idEx.branchCycle && exTestBranch c s

def exBranchTarget : Addr :=
  if s.idEx.predictTaken then s.ifId.pc4 else s.idEx.branchTarget

/-- An interrupt that the mask lets through. -/
def exIntr : Bool := (s.cop0.rIntr &&& s.cop0.rIntrMask) != 0#8

/-- The instruction in the EX stage is replaced by the entry into the exception handler. -/
def exException : Bool :=
  c.exceptions && s.cop0.rEi && !s.idEx.bubble && (exIntr s || s.idEx.exception) &&
    !(s.idEx.multicycleLhLb || s.exMem.multicycleLhLb || s.memWb.multicycleLhLb)

def exMulStart : Bool :=
  (!c.cache || !i.dmemCacheWait) && s.idEx.mult && !memCancelEx c s && !s.exMem.eip &&
    (!c.mulAcc || !s.idEx.madd || mulDone c s) &&
    (s.idEx.altSel != .lo || s.idEx.mulCompound || s.idEx.madd)

end Ex

section Id

/-- The decoder's view of the instruction in the ID stage. -/
def idDecoded : Decoded := idecode c i.undef s.ifId.instruction

/-- Whether the register in the WB stage overrides what a read port returns. -/
def idBypass (zero : Bool) (a : RegAddr) : Bool :=
  !zero && a == s.memWb.writebackAddr && (c.loadAligner || c.regfileSynchronousRead)

def idReg1Data : Word := regfileRead c s i (idDecoded c s i).reg1Addr

def idReg1EffData : Word :=
  if c.arch == .rv32 && (idDecoded c s i).reg1Pc then s.ifId.epc ++ 0#2
  else if idBypass c s (idDecoded c s i).reg1Zero (idDecoded c s i).reg1Addr then
    wbWritebackData c s i
  else idReg1Data c s i

def idReg2EffData : Word :=
  if idBypass c s (idDecoded c s i).reg2Zero (idDecoded c s i).reg2Addr then
    wbWritebackData c s i
  else regfileRead c s i (idDecoded c s i).reg2Addr

def idAluOp2 : Word :=
  if (idDecoded c s i).useImmediate then (idDecoded c s i).immediateValue
  else idReg2EffData c s i

def idLoadAlignHazard : Bool :=
  let d := idDecoded c s i
  c.loadAligner && s.exMem.latency &&
    ((!d.reg1Zero && d.reg1Addr == s.exMem.writebackAddr) ||
      (!d.ignoreReg2 && d.reg2Addr == s.exMem.writebackAddr))

def idJumpRegisterHazard : Bool :=
  let d := idDecoded c s i
  c.arch == .mi32 && d.jumpRegister && !d.reg1Zero &&
    (d.reg1Addr == s.idEx.writebackAddr || d.reg1Addr == s.exMem.writebackAddr ||
      (c.loadAligner && d.reg1Addr == s.memWb.writebackAddr))

/-- Forwarding from the EX stage. -/
def idFwdExReg1 : Bool :=
  let d := idDecoded c s i
  !memCancelEx c s && !d.reg1Zero && d.reg1Addr == s.idEx.writebackAddr

def idFwdExReg2 : Bool :=
  let d := idDecoded c s i
  !memCancelEx c s && !d.reg2Zero && d.reg2Addr == s.idEx.writebackAddr

def idFwdExAluOp2 : Bool :=
  !memCancelEx c s && idFwdExReg2 c s i && !(idDecoded c s i).useImmediate

/-- Forwarding from the MEM stage. -/
def idFwdMemReg1 : Bool :=
  let d := idDecoded c s i
  !d.reg1Zero && d.reg1Addr == s.exMem.writebackAddr

def idFwdMemReg2 : Bool :=
  let d := idDecoded c s i
  !d.reg2Zero && d.reg2Addr == s.exMem.writebackAddr

def idFwdMemAluOp2 : Bool :=
  idFwdMemReg2 c s i && !(idDecoded c s i).useImmediate

/-- `IF_fetch_complete`. -/
def ifFetchComplete : Bool := memTakeBranch s || i.imemDataReady

/-- No data hazard holds the instruction in the ID stage back. -/
def idNoHazard : Bool :=
  let d := idDecoded c s i
  if c.resultForwarding then
    (d.reg1Zero || d.reg1Addr != s.idEx.writebackAddr || !s.idEx.latency.getLsbD 0) &&
      (d.ignoreReg2 || d.reg2Addr != s.idEx.writebackAddr || !s.idEx.latency.getLsbD 0)
  else
    !(idFwdExReg1 c s i || idFwdMemReg1 c s i) &&
      (d.ignoreReg2 || !(idFwdExReg2 c s i || idFwdMemReg2 c s i))

def idRunning : Bool :=
  ifFetchComplete s i &&
    (s.idEx.cancelNext ||
      (exRunning c s i && !s.idEx.multicycleLhLb && !idLoadAlignHazard c s i &&
        !idJumpRegisterHazard c s i && idNoHazard c s i))

def idBranchTarget : Addr :=
  match c.arch with
  | .mi32 => pcMask c &&& (s.ifId.pc4 + (idDecoded c s i).branchOffset)
  | .rv32 => pcMask c &&& (s.ifId.epc + (idDecoded c s i).branchOffset)

def idPredictTaken : Bool :=
  c.branchPrediction && c.arch != .rv32 && (idDecoded c s i).branchCycle &&
    s.ifId.bpredictScore.getLsbD 1

def idJumpTarget : Addr :=
  let d := idDecoded c s i
  if !c.loadAligner && c.regfileSynchronousRead && c.arch == .mi32 && d.jumpRegister then
    (idReg1EffData c s i).extractLsb 31 2
  else if c.arch == .mi32 && d.jumpRegister then (idReg1Data c s i).extractLsb 31 2
  else if c.branchPrediction && c.arch != .rv32 && !d.jumpCycle then idBranchTarget c s i
  else s.ifId.pc4.extractLsb 29 26 ++ s.ifId.instruction.extractLsb 25 0

end Id

section If

def ifInstruction : Word := endian c i.imemDataIn

def ifNeedRefetch : Bool :=
  memTakeBranch s && (!i.imemDataReady || s.ifId.fetchInProgress)

def ifPc : Addr :=
  if !c.regIfPc && memTakeBranch s then s.exMem.branchTarget else s.ifId.pc

def ifPcNext : Addr :=
  if c.regIfPc && exRunning c s i && (exTakeBranch c s ^^ s.idEx.predictTaken) then
    exBranchTarget s
  else if memTakeBranch s && !ifNeedRefetch s i && idRunning c s i then ifPc c s + 1
  else if memTakeBranch s && !ifNeedRefetch s i then ifPc c s
  else if ifNeedRefetch s i || s.ifId.incompleteBranch then s.exMem.branchTarget
  else if idRunning c s i && !s.idEx.cancelNext && !s.ifId.bubble &&
      ((idDecoded c s i).jumpCycle || idPredictTaken c s i) then
    idJumpTarget c s i
  else if idRunning c s i then ifPc c s + 1
  else s.ifId.pcNext

def ifPcExtNext : Addr :=
  if i.imemDataReady then ifPcNext c s i &&& pcMask c else s.ifId.pc

/-- `imem_addr`. -/
def imemAddr : Addr := if c.cache then ifPcExtNext c s i else ifPc c s

def ifBpredictIndex : BitVec 13 :=
  (ifPc c s).extractLsb 12 0 ^^^ s.bp.branchHist <<< (13 - c.bpGlobalDepth)

end If

section Next

/-- `jr k0`, executed at the entry into the exception handler. -/
def jrK0 : Word := 0x03400008#32

/-- What the ID stage receives from the IF stage. -/
def ifIdFetched (r : IfId) : IfId :=
  { r with
    instruction :=
      if c.exceptions && s.exMem.eip && !s.ifId.eip && !s.idEx.eip then jrK0
      else ifInstruction c i
    bubble := c.exceptions && s.ifId.eip
    pc4 := (ifPc c s + 1) &&& pcMask c
    bpredictIndex := ifBpredictIndex c s
    epc := if c.arch == .rv32 || c.exceptions then ifPc c s else r.epc
    eip := if c.exceptions then s.exMem.eip && !s.ifId.eip && !s.idEx.eip else r.eip }

def ifIdNext : IfId :=
  let score :=
    if c.branchPrediction && c.arch != .rv32 && idRunning c s i then
      s.bp.mBptrace (ifBpredictIndex c s)
    else s.ifId.bpredictScore
  if clkRun c i then
    let r :=
      { s.ifId with
        bpredictScore := score
        pcNext := ifPcNext c s i &&& pcMask c
        pc := ifPcExtNext c s i
        fetchInProgress := !i.imemDataReady
        incompleteBranch :=
          ifNeedRefetch s i || (!i.imemDataReady && s.ifId.incompleteBranch) }
    let r :=
      if ifNeedRefetch s i || s.ifId.incompleteBranch then { r with bubble := true }
      else if idRunning c s i then ifIdFetched c s i r
      else if (c.arch == .mi32 && s.idEx.branchLikely && !exTakeBranch c s) ||
          (c.arch == .rv32 && exTakeBranch c s) then
        { r with bubble := false, instruction := 0#32 }
      else r
    if c.arch == .rv32 && s.rReset then
      { r with pc := s.cop0.rEbase &&& pcMask c, bubble := true }
    else r
  else { s.ifId with bpredictScore := score }

/-- The cycles that the multicycle load aligner inserts after a byte or half word load. -/
def idExAlign (r : IdEx) : IdEx :=
  { r with
    multicycleLhLb := !s.exMem.multicycleLhLb
    memCycle := false
    opMajor := .shift
    shiftVariable := false
    shiftFunct := .rl
    shiftAmount :=
      if !s.exMem.multicycleLhLb then exMemalignShamt c s ++ 0#3 else r.shiftAmount
    cancelNext := if idRunning c s i || s.exMem.eip then false else r.cancelNext
    flushILine := if c.cache then false else r.flushILine
    flushDLine := if c.cache then false else r.flushDLine
    fwdExReg1 := false
    fwdExReg2 := false
    fwdExAluOp2 := false
    fwdMemReg1 := false
    fwdMemReg2 := true
    fwdMemAluOp2 := false }

/-- A bubble in the EX stage. -/
def idExBubble (r : IdEx) : IdEx :=
  { r with
    writebackAddr := regZero
    memCycle := false
    memWrite := false
    multicycleLhLb := false
    jumpRegister := false
    branchCycle := false
    branchLikely := false
    predictTaken := false
    cancelNext := if idRunning c s i || s.exMem.eip then false else r.cancelNext
    mult := if c.multEnable then false else r.mult
    multSigned := if c.multEnable then false else r.multSigned
    madd := if c.multEnable then false else r.madd
    ll := if c.llSc then false else r.ll
    sc := if c.llSc then false else r.sc
    flushILine := if c.cache then false else r.flushILine
    flushDLine := if c.cache then false else r.flushDLine
    wait := if c.exceptions then false else r.wait
    bubble := if c.exceptions then true else r.bubble
    cop0Write := if c.exceptions then false else r.cop0Write
    exception := if c.exceptions then false else r.exception
    ei := if c.exceptions then false else r.ei
    di := if c.exceptions then false else r.di
    eip := if c.exceptions && idRunning c s i then s.ifId.eip else r.eip
    branchDelaySlot := if c.exceptions && s.exMem.eip then false else r.branchDelaySlot
    branchDelayFollows := if c.exceptions && s.exMem.eip then false else r.branchDelayFollows
    reg1Data := i.undef.reg1Data
    reg2Data := i.undef.reg2Data
    aluOp2 := i.undef.aluOp2
    cop0Addr := i.undef.cop0Addr
    opMajor := .alu
    opMinor := i.undef.opMinor
    memSize := i.undef.memSize
    branchCondition := i.undef.branchCondition
    bpredictScore := i.undef.bpredictScore
    bpredictIndex := i.undef.bpredictIndex
    latency := i.undef.latency }

/-- The instruction in the ID stage moves on to the EX stage. -/
def idExLoad (r : IdEx) : IdEx :=
  let d := idDecoded c s i
  { r with
    reg1Data := idReg1EffData c s i
    reg2Data :=
      if c.multEnable && d.mtlo then idReg2EffData c s i ||| 1#32 else idReg2EffData c s i
    aluOp2 := idAluOp2 c s i
    cop0Addr := s.ifId.instruction.extractLsb 15 11
    sltSigned := d.sltSigned
    opMajor := d.opMajor
    opMinor := d.opMinor
    cmovCycle := c.movnMovz && d.cmovCycle
    cmovCondition := c.movnMovz && d.cmovCondition
    memWrite := d.memWrite
    memSize := d.memSize
    multicycleLhLb :=
      !(c.exceptions && s.exMem.eip) && !c.loadAligner && d.memCycle && !d.memWrite &&
        !d.memSize.bit1
    memReadSignExtend := d.memReadSignExtend
    branchCondition := d.branchCondition
    branchTarget := idBranchTarget c s i
    sebSehCycle := d.sebSehCycle
    sebSehSelect := d.sebSehSelect
    altSel := d.altSel
    readAlt := d.readAlt
    shiftFunct := d.shiftFn
    shiftVariable := d.shiftVariable
    shiftAmount := d.shiftAmount
    writebackAddr := d.targetAddr
    memCycle := d.memCycle
    jumpRegister := c.arch == .rv32 && d.jumpRegister
    branchCycle := d.branchCycle
    branchLikely := c.branchLikely && d.branchLikely && d.branchCycle
    branchDelayFollows := c.arch == .mi32 && (d.branchCycle || d.jumpCycle)
    predictTaken := idPredictTaken c s i
    bpredictScore := s.ifId.bpredictScore
    bpredictIndex := s.ifId.bpredictIndex
    latency := d.latency
    mult := if c.multEnable then d.mult else r.mult
    multSigned := if c.multEnable then d.multSigned else r.multSigned
    madd := if c.multEnable then c.mulAcc && d.madd else r.madd
    mulCompound := if c.multEnable then d.mulCompound else r.mulCompound
    mthi := if c.multEnable then d.mthi else r.mthi
    mtlo := if c.multEnable then d.mtlo else r.mtlo
    ll := if c.llSc then d.ll else r.ll
    sc := if c.llSc then d.sc else r.sc
    flushILine := if c.cache then d.flushILine else r.flushILine
    flushDLine := if c.cache then d.flushDLine else r.flushDLine
    epc := if c.exceptions && !s.idEx.branchDelayFollows then s.ifId.epc else r.epc
    wait := if c.exceptions then d.cop0Wait else r.wait
    bubble := if c.exceptions then s.ifId.bubble else r.bubble
    cop0Write := if c.exceptions then d.cop0Write else r.cop0Write
    exception := if c.exceptions then d.exception else r.exception
    eip := if c.exceptions && idRunning c s i then s.ifId.eip else r.eip
    ei := if c.exceptions then d.ei else r.ei
    di := if c.exceptions then d.di else r.di
    branchDelaySlot :=
      if c.exceptions then s.idEx.branchDelayFollows else r.branchDelaySlot
    fwdExReg1 := idFwdExReg1 c s i
    fwdExReg2 := idFwdExReg2 c s i
    fwdExAluOp2 := idFwdExAluOp2 c s i
    fwdMemReg1 := idFwdMemReg1 c s i
    fwdMemReg2 := idFwdMemReg2 c s i
    fwdMemAluOp2 := idFwdMemAluOp2 c s i }

/-- The EX stage receives a bubble: a branch is taken, or the ID stage is stalled or empty. -/
def idInsertBubble : Bool :=
  !idRunning c s i ||
    (!s.idEx.branchDelayFollows && (memTakeBranch s || s.idEx.cancelNext)) ||
    s.ifId.bubble || (c.exceptions && s.exMem.eip)

def idExNext : IdEx :=
  if clkRun c i then
    let r :=
      { s.idEx with
        cancelNext :=
          (memTakeBranch s && !idRunning c s i && ifFetchComplete s i) || s.idEx.cancelNext
        mulCompound := !c.multEnable && s.idEx.mulCompound }
    let r :=
      if exRunning c s i then
        if !c.loadAligner && s.idEx.multicycleLhLb && !memCancelEx c s && !s.exMem.eip then
          idExAlign c s i r
        else if idInsertBubble c s i then idExBubble c s i r
        else idExLoad c s i r
      else
        -- a `WAIT` instruction ends when interrupts are off or one is pending
        let wake := c.exceptions && s.idEx.wait && (!s.cop0.rEi || exIntr s)
        { r with
          bubble := wake || r.bubble
          wait := !wake && r.wait
          cancelNext := if idRunning c s i || s.exMem.eip then false else r.cancelNext }
    if s.rReset then { r with exception := true, bubble := false, wait := false } else r
  else s.idEx

/-- The MEM stage receives a bubble. -/
def exInsertBubble : Bool :=
  memRunning c s i && (memCancelEx c s || !exRunning c s i || (c.exceptions && s.exMem.eip))

/-- The instruction in the EX stage moves on to the MEM stage. -/
def exLeave : Bool :=
  !exInsertBubble c s i && memRunning c s i && exRunning c s i

/-- A bubble in the MEM stage. -/
def exMemBubble (r : ExMem) : ExMem :=
  { r with
    takeBranch := false
    branchTaken := false
    branchCycle := false
    branchLikely := false
    writebackAddr := regZero
    memCycle := false
    latency := false
    sc := if c.llSc then false else r.sc
    flushILine := if c.cache then false else r.flushILine
    flushDLine := if c.cache then false else r.flushDLine }

/-- `EX_MEM_writeback_addr` of the instruction that leaves the EX stage. -/
def exWritebackAddr : RegAddr :=
  if c.movnMovz && s.idEx.cmovCycle then
    if (exEffReg2 c s == 0#32) == s.idEx.cmovCondition then s.idEx.writebackAddr else regZero
  else s.idEx.writebackAddr

/-- `EX_MEM_logic_data` of the instruction that leaves the EX stage. -/
def exLogicData : Word :=
  if s.idEx.opMajor = .slt then
    0#31 ++ BitVec.ofBool
      (if s.idEx.sltSigned then exLessSigned c s else (exFromAluAddsubx c s).getLsbD 32)
  else if s.idEx.readAlt then exFromAlt c s i
  else exFromAluLogic c s

/-- The MEM stage receives the instruction in the EX stage. -/
def exMemLoad (r : ExMem) : ExMem :=
  { r with
    memDataOut := exFromShift c s i
    addsubData := (exFromAluAddsubx c s).extractLsb 31 0
    memSize := s.idEx.memSize
    multicycleLhLb := !c.loadAligner && s.idEx.multicycleLhLb
    memCycle :=
      s.idEx.memCycle && !exException c s && !(c.llSc && s.idEx.sc && !s.exMem.llBit)
    memWrite := s.idEx.memWrite
    memByteSel := exMemByteSel c s
    shamt := (exShamt c s i).extractLsb 2 0
    shiftFunct := s.idEx.shiftFunct
    shiftBlocked :=
      !c.fullShifter && s.idEx.opMajor == .shift && (exShamt c s i).extractLsb 2 1 != 0b00#2
    opMajor := if exException c s then .alt else s.idEx.opMajor
    branchCycle := s.idEx.branchCycle && !exException c s
    branchLikely := s.idEx.branchLikely && !exException c s
    bpredictScore := s.idEx.bpredictScore
    bpredictIndex := s.idEx.bpredictIndex
    takeBranch := exTakeBranch c s && !exException c s
    branchTaken := s.idEx.predictTaken && !exException c s
    branchTarget :=
      if s.idEx.branchCycle then
        if c.arch == .rv32 && s.idEx.jumpRegister then
          pcMask c &&& (exFromAluAddsubx c s).extractLsb 31 2
        else exBranchTarget s
      else r.branchTarget
    writebackAddr := if exException c s then regK0 else exWritebackAddr c s
    logicCycle :=
      exException c s || s.idEx.opMajor == .slt || s.idEx.readAlt || s.idEx.opMinor.getLsbD 2
    logicData := if exException c s then s.cop0.rEbase ++ 0#2 else exLogicData c s i
    latency := s.idEx.latency.getLsbD 1
    memReadSignExtend := s.idEx.memReadSignExtend
    -- these come after the nullification of an interrupted instruction and override it
    sc := if c.llSc then s.idEx.sc else r.sc
    flushILine := if c.cache then s.idEx.flushILine else r.flushILine
    flushDLine := if c.cache then s.idEx.flushDLine else r.flushDLine
    eip := exException c s || r.eip }

def exMemNext : ExMem :=
  if clkRun c i then
    let r :=
      { s.exMem with
        llBit :=
          if c.llSc then
            s.idEx.ll || (s.exMem.llBit && !(i.snoopCycle && s.exMem.llAddr == i.snoopAddr))
          else s.exMem.llBit
        llAddr :=
          if c.llSc && s.idEx.ll then (exFromAluAddsubx c s).extractLsb 31 2 &&& pcMask c
          else s.exMem.llAddr
        eip := s.exMem.eip && !(c.exceptions && s.idEx.eip && idRunning c s i) }
    let r :=
      if !c.fullShifter && s.exMem.shiftBlocked then
        { r with
          shiftBlocked := s.exMem.shamt != 0b010#3
          memDataOut := memFromShift c s
          shamt := s.exMem.shamt - 1 }
      else r
    let r :=
      if exInsertBubble c s i then exMemBubble c r
      else if exLeave c s i then exMemLoad c s i r
      else { r with memCycle := r.memCycle && !(c.llSc && s.exMem.sc && !s.exMem.llBit) }
    if s.rReset then { r with memCycle := false, memWrite := false } else r
  else s.exMem

/-- Writes of `MTC0`, `EI` and `DI` when the instruction leaves the EX stage. -/
def cop0Write (r : Cop0) : Cop0 :=
  let w := exEffReg2 c s
  let addr := s.idEx.cop0Addr
  let r := { r with rEi := !s.idEx.di && (s.idEx.ei || r.rEi) }
  if s.idEx.cop0Write then
    if addr = mi32Cop0Status then
      { r with rIntrMask := w.extractLsb 15 8, rEi := w.getLsbD 0 }
    else if addr = mi32Cop0Cause then
      { r with
        rBd := w.getLsbD 31
        rIntr := r.rIntr.extractLsb 7 2 ++ w.extractLsb 9 8
        rExCode := w.extractLsb 6 2 }
    else if addr = mi32Cop0ExcPc then { r with rEpc := w.extractLsb 31 2 &&& pcMask c }
    else if addr = mi32Cop0Ebase then { r with rEbase := w.extractLsb 31 2 &&& pcMask c }
    else if addr = mi32Cop0Compare && c.cop0Count && c.cop0Compare then
      { r with rCompare := w, rTimerIntr := false }
    else r
  else r

def cop0Next : Cop0 :=
  let r := s.cop0
  let r :=
    if clkRun c i then
      let timer := c.cop0Count && c.cop0Compare && s.cop0.rTimerFrit != s.cop0.rTimerFrut
      let r :=
        if c.exceptions then
          { r with
            rIntr :=
              BitVec.ofBool (i.intr.getLsbD 5 || s.cop0.rTimerIntr) ++ i.intr.extractLsb 4 0 ++
                s.cop0.rIntr.extractLsb 1 0
            rTimerIntr := timer || r.rTimerIntr
            rTimerFrut := if timer then s.cop0.rTimerFrit else r.rTimerFrut }
        else r
      let r :=
        if exLeave c s i && c.exceptions && !s.exMem.eip then cop0Write c s r else r
      let r :=
        if exLeave c s i && exException c s then
          { r with
            rEi := false
            rEpc := s.idEx.epc &&& pcMask c
            rBd := s.idEx.branchDelaySlot }
        else r
      if s.rReset && c.exceptions then
        { r with rEbase := c.initPC.extractLsb 31 2 &&& pcMask c, rEi := true, rIntrMask := 0#8 }
      else r
    else r
  { r with
    rTimerFrit :=
      if c.exceptions && c.cop0Count && c.cop0Compare && s.cop0.rCount == s.cop0.rCompare then
        !s.cop0.rTimerFrit
      else r.rTimerFrit
    rCount := if c.cop0Count then s.cop0.rCount + 1 else r.rCount }

def memWbNext : MemWb :=
  let data :=
    if memRunning c s i || (c.cache && i.dmemCacheWait) then memDataIn c i else s.memWb.memData
  if clkRun c i then
    if memRunning c s i then
      { memCycle := s.exMem.memCycle && !(c.llSc && s.exMem.sc)
        memReadSignExtend := s.exMem.memReadSignExtend
        memAddrOffset := s.exMem.addsubData.extractLsb 1 0
        memSize := s.exMem.memSize
        writebackAddr := s.exMem.writebackAddr
        multicycleLhLb := !c.loadAligner && s.exMem.multicycleLhLb
        writeEnable := s.exMem.writebackAddr != regZero
        exData :=
          if s.exMem.opMajor = .shift then memFromShift c s
          else if c.llSc && s.exMem.sc then 0#31 ++ BitVec.ofBool s.exMem.memCycle
          else memEffData s
        memData := data }
    else { s.memWb with writeEnable := false, memData := data }
  else { s.memWb with memData := data }

/-- The iterative multiplier. -/
def mulIterNext (m : Mul) : Mul :=
  let x := exEffReg1 c s
  let y := exEffReg2 c s
  if exMulStart c s i then
    { m with
      done := false
      rMulHiLo := 0#64
      rX := (if s.idEx.multSigned && x.getLsbD 31 then BitVec.allOnes 32 else 0#32) ++ x
      rY :=
        if s.idEx.multSigned && y.getLsbD 31 then 1#1 ++ (y - 1)
        else BitVec.ofBool s.idEx.mthi ++ y
      rCmp := if s.idEx.multSigned && y.getLsbD 31 then BitVec.allOnes 33 else 0#33 }
  else if m.rY ≠ m.rCmp then
    { m with
      done := m.rY.extractLsb 32 1 == m.rCmp.extractLsb 32 1
      rMulHiLo :=
        if m.rY.getLsbD 0 == m.rCmp.getLsbD 0 then m.rMulHiLo
        else if !m.rCmp.getLsbD 0 then m.rMulHiLo + m.rX
        else m.rMulHiLo - m.rX
      rX :=
        if c.multIterSkipMux && m.rY.getLsbD 1 == m.rCmp.getLsbD 1 then m.rX <<< 2
        else m.rX <<< 1
      rY :=
        if c.multIterSkipMux && m.rY.getLsbD 1 == m.rCmp.getLsbD 1 then
          m.rCmp.extractLsb 1 0 ++ m.rY.extractLsb 32 2
        else m.rCmp.extractLsb 0 0 ++ m.rY.extractLsb 32 1 }
  else { m with done := true }

/-- The multiplier made of DSP blocks. -/
def mulDspNext (m : Mul) : Mul :=
  let x := exEffReg1 c s
  let y := exEffReg2 c s
  { m with
    rMulX :=
      if exMulStart c s i then BitVec.ofBool (s.idEx.multSigned && x.getLsbD 31) ++ x
      else m.rMulX
    rMulY :=
      if exMulStart c s i then
        BitVec.ofBool (s.idEx.multSigned && x.getLsbD 31) ++
          BitVec.ofBool (s.idEx.mthi || (s.idEx.multSigned && x.getLsbD 31)) ++ y
      else m.rMulY
    rMulResS := m.rMulX.signExtend 67 * m.rMulY.signExtend 67
    done := !exMulStart c s i }

/-- `G_mul_staged`: the result waits in `R_hi_lo_target` until it is committed. -/
def mulStagedNext (m : Mul) : Mul :=
  { m with
    rCommit := !exMulStart c s i && s.mul.done && !s.mul.rDone
    rClrHi := exMulStart c s i && c.mulAcc && !s.idEx.madd && !s.idEx.mtlo
    rClrLo := exMulStart c s i && c.mulAcc && !s.idEx.madd && !s.idEx.mthi
    rHiLoTarget := if c.mulAcc then hiLo c s + hiLoFromMul c s else hiLoFromMul c s
    rDone := !exMulStart c s i && (s.mul.done || s.mul.rDone)
    rWeHi := if exMulStart c s i then !s.idEx.mtlo else m.rWeHi
    rWeLo := if exMulStart c s i then !s.idEx.mthi else m.rWeLo
    rHiLo := hiLo c s }

def mulNext : Mul :=
  if c.multEnable then
    let m := if c.multIter then mulIterNext c s i s.mul else mulDspNext c s i s.mul
    if mulStaged c then mulStagedNext c s i m else m
  else s.mul

def bpNext : Bpredict :=
  if c.branchPrediction && c.arch != .rv32 then
    { mBptrace :=
        if s.exMem.branchCycle then
          Function.update s.bp.mBptrace s.exMem.bpredictIndex (memBpredictScore c s i)
        else s.bp.mBptrace
      branchHist :=
        if clkRun c i && s.exMem.branchCycle then
          s.bp.branchHist >>> 1 |||
            (BitVec.ofBool s.exMem.takeBranch).setWidth 13 <<< (c.bpGlobalDepth - 1)
        else s.bp.branchHist
      memScore := memBpredictScore c s i }
  else s.bp

/-- One clock of the core. -/
def step : State :=
  { rReset := if clkRun c i then i.reset else s.rReset
    ifId := ifIdNext c s i
    idEx := idExNext c s i
    exMem := exMemNext c s i
    memWb := memWbNext c s i
    mR := regfileWritten c s i
    mul := mulNext c s i
    cop0 := cop0Next c s i
    bp := bpNext c s i }

end Next

end Signals

end Core
end F32c
