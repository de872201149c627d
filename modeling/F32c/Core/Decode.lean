import Mathlib.Tactic

/-!
# Instruction decoders

This module embeds the generics of `f32c_core`, the internal codes of
`defs_f32c.vhd`, `defs_mi32.vhd` and `defs_rv32.vhd`, and the two instruction
decoders `idecode_mi32` and `idecode_rv32`.

The sources leave some lines undefined (`'-'`).  A synthesised design puts some
value on them, so every such line is an input of the model (`Undef`), and what
is proved about the core holds for every choice.
-/

namespace F32c
namespace Core

abbrev Word := BitVec 32

/-- Bits 31 to 2 of a byte address. -/
abbrev Addr := BitVec 30

abbrev RegAddr := BitVec 5

inductive Arch where
  | mi32
  | rv32
deriving DecidableEq, Repr

/-- Generics of `f32c_core`.  The debug module is not part of this model. -/
structure Config where
  arch : Arch
  bigEndian : Bool
  multEnable : Bool
  multIter : Bool := false
  multIterSkipMux : Bool := true
  mulAcc : Bool := false
  mulReg : Bool := false
  branchLikely : Bool
  signExtend : Bool
  movnMovz : Bool := false
  llSc : Bool := false
  exceptions : Bool := false
  pcMask : Word := 0xffffffff#32
  initPC : Word := 0#32
  cache : Bool := false
  cpuid : BitVec 12 := 0#12
  cop0Count : Bool := false
  cop0Compare : Bool := false
  resultForwarding : Bool := true
  branchPrediction : Bool := true
  bpGlobalDepth : Nat := 9
  loadAligner : Bool := true
  fullShifter : Bool := true
  regIfPc : Bool := false
  regfileSynchronousRead : Bool := false

section Codes

/-- Memory access width. -/
inductive MemSize where
  | size8
  | size16
  | size32
  | size64
deriving DecidableEq, Repr, Inhabited

namespace MemSize

/-- `mem_size(1)`. -/
def bit1 : MemSize → Bool
  | size8 | size16 => false
  | size32 | size64 => true

/-- `mem_size(0)`. -/
def bit0 : MemSize → Bool
  | size8 | size32 => false
  | size16 | size64 => true

end MemSize

inductive OpMajor where
  | alu
  | slt
  | shift
  | alt
deriving DecidableEq, Repr, Inhabited

inductive ShiftFn where
  | ll
  | bypass
  | rl
  | ra
deriving DecidableEq, Repr, Inhabited

inductive AltSel where
  | hi
  | lo
  | pcRet
  | cop0
deriving DecidableEq, Repr, Inhabited

/-- Result availability latency. -/
def latencyEx : BitVec 2 := 0b00#2
def latencyMem : BitVec 2 := 0b01#2
def latencyWb : BitVec 2 := 0b11#2

/-- ALU operation select; bit 0 of an addition or a subtraction is undefined. -/
def opMinorAdd (x : Bool) : BitVec 3 := bif x then 0b001#3 else 0b000#3
def opMinorSub (x : Bool) : BitVec 3 := bif x then 0b011#3 else 0b010#3
def opMinorAnd : BitVec 3 := 0b100#3
def opMinorOr : BitVec 3 := 0b101#3
def opMinorXor : BitVec 3 := 0b110#3
def opMinorNor : BitVec 3 := 0b111#3

/-- `MI32_REG_ZERO` and `RV32_REG_ZERO`. -/
def regZero : RegAddr := 0b00000#5
def regK0 : RegAddr := 0b11010#5
def regRa : RegAddr := 0b11111#5

end Codes

/-- The values of a clock on the lines that the sources leave undefined. -/
structure Undef where
  immediateValue : Word
  branchOffset : Addr
  branchCondition : BitVec 3
  targetAddr : RegAddr
  memSize : MemSize
  memReadSignExtend : Bool
  latency : BitVec 2
  opMinorLsb : Bool
  opMinor : BitVec 3
  reg1Data : Word
  reg2Data : Word
  aluOp2 : Word
  cop0Addr : BitVec 5
  bpredictScore : BitVec 2
  bpredictIndex : BitVec 13
  shamt : BitVec 3
  fromCop0 : Word
  memAlignH : BitVec 16
  memDataAligned : Word
  cop0Config : Word
deriving Inhabited

/-- Output ports of the decoders; a port that a decoder does not have stays false. -/
structure Decoded where
  reg1Addr : RegAddr
  reg2Addr : RegAddr
  reg1Zero : Bool
  reg2Zero : Bool
  reg1Pc : Bool := false
  immediateValue : Word
  useImmediate : Bool
  ignoreReg2 : Bool
  cmovCycle : Bool := false
  cmovCondition : Bool := false
  branchCycle : Bool := false
  branchLikely : Bool := false
  branchOffset : Addr
  branchCondition : BitVec 3
  jumpCycle : Bool := false
  jumpRegister : Bool := false
  shiftFn : ShiftFn
  shiftVariable : Bool
  shiftAmount : BitVec 5
  readAlt : Bool := false
  altSel : AltSel := .pcRet
  targetAddr : RegAddr
  opMajor : OpMajor := .alu
  opMinor : BitVec 3
  sltSigned : Bool := false
  memCycle : Bool
  memWrite : Bool := false
  memSize : MemSize
  memReadSignExtend : Bool
  latency : BitVec 2 := latencyEx
  sebSehCycle : Bool := false
  sebSehSelect : Bool := false
  mult : Bool := false
  multSigned : Bool := false
  madd : Bool := false
  mulCompound : Bool := false
  mthi : Bool := false
  mtlo : Bool := false
  ll : Bool := false
  sc : Bool := false
  flushILine : Bool := false
  flushDLine : Bool := false
  exception : Bool := false
  di : Bool := false
  ei : Bool := false
  cop0Write : Bool := false
  cop0Wait : Bool := false

section Rv32

def rv32iOpLui : BitVec 7 := 0b0110111#7
def rv32iOpAuipc : BitVec 7 := 0b0010111#7
def rv32iOpJal : BitVec 7 := 0b1101111#7
def rv32iOpJalr : BitVec 7 := 0b1100111#7
def rv32iOpBranch : BitVec 7 := 0b1100011#7
def rv32iOpLoad : BitVec 7 := 0b0000011#7
def rv32iOpStore : BitVec 7 := 0b0100011#7
def rv32iOpRegImm : BitVec 7 := 0b0010011#7
def rv32iOpRegReg : BitVec 7 := 0b0110011#7
def rv32iOpSys : BitVec 7 := 0b1110011#7

def rv32Fn3Add : BitVec 3 := 0b000#3
def rv32Fn3Sl : BitVec 3 := 0b001#3
def rv32Fn3Slt : BitVec 3 := 0b010#3
def rv32Fn3Sltu : BitVec 3 := 0b011#3
def rv32Fn3Xor : BitVec 3 := 0b100#3
def rv32Fn3Sr : BitVec 3 := 0b101#3
def rv32Fn3Or : BitVec 3 := 0b110#3
def rv32Fn3And : BitVec 3 := 0b111#3

def rv32TestEq : BitVec 3 := 0b000#3
def rv32TestNe : BitVec 3 := 0b001#3
def rv32TestAlways : BitVec 3 := 0b010#3
def rv32TestLt : BitVec 3 := 0b100#3
def rv32TestGe : BitVec 3 := 0b101#3
def rv32TestLtu : BitVec 3 := 0b110#3
def rv32TestGeu : BitVec 3 := 0b111#3

/-- The bits that extend an immediate value: all ones when `instruction(31)` is set. -/
def immFill (n : Nat) (w : Word) : BitVec n :=
  if w.getLsbD 31 then BitVec.allOnes n else 0#n

def imm32U (w : Word) : Word :=
  w.extractLsb 31 12 ++ 0#12

def imm32I (w : Word) : Word :=
  immFill 20 w ++ w.extractLsb 31 20

def imm32S (w : Word) : Word :=
  immFill 20 w ++ w.extractLsb 31 25 ++ w.extractLsb 11 7

def imm32Sb (w : Word) : Word :=
  immFill 20 w ++ w.extractLsb 7 7 ++ w.extractLsb 30 25 ++ w.extractLsb 11 8 ++ 0#1

def imm32Uj (w : Word) : Word :=
  immFill 12 w ++ w.extractLsb 19 12 ++ w.extractLsb 20 20 ++ w.extractLsb 30 21 ++ 0#1

/-- Access width from `instruction(13 downto 12)`. -/
def rv32MemSize (w : Word) : MemSize :=
  if w.extractLsb 13 12 = 0b00#2 then .size8
  else if w.extractLsb 13 12 = 0b01#2 then .size16
  else if w.extractLsb 13 12 = 0b10#2 then .size32
  else .size64

/-- Output values of `idecode_rv32` before the main decoder overrides them. -/
def rv32Default (u : Undef) (w : Word) : Decoded :=
  { reg1Addr := w.extractLsb 19 15
    reg2Addr := w.extractLsb 24 20
    reg1Zero := w.extractLsb 19 15 == regZero
    reg2Zero := w.extractLsb 24 20 == regZero
    immediateValue := u.immediateValue
    useImmediate := false
    ignoreReg2 := w.extractLsb 24 20 == regZero
    branchOffset := u.branchOffset
    branchCondition := u.branchCondition
    shiftFn := .ll
    shiftVariable := false
    shiftAmount := w.extractLsb 24 20
    targetAddr := w.extractLsb 11 7
    opMinor := opMinorAdd u.opMinorLsb
    memCycle := false
    memSize := rv32MemSize w
    memReadSignExtend := u.memReadSignExtend
    multSigned := true }

/-- The shift instructions read the shifted value through the second port. -/
def rv32Shift (w : Word) (d : Decoded) : Decoded :=
  { d with
    reg1Addr := w.extractLsb 24 20
    reg2Addr := w.extractLsb 19 15
    reg1Zero := w.extractLsb 24 20 == regZero
    reg2Zero := w.extractLsb 19 15 == regZero
    ignoreReg2 := w.extractLsb 19 15 == regZero
    opMajor := .shift
    latency := latencyMem }

/-- Shift function of `RV32_FN3_SR`. -/
def rv32ShiftRight (w : Word) : ShiftFn :=
  if w.getLsbD 30 then .ra else .rl

/-- `funct3` of an instruction with an immediate operand. -/
def rv32RegImm (u : Undef) (w : Word) (d : Decoded) : Decoded :=
  if w.extractLsb 14 12 = rv32Fn3Add then
    { d with opMajor := .alu, opMinor := opMinorAdd u.opMinorLsb }
  else if w.extractLsb 14 12 = rv32Fn3Slt then
    { d with opMajor := .slt, opMinor := opMinorSub u.opMinorLsb, sltSigned := true }
  else if w.extractLsb 14 12 = rv32Fn3Sltu then
    { d with opMajor := .slt, opMinor := opMinorSub u.opMinorLsb, sltSigned := false }
  else if w.extractLsb 14 12 = rv32Fn3Xor then
    { d with opMinor := opMinorXor }
  else if w.extractLsb 14 12 = rv32Fn3Or then
    { d with opMinor := opMinorOr }
  else if w.extractLsb 14 12 = rv32Fn3And then
    { d with opMinor := opMinorAnd }
  else if w.extractLsb 14 12 = rv32Fn3Sl then
    { rv32Shift w d with shiftFn := .ll }
  else
    { rv32Shift w d with shiftFn := rv32ShiftRight w }

/-- `funct3` of an instruction with two register operands. -/
def rv32RegReg (u : Undef) (w : Word) (d : Decoded) : Decoded :=
  if w.extractLsb 14 12 = rv32Fn3Add then
    { d with
      opMinor := if w.getLsbD 30 then opMinorSub u.opMinorLsb else opMinorAdd u.opMinorLsb }
  else if w.extractLsb 14 12 = rv32Fn3Slt then
    { d with opMajor := .slt, opMinor := opMinorSub u.opMinorLsb, sltSigned := true }
  else if w.extractLsb 14 12 = rv32Fn3Sltu then
    { d with opMajor := .slt, opMinor := opMinorSub u.opMinorLsb, sltSigned := false }
  else if w.extractLsb 14 12 = rv32Fn3Xor then
    { d with opMinor := opMinorXor }
  else if w.extractLsb 14 12 = rv32Fn3Or then
    { d with opMinor := opMinorOr }
  else if w.extractLsb 14 12 = rv32Fn3And then
    { d with opMinor := opMinorAnd }
  else if w.extractLsb 14 12 = rv32Fn3Sl then
    { rv32Shift w d with shiftFn := .ll, shiftVariable := true }
  else
    { rv32Shift w d with shiftFn := rv32ShiftRight w, shiftVariable := true }

/-- The decoder `idecode_rv32`. -/
def idecodeRv32 (c : Config) (u : Undef) (w : Word) : Decoded :=
  let d := rv32Default u w
  if w.extractLsb 6 0 = rv32iOpLui then
    { d with
      useImmediate := true
      immediateValue := imm32U w
      reg1Addr := regZero
      reg1Zero := true
      ignoreReg2 := true }
  else if w.extractLsb 6 0 = rv32iOpAuipc then
    { d with
      useImmediate := true
      immediateValue := imm32U w
      reg1Addr := regZero
      reg1Zero := true
      reg1Pc := true
      ignoreReg2 := true }
  else if w.extractLsb 6 0 = rv32iOpJal then
    { d with
      ignoreReg2 := true
      branchCycle := true
      branchOffset := (imm32Uj w).extractLsb 31 2
      branchCondition := rv32TestAlways
      readAlt := true }
  else if w.extractLsb 6 0 = rv32iOpJalr then
    { d with
      useImmediate := true
      ignoreReg2 := true
      branchCycle := true
      jumpRegister := true
      immediateValue := imm32I w
      branchCondition := rv32TestAlways
      readAlt := true }
  else if w.extractLsb 6 0 = rv32iOpBranch then
    { d with
      branchCycle := true
      branchOffset := (imm32Sb w).extractLsb 31 2
      branchCondition := w.extractLsb 14 12
      targetAddr := regZero
      opMinor := opMinorSub u.opMinorLsb }
  else if w.extractLsb 6 0 = rv32iOpLoad then
    { d with
      useImmediate := true
      latency := latencyWb
      ignoreReg2 := true
      memCycle := true
      memReadSignExtend := !w.getLsbD 14
      immediateValue := imm32I w }
  else if w.extractLsb 6 0 = rv32iOpStore then
    { d with
      useImmediate := true
      immediateValue := imm32S w
      targetAddr := regZero
      memCycle := true
      memWrite := true }
  else if w.extractLsb 6 0 = rv32iOpRegImm then
    rv32RegImm u w { d with useImmediate := true, immediateValue := imm32I w, ignoreReg2 := true }
  else if w.extractLsb 6 0 = rv32iOpRegReg then
    if !w.getLsbD 25 then
      rv32RegReg u w d
    else if c.mulReg then
      { d with
        mult := true
        mulCompound := true
        opMajor := .alt
        altSel := .lo
        readAlt := c.mulReg }
    else d
  else if w.extractLsb 6 0 = rv32iOpSys then
    { d with readAlt := true, altSel := .cop0 }
  else d

end Rv32

section Mi32

def mi32OpSpecial : BitVec 6 := 0b000000#6
def mi32OpRegimm : BitVec 6 := 0b000001#6
def mi32OpJ : BitVec 6 := 0b000010#6
def mi32OpJal : BitVec 6 := 0b000011#6
def mi32OpBeq : BitVec 6 := 0b000100#6
def mi32OpBne : BitVec 6 := 0b000101#6
def mi32OpBlez : BitVec 6 := 0b000110#6
def mi32OpBgtz : BitVec 6 := 0b000111#6
def mi32OpAddi : BitVec 6 := 0b001000#6
def mi32OpAddiu : BitVec 6 := 0b001001#6
def mi32OpSlti : BitVec 6 := 0b001010#6
def mi32OpSltiu : BitVec 6 := 0b001011#6
def mi32OpAndi : BitVec 6 := 0b001100#6
def mi32OpOri : BitVec 6 := 0b001101#6
def mi32OpXori : BitVec 6 := 0b001110#6
def mi32OpLui : BitVec 6 := 0b001111#6
def mi32OpCop0 : BitVec 6 := 0b010000#6
def mi32OpBeql : BitVec 6 := 0b010100#6
def mi32OpBnel : BitVec 6 := 0b010101#6
def mi32OpBlezl : BitVec 6 := 0b010110#6
def mi32OpBgtzl : BitVec 6 := 0b010111#6
def mi32OpSpecial2 : BitVec 6 := 0b011100#6
def mi32OpSpecial3 : BitVec 6 := 0b011111#6
def mi32OpLb : BitVec 6 := 0b100000#6
def mi32OpLh : BitVec 6 := 0b100001#6
def mi32OpLw : BitVec 6 := 0b100011#6
def mi32OpLbu : BitVec 6 := 0b100100#6
def mi32OpLhu : BitVec 6 := 0b100101#6
def mi32OpSb : BitVec 6 := 0b101000#6
def mi32OpSh : BitVec 6 := 0b101001#6
def mi32OpSwl : BitVec 6 := 0b101010#6
def mi32OpSw : BitVec 6 := 0b101011#6
def mi32OpSwr : BitVec 6 := 0b101110#6
def mi32OpCache : BitVec 6 := 0b101111#6
def mi32OpLl : BitVec 6 := 0b110000#6
def mi32OpSc : BitVec 6 := 0b111000#6

def mi32SpecSll : BitVec 6 := 0b000000#6
def mi32SpecSrl : BitVec 6 := 0b000010#6
def mi32SpecSra : BitVec 6 := 0b000011#6
def mi32SpecSllv : BitVec 6 := 0b000100#6
def mi32SpecSrlv : BitVec 6 := 0b000110#6
def mi32SpecSrav : BitVec 6 := 0b000111#6
def mi32SpecJr : BitVec 6 := 0b001000#6
def mi32SpecJalr : BitVec 6 := 0b001001#6
def mi32SpecMovz : BitVec 6 := 0b001010#6
def mi32SpecMovn : BitVec 6 := 0b001011#6
def mi32SpecSyscall : BitVec 6 := 0b001100#6
def mi32SpecBreak : BitVec 6 := 0b001101#6
def mi32SpecMfhi : BitVec 6 := 0b010000#6
def mi32SpecMthi : BitVec 6 := 0b010001#6
def mi32SpecMflo : BitVec 6 := 0b010010#6
def mi32SpecMtlo : BitVec 6 := 0b010011#6
def mi32SpecMult : BitVec 6 := 0b011000#6
def mi32SpecMultu : BitVec 6 := 0b011001#6
def mi32SpecAdd : BitVec 6 := 0b100000#6
def mi32SpecAddu : BitVec 6 := 0b100001#6
def mi32SpecSub : BitVec 6 := 0b100010#6
def mi32SpecSubu : BitVec 6 := 0b100011#6
def mi32SpecAnd : BitVec 6 := 0b100100#6
def mi32SpecOr : BitVec 6 := 0b100101#6
def mi32SpecXor : BitVec 6 := 0b100110#6
def mi32SpecNor : BitVec 6 := 0b100111#6
def mi32SpecSlt : BitVec 6 := 0b101010#6
def mi32SpecSltu : BitVec 6 := 0b101011#6

def mi32Spec2Madd : BitVec 6 := 0b000000#6
def mi32Spec2Maddu : BitVec 6 := 0b000001#6
def mi32Spec2Mul : BitVec 6 := 0b000010#6
def mi32Spec3Bshfl : BitVec 6 := 0b100000#6

def mi32Cop0Mt : BitVec 5 := 0b00100#5
def mi32Cop0Mfmc0 : BitVec 5 := 0b01011#5
def mi32Cop0CoWait : BitVec 6 := 0b100000#6

def mi32RimmBltz : BitVec 5 := 0b00000#5
def mi32RimmBgez : BitVec 5 := 0b00001#5
def mi32RimmBltzl : BitVec 5 := 0b00010#5
def mi32RimmBgezl : BitVec 5 := 0b00011#5
def mi32RimmBltzal : BitVec 5 := 0b10000#5
def mi32RimmBgezal : BitVec 5 := 0b10001#5
def mi32RimmBltzall : BitVec 5 := 0b10010#5
def mi32RimmBgezall : BitVec 5 := 0b10011#5

def mi32TestLtz : BitVec 3 := 0b010#3
def mi32TestGez : BitVec 3 := 0b011#3
def mi32TestEq : BitVec 3 := 0b100#3
def mi32TestNe : BitVec 3 := 0b101#3
def mi32TestLez : BitVec 3 := 0b110#3
def mi32TestGtz : BitVec 3 := 0b111#3

def imm32Unsigned (w : Word) : Word :=
  0#16 ++ w.extractLsb 15 0

def imm32Signed (w : Word) : Word :=
  (if w.getLsbD 15 then 0xffff#16 else 0#16) ++ w.extractLsb 15 0

/-- Shift function from `instruction(1 downto 0)`; a memory access aligns its data to the left. -/
def mi32ShiftFn (w : Word) : ShiftFn :=
  if w.getLsbD 31 then .ll
  else if w.extractLsb 1 0 = 0b00#2 then .ll
  else if w.extractLsb 1 0 = 0b01#2 then .bypass
  else if w.extractLsb 1 0 = 0b10#2 then .rl
  else .ra

/-- Output values of `idecode_mi32` before the main decoder overrides them. -/
def mi32Default (u : Undef) (w : Word) : Decoded :=
  { reg1Addr := w.extractLsb 25 21
    reg2Addr := w.extractLsb 20 16
    reg1Zero := w.extractLsb 25 21 == regZero
    reg2Zero := w.extractLsb 20 16 == regZero
    immediateValue := imm32Signed w
    useImmediate := w.extractLsb 30 29 == 0b01#2 || w.getLsbD 31
    ignoreReg2 := w.extractLsb 20 16 == regZero
    branchLikely := w.getLsbD 30
    branchOffset := (imm32Signed w).extractLsb 29 0
    branchCondition := u.branchCondition
    shiftFn := mi32ShiftFn w
    shiftVariable := w.getLsbD 2
    shiftAmount := w.extractLsb 10 6
    targetAddr := u.targetAddr
    opMinor := opMinorAdd u.opMinorLsb
    memCycle := w.getLsbD 31
    memSize := u.memSize
    memReadSignExtend := u.memReadSignExtend
    sebSehSelect := w.getLsbD 9 }

/-- A jump to a target in the instruction word. -/
def mi32Jump (d : Decoded) (target : RegAddr) : Decoded :=
  { d with jumpCycle := true, targetAddr := target, ignoreReg2 := true, readAlt := true }

/-- A branch without a link register. -/
def mi32Branch (d : Decoded) (likely : Bool) (condition : BitVec 3) : Decoded :=
  { d with
    branchCycle := true
    branchLikely := likely
    branchCondition := condition
    targetAddr := regZero }

/-- An instruction that the configuration does not support. -/
def mi32Unsupported (u : Undef) (d : Decoded) : Decoded :=
  { d with latency := u.latency }

/-- A branch-likely instruction. -/
def mi32BranchLikely (c : Config) (u : Undef) (d : Decoded) (condition : BitVec 3) : Decoded :=
  if c.branchLikely then mi32Branch d true condition else mi32Unsupported u d

/-- An ALU instruction with an immediate operand. -/
def mi32AluImm (w : Word) (d : Decoded) (opMinor : BitVec 3) (imm : Word) : Decoded :=
  { d with
    opMinor := opMinor
    useImmediate := true
    immediateValue := imm
    targetAddr := w.extractLsb 20 16
    ignoreReg2 := true }

/-- A set-on-less-than instruction with an immediate operand. -/
def mi32SltImm (u : Undef) (w : Word) (d : Decoded) (signed : Bool) : Decoded :=
  { d with
    opMajor := .slt
    opMinor := opMinorSub u.opMinorLsb
    useImmediate := true
    sltSigned := signed
    targetAddr := w.extractLsb 20 16
    ignoreReg2 := true }

def mi32Load (w : Word) (d : Decoded) (latency : BitVec 2) (size : MemSize) : Decoded :=
  { d with
    latency := latency
    memSize := size
    useImmediate := true
    targetAddr := w.extractLsb 20 16
    ignoreReg2 := true }

def mi32Store (u : Undef) (d : Decoded) (size : MemSize) : Decoded :=
  { d with
    latency := u.latency
    memWrite := true
    memSize := size
    useImmediate := true
    targetAddr := regZero }

/-- `MI32_OP_COP0`. -/
def mi32Cop0 (c : Config) (w : Word) (d : Decoded) : Decoded :=
  { d with
    readAlt := true
    altSel := .cop0
    targetAddr :=
      if c.exceptions && w.extractLsb 25 21 == mi32Cop0Mt then regZero else w.extractLsb 20 16
    ei := c.exceptions && w.extractLsb 25 21 == mi32Cop0Mfmc0 && w.getLsbD 5
    di := c.exceptions && w.extractLsb 25 21 == mi32Cop0Mfmc0 && !w.getLsbD 5
    cop0Write := c.exceptions && w.extractLsb 25 21 == mi32Cop0Mt
    cop0Wait := c.exceptions && w.getLsbD 25 && w.extractLsb 5 0 == mi32Cop0CoWait }

/-- `MI32_OP_REGIMM`. -/
def mi32Regimm (u : Undef) (w : Word) (d : Decoded) : Decoded :=
  let d := { d with targetAddr := regZero, branchCycle := true, readAlt := true }
  let rimm := w.extractLsb 20 16
  if rimm = mi32RimmBltz then
    { d with branchCondition := mi32TestLtz, branchLikely := false }
  else if rimm = mi32RimmBgez then
    { d with branchCondition := mi32TestGez, branchLikely := false }
  else if rimm = mi32RimmBltzl then
    { d with branchCondition := mi32TestLtz, branchLikely := true }
  else if rimm = mi32RimmBgezl then
    { d with branchCondition := mi32TestGez, branchLikely := true }
  else if rimm = mi32RimmBltzal then
    { d with branchCondition := mi32TestLtz, branchLikely := false, targetAddr := regRa }
  else if rimm = mi32RimmBgezal then
    { d with branchCondition := mi32TestGez, branchLikely := false, targetAddr := regRa }
  else if rimm = mi32RimmBltzall then
    { d with branchCondition := mi32TestLtz, branchLikely := true, targetAddr := regRa }
  else if rimm = mi32RimmBgezall then
    { d with branchCondition := mi32TestGez, branchLikely := true, targetAddr := regRa }
  else mi32Unsupported u d

/-- A conditional move. -/
def mi32Cmov (c : Config) (u : Undef) (d : Decoded) (condition : Bool) : Decoded :=
  if c.movnMovz then
    { d with
      cmovCycle := true
      cmovCondition := condition
      useImmediate := true
      immediateValue := 0#32
      latency := latencyMem }
  else mi32Unsupported u d

/-- `SYSCALL` and `BREAK`. -/
def mi32Exception (c : Config) (d : Decoded) : Decoded :=
  if c.exceptions then { d with exception := true, targetAddr := regK0 } else d

/-- `MTHI` and `MTLO` are multiplications of the operand by a power of two. -/
def mi32MoveTo (c : Config) (d : Decoded) (mthi mtlo : Bool) : Decoded :=
  if c.exceptions || c.mulAcc then
    { d with mult := true, mthi := mthi, mtlo := mtlo, mulCompound := true, altSel := .lo }
  else d

/-- `MI32_OP_SPECIAL`. -/
def mi32Special (c : Config) (u : Undef) (w : Word) (d : Decoded) : Decoded :=
  let d := { d with targetAddr := w.extractLsb 15 11 }
  let fn := w.extractLsb 5 0
  if fn = mi32SpecSll ∨ fn = mi32SpecSrl ∨ fn = mi32SpecSra ∨
      fn = mi32SpecSllv ∨ fn = mi32SpecSrlv ∨ fn = mi32SpecSrav then
    { d with opMajor := .shift, latency := latencyMem }
  else if fn = mi32SpecJr ∨ fn = mi32SpecJalr then
    { d with jumpCycle := true, jumpRegister := true, readAlt := true }
  else if fn = mi32SpecMovz then mi32Cmov c u d true
  else if fn = mi32SpecMovn then mi32Cmov c u d false
  else if fn = mi32SpecSyscall ∨ fn = mi32SpecBreak then mi32Exception c d
  else if fn = mi32SpecMfhi then { d with readAlt := true, altSel := .hi }
  else if fn = mi32SpecMflo then { d with readAlt := true, altSel := .lo }
  else if fn = mi32SpecMthi then mi32MoveTo c d true false
  else if fn = mi32SpecMtlo then mi32MoveTo c d false true
  else if fn = mi32SpecMult then
    { d with opMajor := .alt, mult := true, multSigned := true }
  else if fn = mi32SpecMultu then { d with opMajor := .alt, mult := true }
  else if fn = mi32SpecAdd ∨ fn = mi32SpecAddu then
    { d with opMinor := opMinorAdd u.opMinorLsb }
  else if fn = mi32SpecSub ∨ fn = mi32SpecSubu then
    { d with opMinor := opMinorSub u.opMinorLsb }
  else if fn = mi32SpecAnd then { d with opMinor := opMinorAnd }
  else if fn = mi32SpecOr then { d with opMinor := opMinorOr }
  else if fn = mi32SpecXor then { d with opMinor := opMinorXor }
  else if fn = mi32SpecNor then { d with opMinor := opMinorNor }
  else if fn = mi32SpecSlt then
    { d with opMajor := .slt, opMinor := opMinorSub u.opMinorLsb, sltSigned := true }
  else if fn = mi32SpecSltu then
    { d with opMajor := .slt, opMinor := opMinorSub u.opMinorLsb, sltSigned := false }
  else mi32Unsupported u d

/-- `MI32_OP_SPECIAL2`. -/
def mi32Special2 (c : Config) (u : Undef) (w : Word) (d : Decoded) : Decoded :=
  let d :=
    if c.mulAcc || c.mulReg then
      { d with
        targetAddr := w.extractLsb 15 11
        opMajor := .alt
        altSel := .lo
        readAlt := c.mulReg
        mult := true }
    else d
  if w.extractLsb 5 0 = mi32Spec2Madd then
    if c.mulAcc then { d with madd := true, multSigned := true } else mi32Unsupported u d
  else if w.extractLsb 5 0 = mi32Spec2Maddu then
    if c.mulAcc then { d with madd := true } else mi32Unsupported u d
  else if w.extractLsb 5 0 = mi32Spec2Mul then
    if c.mulReg then { d with multSigned := true, mulCompound := true } else mi32Unsupported u d
  else mi32Unsupported u d

/-- `MI32_OP_SPECIAL3`. -/
def mi32Special3 (c : Config) (u : Undef) (w : Word) (d : Decoded) : Decoded :=
  let d := { d with targetAddr := w.extractLsb 15 11, opMinor := opMinorXor }
  if w.extractLsb 5 0 = mi32Spec3Bshfl then
    if c.signExtend then { d with sebSehCycle := true } else mi32Unsupported u d
  else mi32Unsupported u d

/-- The decoder `idecode_mi32`. -/
def idecodeMi32 (c : Config) (u : Undef) (w : Word) : Decoded :=
  let d := mi32Default u w
  let op := w.extractLsb 31 26
  if op = mi32OpJ then mi32Jump d regZero
  else if op = mi32OpJal then mi32Jump d regRa
  else if op = mi32OpBeq then mi32Branch d false mi32TestEq
  else if op = mi32OpBne then mi32Branch d false mi32TestNe
  else if op = mi32OpBlez then mi32Branch d false mi32TestLez
  else if op = mi32OpBgtz then mi32Branch d false mi32TestGtz
  else if op = mi32OpAddi ∨ op = mi32OpAddiu then
    mi32AluImm w d (opMinorAdd u.opMinorLsb) (imm32Signed w)
  else if op = mi32OpSlti then mi32SltImm u w d true
  else if op = mi32OpSltiu then mi32SltImm u w d false
  else if op = mi32OpAndi then mi32AluImm w d opMinorAnd (imm32Unsigned w)
  else if op = mi32OpOri then mi32AluImm w d opMinorOr (imm32Unsigned w)
  else if op = mi32OpXori then mi32AluImm w d opMinorXor (imm32Unsigned w)
  else if op = mi32OpLui then mi32AluImm w d opMinorOr (w.extractLsb 15 0 ++ 0#16)
  else if op = mi32OpCop0 then mi32Cop0 c w d
  else if op = mi32OpBeql then mi32BranchLikely c u d mi32TestEq
  else if op = mi32OpBnel then mi32BranchLikely c u d mi32TestNe
  else if op = mi32OpBlezl then mi32BranchLikely c u d mi32TestLez
  else if op = mi32OpBgtzl then mi32BranchLikely c u d mi32TestGtz
  else if op = mi32OpLb then
    { mi32Load w d latencyWb .size8 with memReadSignExtend := true }
  else if op = mi32OpLh then
    { mi32Load w d latencyWb .size16 with memReadSignExtend := true }
  else if op = mi32OpLw then mi32Load w d latencyMem .size32
  else if op = mi32OpLl then
    if c.llSc then { mi32Load w d latencyMem .size32 with ll := true } else d
  else if op = mi32OpLbu then
    { mi32Load w d latencyWb .size8 with memReadSignExtend := false }
  else if op = mi32OpLhu then
    { mi32Load w d latencyWb .size16 with memReadSignExtend := false }
  else if op = mi32OpSb then mi32Store u d .size8
  else if op = mi32OpSh then mi32Store u d .size16
  else if op = mi32OpSwl ∨ op = mi32OpSwr ∨ op = mi32OpSw then mi32Store u d .size32
  else if op = mi32OpSc then
    if c.llSc then
      { d with
        latency := latencyMem
        memWrite := true
        memSize := .size32
        useImmediate := true
        sc := true
        targetAddr := w.extractLsb 20 16 }
    else d
  else if op = mi32OpCache then
    if c.cache then
      { d with
        targetAddr := regZero
        latency := u.latency
        useImmediate := true
        flushILine := !w.getLsbD 16
        flushDLine := w.getLsbD 16 }
    else { d with targetAddr := regZero }
  else if op = mi32OpRegimm then mi32Regimm u w d
  else if op = mi32OpSpecial then mi32Special c u w d
  else if op = mi32OpSpecial2 then mi32Special2 c u w d
  else if op = mi32OpSpecial3 then mi32Special3 c u w d
  else mi32Unsupported u d

end Mi32

/-- The decoder that `C_arch` selects. -/
def idecode (c : Config) (u : Undef) (w : Word) : Decoded :=
  match c.arch with
  | .mi32 => idecodeMi32 c u w
  | .rv32 => idecodeRv32 c u w

end Core
end F32c
