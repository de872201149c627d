import F32c.Core.Datapath
import F32c.Rv32.Isa

/-!
# One RV32I instruction in the EX stage

What the decoder `idecode_rv32` and the EX and MEM stages do with one RV32I
instruction, compared with its effect in the architecture: the register and the
value it writes, the bytes it stores, and the instruction that follows.
-/

namespace F32c
namespace Core

/-- The configuration of an RV32 core without caches, exceptions and multiplier. -/
structure IsRv32 (c : Config) : Prop where
  arch : c.arch = .rv32
  bigEndian : c.bigEndian = false
  multEnable : c.multEnable = false
  llSc : c.llSc = false
  exceptions : c.exceptions = false
  pcMask : c.pcMask = 0xffffffff#32
  cache : c.cache = false
  resultForwarding : c.resultForwarding = true
  loadAligner : c.loadAligner = true
  fullShifter : c.fullShifter = true
  regIfPc : c.regIfPc = false

section Immediates

theorem getLsbD_immFill (n k : Nat) (w : Word) :
    (immFill n w).getLsbD k = (decide (k < n) && w.getLsbD 31) := by
  rw [immFill]
  split
  next h =>
      rw [BitVec.getLsbD_allOnes, h, Bool.and_true]
  next h =>
      rw [Bool.not_eq_true] at h
      rw [h, Bool.and_false, BitVec.getLsbD_zero]

theorem imm32I_eq (w : Word) : imm32I w = Rv32.immI w := by
  apply BitVec.eq_of_getLsbD_eq
  intro k hk
  simp only [imm32I, Rv32.immI, getLsbD_immFill, BitVec.getLsbD_signExtend, BitVec.getLsbD_append,
    BitVec.msb_eq_getLsbD_last, BitVec.getLsbD_extractLsb]
  grind

theorem imm32S_eq (w : Word) : imm32S w = Rv32.immS w := by
  apply BitVec.eq_of_getLsbD_eq
  intro k hk
  simp only [imm32S, Rv32.immS, getLsbD_immFill, BitVec.getLsbD_signExtend, BitVec.getLsbD_append,
    BitVec.msb_eq_getLsbD_last, BitVec.getLsbD_extractLsb]
  grind

theorem imm32Sb_eq (w : Word) : imm32Sb w = Rv32.immB w := by
  apply BitVec.eq_of_getLsbD_eq
  intro k hk
  simp only [imm32Sb, Rv32.immB, getLsbD_immFill, BitVec.getLsbD_signExtend,
    BitVec.getLsbD_append, BitVec.msb_eq_getLsbD_last, BitVec.getLsbD_extractLsb]
  grind

theorem imm32Uj_eq (w : Word) : imm32Uj w = Rv32.immJ w := by
  apply BitVec.eq_of_getLsbD_eq
  intro k hk
  simp only [imm32Uj, Rv32.immJ, getLsbD_immFill, BitVec.getLsbD_signExtend,
    BitVec.getLsbD_append, BitVec.msb_eq_getLsbD_last, BitVec.getLsbD_extractLsb]
  grind

/-- Adding the upper bits of an offset to a word address adds the offset to the byte address. -/
theorem target_byteAddr_add (pc : Addr) (imm : Word) :
    Rv32.target (Rv32.byteAddr pc + imm) = pc + imm.extractLsb 31 2 := by
  have hpc := pc.isLt
  have himm := imm.isLt
  have hbyte : (Rv32.byteAddr pc).toNat = pc.toNat * 4 := by
    rw [Rv32.byteAddr, BitVec.toNat_append]
    simp [Nat.shiftLeft_eq]
  apply BitVec.eq_of_toNat_eq
  simp [Rv32.target, hbyte, Nat.shiftRight_eq_div_pow]
  omega

end Immediates

section Decoded

/-- The second operand of the ALU. -/
def Decoded.op2 (d : Decoded) (b : Word) : Word :=
  if d.useImmediate then d.immediateValue else b

/-- What the EX and MEM stages compute for an instruction that does not access memory. -/
def Decoded.result (d : Decoded) (a b ret : Word) : Word :=
  if d.opMajor = .shift then
    barrel d.shiftFn (if d.shiftVariable then a.extractLsb 4 0 else d.shiftAmount) b
  else if d.opMajor = .slt then
    let sub := aluAddsubx d.opMinor a (d.op2 b)
    0#31 ++ BitVec.ofBool
      (if d.sltSigned then a.getLsbD 31 ^^ (d.op2 b).getLsbD 31 ^^ sub.getLsbD 32
      else sub.getLsbD 32)
  else if d.readAlt then ret
  else if d.opMinor.getLsbD 2 then aluLogic d.opMinor a (d.op2 b)
  else (aluAddsubx d.opMinor a (d.op2 b)).extractLsb 31 0

/-- Whether an RV32 instruction branches. -/
def Decoded.taken (d : Decoded) (a b : Word) : Bool :=
  let sub := aluAddsubx d.opMinor a (d.op2 b)
  let less := a.getLsbD 31 ^^ (d.op2 b).getLsbD 31 ^^ sub.getLsbD 32
  d.branchCycle &&
    (if d.branchCondition = rv32TestAlways then true
    else if d.branchCondition = rv32TestEq then a == b
    else if d.branchCondition = rv32TestNe then !(a == b)
    else if d.branchCondition = rv32TestLt then less
    else if d.branchCondition = rv32TestGe then !less
    else if d.branchCondition = rv32TestLtu then sub.getLsbD 32
    else if d.branchCondition = rv32TestGeu then !sub.getLsbD 32
    else false)

/-- The pipeline registers before the EX stage hold a decoded instruction. -/
structure Carries (r : IdEx) (d : Decoded) : Prop where
  sltSigned : r.sltSigned = d.sltSigned
  opMajor : r.opMajor = d.opMajor
  opMinor : r.opMinor = d.opMinor
  memCycle : r.memCycle = d.memCycle
  memWrite : r.memWrite = d.memWrite
  memSize : r.memSize = d.memSize
  memReadSignExtend : r.memReadSignExtend = d.memReadSignExtend
  branchCycle : r.branchCycle = d.branchCycle
  branchCondition : r.branchCondition = d.branchCondition
  altSel : r.altSel = d.altSel
  readAlt : r.readAlt = d.readAlt
  shiftFunct : r.shiftFunct = d.shiftFn
  shiftVariable : r.shiftVariable = d.shiftVariable
  shiftAmount : r.shiftAmount = d.shiftAmount
  writebackAddr : r.writebackAddr = d.targetAddr
  jumpRegister : r.jumpRegister = d.jumpRegister
  latency : r.latency = d.latency
  sebSehCycle : r.sebSehCycle = d.sebSehCycle
  cmovCycle : r.cmovCycle = false
  predictTaken : r.predictTaken = false

end Decoded

section Stages

variable {c : Config}
variable {s : State}
variable {d : Decoded}
variable {a b : Word}

/-- The EX stage holds a decoded instruction and its forwarded operands are `a` and `b`. -/
structure ExHolds (c : Config) (s : State) (d : Decoded) (a b : Word) : Prop where
  carries : Carries s.idEx d
  reg1 : exEffReg1 c s = a
  reg2 : exEffReg2 c s = b
  alu : exEffAluOp2 c s = d.op2 b
  imm : d.useImmediate = true → s.idEx.aluOp2 = d.immediateValue
  sebSeh : d.sebSehCycle = false

theorem ExHolds.addsubx (h : ExHolds c s d a b) :
    exFromAluAddsubx c s = aluAddsubx d.opMinor a (d.op2 b) := by
  rw [exFromAluAddsubx, h.reg1, h.alu, h.carries.opMinor]

theorem ExHolds.lessSigned (h : ExHolds c s d a b) :
    exLessSigned c s = (a.getLsbD 31 ^^ (d.op2 b).getLsbD 31 ^^
      (aluAddsubx d.opMinor a (d.op2 b)).getLsbD 32) := by
  rw [exLessSigned, h.reg1, h.alu, h.addsubx]

theorem ExHolds.takeBranch (hc : IsRv32 c) (h : ExHolds c s d a b) :
    exTakeBranch c s = d.taken a b := by
  simp only [exTakeBranch, exTestBranch, hc.arch, Decoded.taken, exEqual, h.lessSigned, h.addsubx,
    h.reg1, h.reg2, h.carries.branchCycle, h.carries.branchCondition]

theorem ExHolds.aluLogic (h : ExHolds c s d a b) :
    exFromAluLogic c s = Core.aluLogic d.opMinor a (d.op2 b) := by
  simp only [exFromAluLogic, h.reg1, h.alu, h.carries.opMinor, h.carries.sebSehCycle, h.sebSeh,
    Bool.and_false, Bool.false_eq_true, if_false]

/-- The value the MEM stage forwards, for an instruction that is not a shift. -/
theorem ExHolds.memEffData (hc : IsRv32 c) (h : ExHolds c s d a b) (halt : d.altSel = .pcRet)
    (hmajor : d.opMajor ≠ .shift) (i : Input) (r : ExMem) (t : State)
    (ht : t.exMem = exMemLoad c s i r) :
    Core.memEffData t = d.result a b (exPcRet c s ++ 0#2) := by
  have hex : exException c s = false := by simp [exException, hc.exceptions]
  simp only [Core.memEffData, ht, exMemLoad, exLogicData, exFromAlt, hex, h.lessSigned, h.addsubx,
    h.aluLogic, h.carries.opMajor, h.carries.sltSigned, h.carries.readAlt, h.carries.opMinor,
    h.carries.altSel, halt, Decoded.result, if_neg hmajor]
  by_cases hslt : d.opMajor = .slt <;> cases d.readAlt <;> cases hm : d.opMinor.getLsbD 2 <;>
    simp [hslt]

/-- The value a shift instruction delivers after both halves of the barrel shifter. -/
theorem ExHolds.memFromShift (hc : IsRv32 c) (h : ExHolds c s d a b)
    (hmajor : d.opMajor = .shift) (hmem : d.memCycle = false) (i : Input) (r : ExMem) (t : State)
    (ht : t.exMem = exMemLoad c s i r) (ret : Word) :
    Core.memFromShift c t = d.result a b ret := by
  simp [Core.memFromShift, memShiftStage4, memShamt, ht, exMemLoad, hc.loadAligner, hc.fullShifter,
    exFromShift, exShamt, h.carries.memCycle, hmem, h.carries.shiftVariable, h.carries.shiftAmount,
    h.carries.shiftFunct, h.reg1, h.reg2, Decoded.result, hmajor, barrel]

end Stages

section Instructions

/-- The first operand that the ID stage reads. -/
def Decoded.reg1 (d : Decoded) (st : Rv32.State) : Word :=
  if d.reg1Pc then Rv32.byteAddr st.pc else st.regs d.reg1Addr

/--
Whether the second operand `b` is the register that the instruction names: an
instruction that ignores it may read anything, unless it names register zero.
-/
def Decoded.Reads (d : Decoded) (st : Rv32.State) (b : Word) : Prop :=
  d.ignoreReg2 = false ∨ d.reg2Zero = true → b = st.regs d.reg2Addr

theorem Decoded.Reads.eq {d : Decoded} {st : Rv32.State} {b : Word} (h : d.Reads st b)
    (hzero : d.ignoreReg2 = d.reg2Zero) : b = st.regs d.reg2Addr := by
  apply h
  rw [hzero]
  cases d.reg2Zero <;> simp

/-- The sum that addresses memory and jumps through a register. -/
def Decoded.sum (d : Decoded) (st : Rv32.State) (b : Word) : Word :=
  (aluAddsubx d.opMinor (d.reg1 st) (d.op2 b)).extractLsb 31 0

/-- The value an instruction writes to its target register. -/
def Decoded.value (c : Config) (u : Undef) (d : Decoded) (st : Rv32.State) (b : Word) : Word :=
  if d.memCycle then
    memDataAligned c u d.memSize d.memReadSignExtend ((d.sum st b).extractLsb 1 0)
      (busWord st.mem ((d.sum st b).extractLsb 31 2))
  else d.result (d.reg1 st) b (Rv32.byteAddr (st.pc + 1))

/-- The bytes an instruction stores. -/
def Decoded.bytes (d : Decoded) (st : Rv32.State) (b : Word) : Rv32.Store :=
  busBytes ((d.sum st b).extractLsb 31 2) (memByteSel d.memSize ((d.sum st b).extractLsb 1 0))
    (storeData d.memSize ((d.sum st b).extractLsb 1 0) b)

/-- The address of the instruction after this one. -/
def Decoded.next (d : Decoded) (st : Rv32.State) (b : Word) : Addr :=
  if d.taken (d.reg1 st) b then
    if d.jumpRegister then (d.sum st b).extractLsb 31 2 else st.pc + d.branchOffset
  else st.pc + 1

/-- The decoder's outputs have the effect that the architecture gives the instruction. -/
structure Executes (c : Config) (d : Decoded) (st : Rv32.State) (b : Word) (eff : Rv32.Effect) :
    Prop where
  altSel : d.altSel = .pcRet
  sebSeh : d.sebSehCycle = false
  cmov : d.cmovCycle = false
  next : eff.next.pc = d.next st b
  write : ∀ u, eff.write =
    if d.targetAddr = regZero then none else some (d.targetAddr, d.value c u st b)
  store : eff.store = if d.memCycle && d.memWrite then some (d.bytes st b) else none
  regs : eff.next.regs =
    match eff.write with
    | none => st.regs
    | some (r, v) => Function.update st.regs r v
  mem : eff.next.mem =
    match eff.store with
    | none => st.mem
    | some bytes => Rv32.writeBytes st.mem bytes
  branch : d.memCycle = true → d.branchCycle = false
  memImm : d.memCycle = true → d.useImmediate = true
  memAdd : d.memCycle = true → ∃ x, d.opMinor = opMinorAdd x
  loadLatency : d.memCycle = true → d.targetAddr ≠ regZero → d.latency = latencyWb
  storeShift : d.memCycle = true → d.memWrite = true → d.shiftFn = .ll
  storeTarget : d.memWrite = true → d.targetAddr = regZero
  latency : d.latency.getLsbD 0 = false → d.opMajor ≠ .shift

variable {c : Config}
variable {u : Undef}
variable {w : Word}
variable {st : Rv32.State}
variable {b : Word}

/-- An instruction that writes a register and does not access memory. -/
theorem executes_ofReg {d : Decoded} {pc : Addr} {rd : Rv32.Reg} {v : Word}
    (halt : d.altSel = .pcRet) (hseb : d.sebSehCycle = false) (hcmov : d.cmovCycle = false)
    (hmem : d.memCycle = false) (hwrite : d.memWrite = false) (htarget : d.targetAddr = rd)
    (hlat : d.latency.getLsbD 0 = false → d.opMajor ≠ .shift)
    (hresult : d.result (d.reg1 st) b (Rv32.byteAddr (st.pc + 1)) = v)
    (hnext : d.next st b = pc) :
    Executes c d st b (.ofReg st pc rd v) where
  altSel := halt
  sebSeh := hseb
  cmov := hcmov
  next := hnext.symm
  write := by
    subst hresult htarget
    simp [Rv32.Effect.ofReg, Decoded.value, hmem, regZero]
  store := by simp [Rv32.Effect.ofReg, hmem]
  regs := by
    by_cases h : rd = 0#5 <;> simp [Rv32.Effect.ofReg, Rv32.writeReg, h]
  mem := rfl
  branch h := by simp [hmem] at h
  memImm h := by simp [hmem] at h
  memAdd h := by simp [hmem] at h
  loadLatency h := by simp [hmem] at h
  storeShift h := by simp [hmem] at h
  storeTarget h := by simp [hwrite] at h
  latency := hlat

theorem next_of_not_branch {d : Decoded} (h : d.branchCycle = false) :
    d.next st b = st.pc + 1 := by
  simp [Decoded.next, Decoded.taken, h]

@[simp] theorem opMinorAdd_logic (x : Bool) : (opMinorAdd x)[2] = false := by
  cases x <;> rfl

@[simp] theorem opMinorSub_logic (x : Bool) : (opMinorSub x)[2] = false := by
  cases x <;> rfl

theorem executes_lui (hop : Rv32.opcode w = 0b0110111#7) (hx0 : st.regs 0#5 = 0#32) :
    Executes c (idecodeRv32 c u w) st b (.ofReg st (st.pc + 1) (Rv32.rd w) (Rv32.immU w)) := by
  rw [Rv32.opcode] at hop
  rw [show idecodeRv32 c u w =
      { rv32Default u w with
        useImmediate := true
        immediateValue := imm32U w
        reg1Addr := regZero
        reg1Zero := true
        ignoreReg2 := true } by simp [idecodeRv32, hop, rv32iOpLui]]
  refine executes_ofReg rfl rfl rfl rfl rfl rfl (fun _ => by simp [rv32Default]) ?_
    (next_of_not_branch rfl)
  simp [Decoded.result, rv32Default, Decoded.reg1, Decoded.op2, regZero, hx0,
    aluAddsubx_add, imm32U, Rv32.immU]

theorem executes_auipc (hop : Rv32.opcode w = 0b0010111#7) :
    Executes c (idecodeRv32 c u w) st b
      (.ofReg st (st.pc + 1) (Rv32.rd w) (Rv32.byteAddr st.pc + Rv32.immU w)) := by
  rw [Rv32.opcode] at hop
  rw [show idecodeRv32 c u w =
      { rv32Default u w with
        useImmediate := true
        immediateValue := imm32U w
        reg1Addr := regZero
        reg1Zero := true
        reg1Pc := true
        ignoreReg2 := true } by simp [idecodeRv32, hop, rv32iOpLui, rv32iOpAuipc]]
  refine executes_ofReg rfl rfl rfl rfl rfl rfl (fun _ => by simp [rv32Default]) ?_
    (next_of_not_branch rfl)
  simp [Decoded.result, rv32Default, Decoded.reg1, Decoded.op2,
    aluAddsubx_add, imm32U, Rv32.immU]

theorem executes_jal (hop : Rv32.opcode w = 0b1101111#7) :
    Executes c (idecodeRv32 c u w) st b
      (.ofReg st (Rv32.target (Rv32.byteAddr st.pc + Rv32.immJ w)) (Rv32.rd w)
        (Rv32.byteAddr (st.pc + 1))) := by
  rw [Rv32.opcode] at hop
  rw [show idecodeRv32 c u w =
      { rv32Default u w with
        ignoreReg2 := true
        branchCycle := true
        branchOffset := (imm32Uj w).extractLsb 31 2
        branchCondition := rv32TestAlways
        readAlt := true } by simp [idecodeRv32, hop, rv32iOpLui, rv32iOpAuipc, rv32iOpJal]]
  refine executes_ofReg rfl rfl rfl rfl rfl rfl (fun _ => by simp [rv32Default]) ?_ ?_
  · simp [Decoded.result, rv32Default]
  · simp [Decoded.next, Decoded.taken, rv32Default, target_byteAddr_add, imm32Uj_eq]

theorem executes_jalr (hop : Rv32.opcode w = 0b1100111#7) :
    Executes c (idecodeRv32 c u w) st b
      (.ofReg st (Rv32.target (st.regs (Rv32.rs1 w) + Rv32.immI w)) (Rv32.rd w)
        (Rv32.byteAddr (st.pc + 1))) := by
  rw [Rv32.opcode] at hop
  rw [show idecodeRv32 c u w =
      { rv32Default u w with
        useImmediate := true
        ignoreReg2 := true
        branchCycle := true
        jumpRegister := true
        immediateValue := imm32I w
        branchCondition := rv32TestAlways
        readAlt := true } by
    simp [idecodeRv32, hop, rv32iOpLui, rv32iOpAuipc, rv32iOpJal, rv32iOpJalr]]
  refine executes_ofReg rfl rfl rfl rfl rfl rfl (fun _ => by simp [rv32Default]) ?_ ?_
  · simp [Decoded.result, rv32Default]
  · simp [Decoded.next, Decoded.taken, rv32Default, Decoded.sum, Decoded.reg1, Decoded.op2,
      aluAddsubx_add, imm32I_eq, Rv32.target, Rv32.rs1]

section Results

variable {d : Decoded}
variable {a b y ret : Word}

theorem result_add {x : Bool} (hmajor : d.opMajor = .alu) (halt : d.readAlt = false)
    (hminor : d.opMinor = opMinorAdd x) (hy : d.op2 b = y) :
    d.result a b ret = Rv32.AluOp.add.eval a y := by
  simp [Decoded.result, hmajor, halt, hminor, hy, aluAddsubx_add, Rv32.AluOp.eval]

theorem result_sub {x : Bool} (hmajor : d.opMajor = .alu) (halt : d.readAlt = false)
    (hminor : d.opMinor = opMinorSub x) (hy : d.op2 b = y) :
    d.result a b ret = Rv32.AluOp.sub.eval a y := by
  simp [Decoded.result, hmajor, halt, hminor, hy, aluAddsubx_sub, Rv32.AluOp.eval]

theorem result_slt {x : Bool} (hmajor : d.opMajor = .slt) (hsigned : d.sltSigned = true)
    (hminor : d.opMinor = opMinorSub x) (hy : d.op2 b = y) :
    d.result a b ret = Rv32.AluOp.slt.eval a y := by
  rw [Decoded.result, hmajor, if_neg (by decide), if_pos rfl]
  simp only [hsigned, hminor, hy, aluAddsubx_borrow, ult_signs, if_true, Rv32.AluOp.eval]
  cases a.slt y <;> rfl

theorem result_sltu {x : Bool} (hmajor : d.opMajor = .slt) (hsigned : d.sltSigned = false)
    (hminor : d.opMinor = opMinorSub x) (hy : d.op2 b = y) :
    d.result a b ret = Rv32.AluOp.sltu.eval a y := by
  rw [Decoded.result, hmajor, if_neg (by decide), if_pos rfl]
  simp only [hsigned, hminor, hy, aluAddsubx_borrow, Bool.false_eq_true, if_false,
    Rv32.AluOp.eval]
  cases a.ult y <;> rfl

theorem result_xor (hmajor : d.opMajor = .alu) (halt : d.readAlt = false)
    (hminor : d.opMinor = opMinorXor) (hy : d.op2 b = y) :
    d.result a b ret = Rv32.AluOp.xor.eval a y := by
  simp [Decoded.result, hmajor, halt, hminor, hy, opMinorXor, aluLogic, Rv32.AluOp.eval]

theorem result_or (hmajor : d.opMajor = .alu) (halt : d.readAlt = false)
    (hminor : d.opMinor = opMinorOr) (hy : d.op2 b = y) :
    d.result a b ret = Rv32.AluOp.or.eval a y := by
  simp [Decoded.result, hmajor, halt, hminor, hy, opMinorOr, aluLogic, Rv32.AluOp.eval]

theorem result_and (hmajor : d.opMajor = .alu) (halt : d.readAlt = false)
    (hminor : d.opMinor = opMinorAnd) (hy : d.op2 b = y) :
    d.result a b ret = Rv32.AluOp.and.eval a y := by
  simp [Decoded.result, hmajor, halt, hminor, hy, opMinorAnd, aluLogic, Rv32.AluOp.eval]

/-- The amount by which a shift instruction shifts. -/
def Decoded.shamt (d : Decoded) (a : Word) : BitVec 5 :=
  if d.shiftVariable then a.extractLsb 4 0 else d.shiftAmount

theorem result_sll (hmajor : d.opMajor = .shift) (hfn : d.shiftFn = .ll)
    (hn : d.shamt a = y.extractLsb 4 0) :
    d.result a b ret = Rv32.AluOp.sll.eval b y := by
  simp only [Decoded.shamt] at hn
  simp [Decoded.result, hmajor, hfn, hn, barrel_ll, Rv32.AluOp.eval]

theorem result_srl (hmajor : d.opMajor = .shift) (hfn : d.shiftFn = .rl)
    (hn : d.shamt a = y.extractLsb 4 0) :
    d.result a b ret = Rv32.AluOp.srl.eval b y := by
  simp only [Decoded.shamt] at hn
  simp [Decoded.result, hmajor, hfn, hn, barrel_rl, Rv32.AluOp.eval]

theorem result_sra (hmajor : d.opMajor = .shift) (hfn : d.shiftFn = .ra)
    (hn : d.shamt a = y.extractLsb 4 0) :
    d.result a b ret = Rv32.AluOp.sra.eval b y := by
  simp only [Decoded.shamt] at hn
  simp [Decoded.result, hmajor, hfn, hn, barrel_ra, Rv32.AluOp.eval]

end Results

/-- What `funct3` and `funct7` say about single bits of the instruction. -/
theorem getLsbD_30 (w : Word) : w.getLsbD 30 = (Rv32.funct7 w).getLsbD 5 := by
  simp [Rv32.funct7]

theorem getLsbD_25 (w : Word) : w.getLsbD 25 = (Rv32.funct7 w).getLsbD 0 := by
  simp [Rv32.funct7]

theorem extractLsb_immI (w : Word) : (Rv32.immI w).extractLsb 4 0 = w.extractLsb 24 20 := by
  apply BitVec.eq_of_getLsbD_eq
  intro k hk
  simp only [Rv32.immI, BitVec.getLsbD_extractLsb, BitVec.getLsbD_signExtend]
  grind

/-- The decoder of an instruction with an immediate operand, before `funct3`. -/
def rv32RegImmDefault (u : Undef) (w : Word) : Decoded :=
  { rv32Default u w with
    useImmediate := true
    immediateValue := imm32I w
    ignoreReg2 := true }

theorem idecodeRv32_regImm (hop : Rv32.opcode w = 0b0010011#7) :
    idecodeRv32 c u w = rv32RegImm u w (rv32RegImmDefault u w) := by
  rw [Rv32.opcode] at hop
  simp [idecodeRv32, rv32RegImmDefault, hop, rv32iOpLui, rv32iOpAuipc, rv32iOpJal, rv32iOpJalr,
    rv32iOpBranch, rv32iOpLoad, rv32iOpStore, rv32iOpRegImm]

/-- An ALU instruction: only the value it computes depends on the operation. -/
theorem executes_alu {d : Decoded} {v : Word}
    (halt : d.altSel = .pcRet) (hseb : d.sebSehCycle = false) (hcmov : d.cmovCycle = false)
    (hmem : d.memCycle = false) (hwrite : d.memWrite = false) (hbranch : d.branchCycle = false)
    (htarget : d.targetAddr = Rv32.rd w)
    (hlat : d.latency.getLsbD 0 = false → d.opMajor ≠ .shift)
    (hresult : d.result (d.reg1 st) b (Rv32.byteAddr (st.pc + 1)) = v) :
    Executes c d st b (.ofReg st (st.pc + 1) (Rv32.rd w) v) := by
  exact executes_ofReg halt hseb hcmov hmem hwrite htarget hlat hresult
    (next_of_not_branch hbranch)

theorem funct3_sr {f : BitVec 3} (h1 : f ≠ 0#3) (h2 : f ≠ 2#3) (h3 : f ≠ 3#3) (h4 : f ≠ 4#3)
    (h5 : f ≠ 6#3) (h6 : f ≠ 7#3) (h7 : f ≠ 1#3) : f = 5#3 := by
  bv_omega

theorem executes_opImm {op : Rv32.AluOp} (hop : Rv32.opcode w = 0b0010011#7)
    (hf : Rv32.opImmOp w = some op) (hb : (idecodeRv32 c u w).Reads st b) :
    Executes c (idecodeRv32 c u w) st b
      (.ofReg st (st.pc + 1) (Rv32.rd w) (op.eval (st.regs (Rv32.rs1 w)) (Rv32.immI w))) := by
  have himm : imm32I w = Rv32.immI w := imm32I_eq w
  have hshamt : w.extractLsb 24 20 = (Rv32.immI w).extractLsb 4 0 := (extractLsb_immI w).symm
  have hex : (rv32RegImmDefault u w).latency.getLsbD 0 = false →
      (rv32RegImmDefault u w).opMajor ≠ .shift := fun _ => by
    simp [rv32RegImmDefault, rv32Default]
  have hmem : latencyMem.getLsbD 0 = false → OpMajor.shift ≠ .shift := by decide
  rw [idecodeRv32_regImm hop] at hb ⊢
  unfold Rv32.opImmOp Rv32.funct3 at hf
  simp only [rv32RegImm, rv32Fn3Add, rv32Fn3Slt, rv32Fn3Sltu, rv32Fn3Xor, rv32Fn3Or, rv32Fn3And,
    rv32Fn3Sl] at hb ⊢
  split_ifs at hf with h1 h2 h3 h4 h5 h6 h7 h8 h8 h9 <;> cases hf
  · simp only [h1, reduceIte]
    exact executes_alu rfl rfl rfl rfl rfl rfl rfl (fun _ => by simp)
      (result_add rfl rfl rfl himm)
  · simp only [h2, BitVec.reduceEq, reduceIte]
    exact executes_alu rfl rfl rfl rfl rfl rfl rfl (fun _ => by simp)
      (result_slt rfl rfl rfl himm)
  · simp only [h3, BitVec.reduceEq, reduceIte]
    exact executes_alu rfl rfl rfl rfl rfl rfl rfl (fun _ => by simp)
      (result_sltu rfl rfl rfl himm)
  · simp only [h4, BitVec.reduceEq, reduceIte]
    exact executes_alu rfl rfl rfl rfl rfl rfl rfl hex (result_xor rfl rfl rfl himm)
  · simp only [h5, BitVec.reduceEq, reduceIte]
    exact executes_alu rfl rfl rfl rfl rfl rfl rfl hex (result_or rfl rfl rfl himm)
  · simp only [h6, BitVec.reduceEq, reduceIte]
    exact executes_alu rfl rfl rfl rfl rfl rfl rfl hex (result_and rfl rfl rfl himm)
  · simp only [h7, BitVec.reduceEq, reduceIte] at hb ⊢
    obtain rfl := hb.eq rfl
    exact executes_alu rfl rfl rfl rfl rfl rfl rfl hmem (result_sll rfl rfl hshamt)
  · simp only [funct3_sr h1 h2 h3 h4 h5 h6 h7, BitVec.reduceEq, reduceIte] at hb ⊢
    obtain rfl := hb.eq rfl
    refine executes_alu rfl rfl rfl rfl rfl rfl rfl hmem (result_srl rfl ?_ hshamt)
    simp only [rv32ShiftRight, getLsbD_30, h8]
    rfl
  · simp only [funct3_sr h1 h2 h3 h4 h5 h6 h7, BitVec.reduceEq, reduceIte] at hb ⊢
    obtain rfl := hb.eq rfl
    refine executes_alu rfl rfl rfl rfl rfl rfl rfl hmem (result_sra rfl ?_ hshamt)
    simp only [rv32ShiftRight, getLsbD_30, h9]
    rfl

theorem idecodeRv32_regReg (hop : Rv32.opcode w = 0b0110011#7) (h25 : w.getLsbD 25 = false) :
    idecodeRv32 c u w = rv32RegReg u w (rv32Default u w) := by
  rw [Rv32.opcode] at hop
  simp only [idecodeRv32, hop, h25, rv32iOpLui, rv32iOpAuipc, rv32iOpJal, rv32iOpJalr,
    rv32iOpBranch, rv32iOpLoad, rv32iOpStore, rv32iOpRegImm, rv32iOpRegReg, BitVec.reduceEq,
    reduceIte, Bool.not_false]

theorem executes_op {op : Rv32.AluOp} (hop : Rv32.opcode w = 0b0110011#7)
    (hf : Rv32.opOp w = some op) (hb : (idecodeRv32 c u w).Reads st b) :
    Executes c (idecodeRv32 c u w) st b
      (.ofReg st (st.pc + 1) (Rv32.rd w)
        (op.eval (st.regs (Rv32.rs1 w)) (st.regs (Rv32.rs2 w)))) := by
  have hex : (rv32Default u w).latency.getLsbD 0 = false →
      (rv32Default u w).opMajor ≠ .shift := fun _ => by
    simp [rv32Default]
  have hmem : latencyMem.getLsbD 0 = false → OpMajor.shift ≠ .shift := by decide
  have h30 := getLsbD_30 w
  unfold Rv32.opOp Rv32.funct3 at hf
  split_ifs at hf with h7 h1 h2 h3 h4 h5 h6 h8 h7' h1 h2 <;> cases hf
  all_goals
    rw [idecodeRv32_regReg hop (by rw [getLsbD_25, ‹Rv32.funct7 w = _›]; rfl)] at hb ⊢
    simp only [rv32RegReg, rv32Fn3Add, rv32Fn3Slt, rv32Fn3Sltu, rv32Fn3Xor, rv32Fn3Or, rv32Fn3And,
      rv32Fn3Sl] at hb ⊢
  · rw [h7] at h30
    simp only [h1, h30, reduceIte] at hb ⊢
    obtain rfl := hb.eq rfl
    exact executes_alu rfl rfl rfl rfl rfl rfl rfl hex (result_add rfl rfl rfl rfl)
  · simp only [h2, BitVec.reduceEq, reduceIte] at hb ⊢
    obtain rfl := hb.eq rfl
    exact executes_alu rfl rfl rfl rfl rfl rfl rfl hmem (result_sll rfl rfl rfl)
  · simp only [h3, BitVec.reduceEq, reduceIte] at hb ⊢
    obtain rfl := hb.eq rfl
    exact executes_alu rfl rfl rfl rfl rfl rfl rfl (fun _ => by simp)
      (result_slt rfl rfl rfl rfl)
  · simp only [h4, BitVec.reduceEq, reduceIte] at hb ⊢
    obtain rfl := hb.eq rfl
    exact executes_alu rfl rfl rfl rfl rfl rfl rfl (fun _ => by simp)
      (result_sltu rfl rfl rfl rfl)
  · simp only [h5, BitVec.reduceEq, reduceIte] at hb ⊢
    obtain rfl := hb.eq rfl
    exact executes_alu rfl rfl rfl rfl rfl rfl rfl hex (result_xor rfl rfl rfl rfl)
  · rw [h7] at h30
    simp only [h6, BitVec.reduceEq, reduceIte] at hb ⊢
    obtain rfl := hb.eq rfl
    refine executes_alu rfl rfl rfl rfl rfl rfl rfl hmem (result_srl rfl ?_ rfl)
    simp only [rv32ShiftRight, h30]
    rfl
  · simp only [h8, BitVec.reduceEq, reduceIte] at hb ⊢
    obtain rfl := hb.eq rfl
    exact executes_alu rfl rfl rfl rfl rfl rfl rfl hex (result_or rfl rfl rfl rfl)
  · have h : w.extractLsb 14 12 = 7#3 := by bv_omega
    simp only [h, BitVec.reduceEq, reduceIte] at hb ⊢
    obtain rfl := hb.eq rfl
    exact executes_alu rfl rfl rfl rfl rfl rfl rfl hex (result_and rfl rfl rfl rfl)
  · rw [h7'] at h30
    simp only [h1, h30, reduceIte] at hb ⊢
    obtain rfl := hb.eq rfl
    exact executes_alu rfl rfl rfl rfl rfl rfl rfl hex (result_sub rfl rfl rfl rfl)
  · rw [h7'] at h30
    simp only [h2, BitVec.reduceEq, reduceIte] at hb ⊢
    obtain rfl := hb.eq rfl
    refine executes_alu rfl rfl rfl rfl rfl rfl rfl hmem (result_sra rfl ?_ rfl)
    simp only [rv32ShiftRight, h30]
    rfl

theorem idecodeRv32_branch (hop : Rv32.opcode w = 0b1100011#7) :
    idecodeRv32 c u w =
      { rv32Default u w with
        branchCycle := true
        branchOffset := (imm32Sb w).extractLsb 31 2
        branchCondition := w.extractLsb 14 12
        targetAddr := regZero
        opMinor := opMinorSub u.opMinorLsb } := by
  rw [Rv32.opcode] at hop
  simp [idecodeRv32, hop, rv32iOpLui, rv32iOpAuipc, rv32iOpJal, rv32iOpJalr, rv32iOpBranch]

/-- The tests of the EX stage are the ones of the architecture. -/
theorem taken_branch {op : Rv32.BranchOp} (hop : Rv32.opcode w = 0b1100011#7)
    (hf : Rv32.branchOp w = some op) (a b : Word) :
    (idecodeRv32 c u w).taken a b = op.eval a b := by
  rw [idecodeRv32_branch hop]
  unfold Rv32.branchOp Rv32.funct3 at hf
  simp only [Decoded.taken, Decoded.op2, rv32Default, Bool.true_and, Bool.false_eq_true, if_false,
    aluAddsubx_borrow, ult_signs, rv32TestAlways, rv32TestEq, rv32TestNe, rv32TestLt, rv32TestGe,
    rv32TestLtu, rv32TestGeu]
  split_ifs at hf with h1 h2 h3 h4 h5 h6 <;> cases hf
  · simp only [h1, BitVec.reduceEq, reduceIte, Rv32.BranchOp.eval]
  · simp only [h2, BitVec.reduceEq, reduceIte, Rv32.BranchOp.eval]
    rfl
  · simp only [h3, BitVec.reduceEq, reduceIte, Rv32.BranchOp.eval]
  · simp only [h4, BitVec.reduceEq, reduceIte, Rv32.BranchOp.eval]
  · simp only [h5, BitVec.reduceEq, reduceIte, Rv32.BranchOp.eval]
  · simp only [h6, BitVec.reduceEq, reduceIte, Rv32.BranchOp.eval]

theorem executes_branch {op : Rv32.BranchOp} {eff : Rv32.Effect}
    (hop : Rv32.opcode w = 0b1100011#7) (hf : Rv32.branchOp w = some op)
    (heff : Rv32.exec st (.branch op (Rv32.rs1 w) (Rv32.rs2 w) (Rv32.immB w)) = some eff)
    (hb : (idecodeRv32 c u w).Reads st b) :
    Executes c (idecodeRv32 c u w) st b eff := by
  have htaken (a b : Word) := taken_branch (c := c) (u := u) hop hf a b
  rw [idecodeRv32_branch hop] at htaken hb ⊢
  obtain rfl := hb.eq rfl
  obtain rfl := Option.some.inj heff
  refine ⟨rfl, rfl, rfl, ?_, fun _ => rfl, rfl, rfl, rfl, ?_, ?_, ?_, ?_, ?_, fun h => ?_, ?_⟩
  · rw [Decoded.next, htaken]
    simp only [target_byteAddr_add, imm32Sb_eq]
    rfl
  all_goals simp [rv32Default] at *

theorem idecodeRv32_load (hop : Rv32.opcode w = 0b0000011#7) :
    idecodeRv32 c u w =
      { rv32Default u w with
        useImmediate := true
        latency := latencyWb
        ignoreReg2 := true
        memCycle := true
        memReadSignExtend := !w.getLsbD 14
        immediateValue := imm32I w } := by
  rw [Rv32.opcode] at hop
  simp [idecodeRv32, hop, rv32iOpLui, rv32iOpAuipc, rv32iOpJal, rv32iOpJalr, rv32iOpBranch,
    rv32iOpLoad]

theorem getLsbD_14 (w : Word) : w.getLsbD 14 = (w.extractLsb 14 12).getLsbD 2 := by
  simp

theorem extractLsb_13 (w : Word) : w.extractLsb 13 12 = (w.extractLsb 14 12).extractLsb 1 0 := by
  apply BitVec.eq_of_getLsbD_eq
  intro k hk
  simp only [BitVec.getLsbD_extractLsb]
  grind

/-- The load aligner delivers what the architecture loads. -/
theorem memDataAligned_load (hc : IsRv32 c) {op : Rv32.LoadOp} (hf : Rv32.loadOp w = some op)
    (u' : Undef) (mem : Word → BitVec 8) {x : Word} (hx : op.aligned x = true) :
    memDataAligned c u' (rv32MemSize w) (!w.getLsbD 14) (x.extractLsb 1 0)
      (busWord mem (x.extractLsb 31 2)) = op.eval mem x := by
  unfold Rv32.loadOp Rv32.funct3 at hf
  simp only [rv32MemSize, getLsbD_14, extractLsb_13]
  split_ifs at hf with h1 h2 h3 h4 h5 <;> cases hf
  · simp only [h1]
    exact memDataAligned_byte hc.bigEndian u' true mem x
  · simp only [h2]
    exact memDataAligned_half hc.bigEndian u' true mem (by simpa [Rv32.LoadOp.aligned] using hx)
  · simp only [h3]
    exact memDataAligned_word hc.bigEndian u' true mem (by simpa [Rv32.LoadOp.aligned] using hx)
  · simp only [h4]
    exact memDataAligned_byte hc.bigEndian u' false mem x
  · simp only [h5]
    exact memDataAligned_half hc.bigEndian u' false mem (by simpa [Rv32.LoadOp.aligned] using hx)

theorem executes_load (hc : IsRv32 c) {op : Rv32.LoadOp} {eff : Rv32.Effect}
    (hop : Rv32.opcode w = 0b0000011#7) (hf : Rv32.loadOp w = some op)
    (heff : Rv32.exec st (.load op (Rv32.rd w) (Rv32.rs1 w) (Rv32.immI w)) = some eff) :
    Executes c (idecodeRv32 c u w) st b eff := by
  rw [idecodeRv32_load hop]
  simp only [Rv32.exec] at heff
  split at heff
  next hx =>
      obtain rfl := Option.some.inj heff
      refine ⟨rfl, rfl, rfl, ?_, fun u' => ?_, rfl, ?_, rfl, fun _ => rfl, fun _ => rfl,
        fun _ => ⟨_, rfl⟩, fun _ _ => rfl, fun _ h => ?_, fun h => ?_, fun h => ?_⟩
      · rw [next_of_not_branch rfl]
        rfl
      · have hsum : Decoded.sum { rv32Default u w with
            useImmediate := true
            latency := latencyWb
            ignoreReg2 := true
            memCycle := true
            memReadSignExtend := !w.getLsbD 14
            immediateValue := imm32I w } st b = st.regs (Rv32.rs1 w) + Rv32.immI w := by
          rw [← imm32I_eq]
          exact aluAddsubx_add _ _ _
        rw [Decoded.value, if_pos rfl, hsum]
        exact congrArg (fun v => if Rv32.rd w = regZero then none else some (Rv32.rd w, v))
          (memDataAligned_load hc hf u' st.mem hx).symm
      · by_cases h : Rv32.rd w = 0#5 <;> simp [Rv32.Effect.ofReg, Rv32.writeReg, h]
      · simp [rv32Default] at h
      · simp [rv32Default] at h
      · simp [latencyWb] at h
  next =>
      simp at heff

theorem idecodeRv32_store (hop : Rv32.opcode w = 0b0100011#7) :
    idecodeRv32 c u w =
      { rv32Default u w with
        useImmediate := true
        immediateValue := imm32S w
        targetAddr := regZero
        memCycle := true
        memWrite := true } := by
  rw [Rv32.opcode] at hop
  simp [idecodeRv32, hop, rv32iOpLui, rv32iOpAuipc, rv32iOpJal, rv32iOpJalr, rv32iOpBranch,
    rv32iOpLoad, rv32iOpStore]

/-- The bytes on the data bus are the ones the architecture stores. -/
theorem busBytes_store {op : Rv32.StoreOp} (hf : Rv32.storeOp w = some op) {x : Word} (v : Word)
    (hx : op.aligned x = true) :
    busBytes (x.extractLsb 31 2) (memByteSel (rv32MemSize w) (x.extractLsb 1 0))
      (storeData (rv32MemSize w) (x.extractLsb 1 0) v) = op.bytes x v := by
  unfold Rv32.storeOp Rv32.funct3 at hf
  simp only [rv32MemSize, extractLsb_13]
  split_ifs at hf with h1 h2 h3 <;> cases hf
  · simp only [h1]
    exact busBytes_byte x v
  · simp only [h2]
    exact busBytes_half (by simpa [Rv32.StoreOp.aligned] using hx) v
  · simp only [h3]
    exact busBytes_word (by simpa [Rv32.StoreOp.aligned] using hx) v

theorem executes_store {op : Rv32.StoreOp} {eff : Rv32.Effect}
    (hop : Rv32.opcode w = 0b0100011#7) (hf : Rv32.storeOp w = some op)
    (heff : Rv32.exec st (.store op (Rv32.rs1 w) (Rv32.rs2 w) (Rv32.immS w)) = some eff)
    (hb : (idecodeRv32 c u w).Reads st b) :
    Executes c (idecodeRv32 c u w) st b eff := by
  rw [idecodeRv32_store hop] at hb ⊢
  obtain rfl := hb.eq rfl
  simp only [Rv32.exec] at heff
  split at heff
  next hx =>
      obtain rfl := Option.some.inj heff
      refine ⟨rfl, rfl, rfl, ?_, fun _ => rfl, ?_, rfl, rfl, fun _ => rfl, fun _ => rfl,
        fun _ => ⟨_, rfl⟩, fun _ h => absurd rfl h, fun _ _ => rfl, fun _ => rfl, fun _ => ?_⟩
      · rw [next_of_not_branch rfl]
      · have hsum : Decoded.sum { rv32Default u w with
            useImmediate := true
            immediateValue := imm32S w
            targetAddr := regZero
            memCycle := true
            memWrite := true } st (st.regs (Rv32.rs2 w)) =
              st.regs (Rv32.rs1 w) + Rv32.immS w := by
          rw [← imm32S_eq]
          exact aluAddsubx_add _ _ _
        rw [Bool.and_self, if_pos rfl, Decoded.bytes]
        erw [hsum]
        exact congrArg some (busBytes_store hf (st.regs (Rv32.rs2 w)) hx).symm
      · simp [rv32Default]
  next =>
      simp at heff

/--
The decoder's outputs for every RV32I instruction have the effect that the
architecture gives the instruction, whatever the undefined lines carry.
-/
theorem executes_of_effect (hc : IsRv32 c) (hx0 : st.regs 0#5 = 0#32) {eff : Rv32.Effect}
    (heff : (Rv32.decode w).bind (Rv32.exec st) = some eff)
    (hb : (idecodeRv32 c u w).Reads st b) :
    Executes c (idecodeRv32 c u w) st b eff := by
  obtain ⟨ins, hdec, hexec⟩ := Option.bind_eq_some_iff.mp heff
  unfold Rv32.decode at hdec
  split_ifs at hdec with h1 h2 h3 h4 h4' h5 h6 h7 h8 h9
  · cases hdec
    obtain rfl := Option.some.inj hexec
    exact executes_lui h1 hx0
  · cases hdec
    obtain rfl := Option.some.inj hexec
    exact executes_auipc h2
  · cases hdec
    obtain rfl := Option.some.inj hexec
    exact executes_jal h3
  · cases hdec
    obtain rfl := Option.some.inj hexec
    exact executes_jalr h4
  · obtain ⟨op, hop, rfl⟩ := Option.map_eq_some_iff.mp hdec
    exact executes_branch h5 hop hexec hb
  · obtain ⟨op, hop, rfl⟩ := Option.map_eq_some_iff.mp hdec
    exact executes_load hc h6 hop hexec
  · obtain ⟨op, hop, rfl⟩ := Option.map_eq_some_iff.mp hdec
    exact executes_store h7 hop hexec hb
  · obtain ⟨op, hop, rfl⟩ := Option.map_eq_some_iff.mp hdec
    obtain rfl := Option.some.inj hexec
    exact executes_opImm h8 hop hb
  · obtain ⟨op, hop, rfl⟩ := Option.map_eq_some_iff.mp hdec
    obtain rfl := Option.some.inj hexec
    exact executes_op h9 hop hb

end Instructions

end Core
end F32c
