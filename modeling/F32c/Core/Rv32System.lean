import F32c.Core.Rv32Exec

/-!
# The RV32 core with its memories

The core next to an instruction memory that answers in the same clock and a data
memory that answers a request in any clock it chooses.  The system keeps a log
of the writes to the register file and of the stores on the data bus.

The second half of the module says what one clock does to each group of
pipeline registers in this configuration.
-/

namespace F32c
namespace Core

/-- The core, its data memory, and what was written so far. -/
structure Rv32System where
  core : State
  mem : Word → BitVec 8
  writes : List (RegAddr × Word)
  stores : List Rv32.Store

namespace Rv32System

variable (c : Config)
variable (prog : Addr → Word)
variable (m : Rv32System)
variable (i : Input)

/-- The inputs of the core: a fetch and an answered read see the memories, the rest is free. -/
def input : Input :=
  { i with
    reset := false
    imemDataReady := true
    imemDataIn := prog (imemAddr c m.core i)
    dmemDataIn := if i.dmemDataReady then busWord m.mem (dmemAddr m.core) else i.dmemDataIn }

/-- The bytes of the store in the MEM stage. -/
def memStore : Rv32.Store :=
  busBytes (dmemAddr m.core) m.core.exMem.memByteSel (dmemDataOut c m.core)

/-- The store on the data bus. -/
def pendingStore : Option Rv32.Store :=
  if m.core.exMem.memCycle && m.core.exMem.memWrite then some (memStore c m) else none

/-- The store that the data memory accepts in this clock. -/
def acceptedStore : Option Rv32.Store :=
  if i.dmemDataReady then pendingStore c m else none

/-- The write to a register other than zero in this clock. -/
def regWrite : Option (RegAddr × Word) :=
  if m.core.memWb.writeEnable && m.core.memWb.writebackAddr != regZero then
    some (m.core.memWb.writebackAddr, wbWritebackData c m.core i)
  else none

/-- One clock of the system. -/
def step : Rv32System :=
  { core := Core.step c m.core (input c prog m i)
    mem := (acceptedStore c m i).elim m.mem (Rv32.writeBytes m.mem)
    writes := m.writes ++ (regWrite c m i).toList
    stores := m.stores ++ (acceptedStore c m i).toList }

end Rv32System

section Steady

/-- Registers that this configuration never changes. -/
structure Steady (s : State) : Prop where
  rReset : s.rReset = false
  branchTaken : s.exMem.branchTaken = false
  eip : s.exMem.eip = false
  fetchInProgress : s.ifId.fetchInProgress = false
  incompleteBranch : s.ifId.incompleteBranch = false
  pcNext : s.ifId.pcNext = s.ifId.pc
  multicycleLhLb : s.idEx.multicycleLhLb = false
  branchDelayFollows : s.idEx.branchDelayFollows = false
  predictTaken : s.idEx.predictTaken = false
  cmovCycle : s.idEx.cmovCycle = false

variable {c : Config}
variable {s : State}
variable {i : Input}

theorem IsRv32.mask (hc : IsRv32 c) (a : Addr) : a &&& Core.pcMask c = a := by
  rw [Core.pcMask, hc.pcMask]
  exact BitVec.and_allOnes

theorem IsRv32.mask_left (hc : IsRv32 c) (a : Addr) : Core.pcMask c &&& a = a := by
  rw [BitVec.and_comm, hc.mask]

theorem IsRv32.clkRun (hc : IsRv32 c) : Core.clkRun c i = true := by
  simp [Core.clkRun, hc.cache]

theorem IsRv32.memRunning (hc : IsRv32 c) :
    Core.memRunning c s i = (!s.exMem.memCycle || i.dmemDataReady) := by
  simp [Core.memRunning, hc.cache, hc.fullShifter]

theorem IsRv32.memCancelEx (hc : IsRv32 c) : Core.memCancelEx c s = s.exMem.takeBranch := by
  simp [Core.memCancelEx, hc.arch]

theorem Steady.memTakeBranch (hs : Steady s) : Core.memTakeBranch s = s.exMem.takeBranch := by
  simp [Core.memTakeBranch, hs.branchTaken]

theorem IsRv32.exRunning (hc : IsRv32 c) : Core.exRunning c s i = Core.memRunning c s i := by
  simp [Core.exRunning, hc.exceptions, hc.multEnable]

theorem IsRv32.exException (hc : IsRv32 c) : Core.exException c s = false := by
  simp [Core.exException, hc.exceptions]

theorem IsRv32.idDecoded (hc : IsRv32 c) :
    Core.idDecoded c s i = idecodeRv32 c i.undef s.ifId.instruction := by
  simp [Core.idDecoded, idecode, hc.arch]

theorem IsRv32.idPredictTaken (hc : IsRv32 c) : Core.idPredictTaken c s i = false := by
  simp [Core.idPredictTaken, hc.arch]

theorem ifNeedRefetch_of_ready (hs : Steady s) (hi : i.imemDataReady = true) :
    ifNeedRefetch s i = false := by
  simp [ifNeedRefetch, hi, hs.fetchInProgress]

/-- Outputs of the decoder that hold for every instruction word. -/
theorem idecodeRv32_jumpCycle (c : Config) (u : Undef) (w : Word) :
    (idecodeRv32 c u w).jumpCycle = false := by
  unfold idecodeRv32 rv32RegImm rv32RegReg rv32Shift
  simp only [apply_ite Decoded.jumpCycle, rv32Default, ite_self]

theorem idecodeRv32_cmovCycle (c : Config) (u : Undef) (w : Word) :
    (idecodeRv32 c u w).cmovCycle = false := by
  unfold idecodeRv32 rv32RegImm rv32RegReg rv32Shift
  simp only [apply_ite Decoded.cmovCycle, rv32Default, ite_self]

theorem idecodeRv32_sebSehCycle (c : Config) (u : Undef) (w : Word) :
    (idecodeRv32 c u w).sebSehCycle = false := by
  unfold idecodeRv32 rv32RegImm rv32RegReg rv32Shift
  simp only [apply_ite Decoded.sebSehCycle, rv32Default, ite_self]

/-- The flags that say which register ports are read. -/
structure PortFlags (d : Decoded) : Prop where
  reg1Zero : d.reg1Zero = (d.reg1Addr == regZero)
  reg2Zero : d.reg2Zero = (d.reg2Addr == regZero)
  reg1Pc : d.reg1Pc = true → d.reg1Zero = true
  ignoreReg2 : d.reg2Zero = true → d.ignoreReg2 = true

theorem rv32RegImm_portFlags (u : Undef) (w : Word) {d : Decoded} (h : PortFlags d)
    (hpc : d.reg1Pc = false) : PortFlags (rv32RegImm u w d) := by
  unfold rv32RegImm
  split_ifs <;>
    exact ⟨by first | exact h.reg1Zero | rfl, by first | exact h.reg2Zero | rfl,
      fun ht => Bool.noConfusion (hpc.symm.trans ht), by first | exact h.ignoreReg2 | exact id⟩

theorem rv32RegReg_portFlags (u : Undef) (w : Word) {d : Decoded} (h : PortFlags d)
    (hpc : d.reg1Pc = false) : PortFlags (rv32RegReg u w d) := by
  unfold rv32RegReg
  split_ifs <;>
    exact ⟨by first | exact h.reg1Zero | rfl, by first | exact h.reg2Zero | rfl,
      fun ht => Bool.noConfusion (hpc.symm.trans ht), by first | exact h.ignoreReg2 | exact id⟩

theorem idecodeRv32_portFlags (c : Config) (u : Undef) (w : Word) :
    PortFlags (idecodeRv32 c u w) := by
  have hd : PortFlags (rv32Default u w) := ⟨rfl, rfl, fun ht => Bool.noConfusion ht, id⟩
  rw [idecodeRv32]
  repeat' refine iteInduction (fun _ => ?_) fun _ => ?_
  all_goals first
    | exact rv32RegImm_portFlags u w ⟨rfl, rfl, fun ht => Bool.noConfusion ht, fun _ => rfl⟩ rfl
    | exact rv32RegReg_portFlags u w hd rfl
    | exact ⟨rfl, rfl, fun _ => rfl, fun _ => rfl⟩
    | exact ⟨rfl, rfl, fun ht => Bool.noConfusion ht, fun _ => rfl⟩
    | exact ⟨rfl, rfl, fun ht => Bool.noConfusion ht, id⟩

/-- When the ID stage moves on. -/
theorem IsRv32.idRunning (hc : IsRv32 c) (hs : Steady s) (hi : i.imemDataReady = true) :
    Core.idRunning c s i = (s.idEx.cancelNext ||
      (Core.memRunning c s i && !idLoadAlignHazard c s i && idNoHazard c s i)) := by
  have hmi : (Arch.rv32 == Arch.mi32) = false := rfl
  simp [Core.idRunning, ifFetchComplete, hi, hc.exRunning, hs.multicycleLhLb,
    idJumpRegisterHazard, hc.arch, hmi]

/-- The MEM stage: stalled, cleared after a taken branch, or loaded. -/
theorem IsRv32.exMemNext (hc : IsRv32 c) (hs : Steady s) :
    Core.exMemNext c s i =
      if Core.memRunning c s i then
        if s.exMem.takeBranch then exMemBubble c s.exMem else exMemLoad c s i s.exMem
      else s.exMem := by
  simp only [Core.exMemNext, hc.clkRun, hc.llSc, hc.fullShifter, hs.rReset, exInsertBubble,
    exLeave, hc.exRunning, hc.memCancelEx, hc.exceptions]
  cases Core.memRunning c s i
  · simp
  · cases s.exMem.takeBranch <;> simp [exMemBubble, exMemLoad]

/-- What the EX stage keeps while it is stalled. -/
def idExHold (c : Config) (s : State) (i : Input) : IdEx :=
  { s.idEx with
    cancelNext := !Core.idRunning c s i && (s.exMem.takeBranch || s.idEx.cancelNext)
    mulCompound := s.idEx.mulCompound }

/-- The EX stage: stalled, empty, or loaded. -/
theorem IsRv32.idExNext (hc : IsRv32 c) (hs : Steady s) (hi : i.imemDataReady = true) :
    Core.idExNext c s i =
      if Core.memRunning c s i then
        if idInsertBubble c s i then idExBubble c s i (idExHold c s i)
        else { idExLoad c s i (idExHold c s i) with
          cancelNext := (s.exMem.takeBranch && !Core.idRunning c s i) || s.idEx.cancelNext }
      else idExHold c s i := by
  simp only [Core.idExNext, idExHold, hc.clkRun, hc.exRunning, hc.loadAligner, hs.rReset,
    hs.memTakeBranch, ifFetchComplete, hi, hc.multEnable, hc.exceptions, hs.eip]
  cases Core.memRunning c s i
  · cases hr : Core.idRunning c s i <;> simp
  · cases idInsertBubble c s i
    · simp [idExLoad, hc.multEnable]
    · cases hr : Core.idRunning c s i <;> simp [idExBubble, hr, hs.eip]

theorem IsRv32.ifPc (hc : IsRv32 c) (hs : Steady s) :
    Core.ifPc c s = if s.exMem.takeBranch then s.exMem.branchTarget else s.ifId.pc := by
  simp [Core.ifPc, hc.regIfPc, hs.memTakeBranch]

/-- The next address that is fetched: the following one, or the same one again. -/
theorem IsRv32.ifPcNext (hc : IsRv32 c) (hs : Steady s) (hi : i.imemDataReady = true) :
    Core.ifPcNext c s i =
      if Core.idRunning c s i then Core.ifPc c s + 1 else Core.ifPc c s := by
  simp only [Core.ifPcNext, hc.regIfPc, hs.memTakeBranch, ifNeedRefetch_of_ready hs hi,
    hs.incompleteBranch, hc.idDecoded, idecodeRv32_jumpCycle, hc.idPredictTaken, hs.pcNext,
    hc.ifPc hs]
  cases Core.idRunning c s i <;> cases s.exMem.takeBranch <;> simp

/-- The ID stage: loaded with the fetched instruction, emptied, or stalled. -/
theorem IsRv32.ifIdNext (hc : IsRv32 c) (hs : Steady s) (hi : i.imemDataReady = true) :
    (Core.ifIdNext c s i).pc = Core.ifPcNext c s i ∧
    (Core.ifIdNext c s i).pcNext = Core.ifPcNext c s i ∧
    (Core.ifIdNext c s i).fetchInProgress = false ∧
    (Core.ifIdNext c s i).incompleteBranch = false ∧
    (Core.ifIdNext c s i).epc = (if Core.idRunning c s i then Core.ifPc c s else s.ifId.epc) ∧
    (Core.ifIdNext c s i).instruction =
      (if Core.idRunning c s i then i.imemDataIn
      else if exTakeBranch c s then 0#32 else s.ifId.instruction) ∧
    (Core.ifIdNext c s i).bubble =
      (!Core.idRunning c s i && !exTakeBranch c s && s.ifId.bubble) := by
  have hmi : (Arch.rv32 == Arch.mi32) = false := rfl
  simp only [Core.ifIdNext, hc.clkRun, ifNeedRefetch_of_ready hs hi, hs.incompleteBranch, hs.rReset,
    hc.arch, hmi, hi, ifPcExtNext, hc.mask]
  cases Core.idRunning c s i <;> cases exTakeBranch c s <;>
    simp [ifIdFetched, hc.exceptions, hc.arch, ifInstruction, endian, hc.bigEndian]

/-- The WB stage: empty while the MEM stage is stalled, or loaded. -/
theorem IsRv32.memWbNext (hc : IsRv32 c) :
    Core.memWbNext c s i =
      if Core.memRunning c s i then
        { memCycle := s.exMem.memCycle
          memReadSignExtend := s.exMem.memReadSignExtend
          memAddrOffset := s.exMem.addsubData.extractLsb 1 0
          memSize := s.exMem.memSize
          writebackAddr := s.exMem.writebackAddr
          multicycleLhLb := false
          writeEnable := s.exMem.writebackAddr != regZero
          exData := if s.exMem.opMajor = .shift then memFromShift c s else memEffData s
          memData := i.dmemDataIn }
      else { s.memWb with writeEnable := false } := by
  simp only [Core.memWbNext, hc.clkRun, hc.cache, hc.llSc, hc.loadAligner]
  cases Core.memRunning c s i <;> simp [memDataIn, endian, hc.bigEndian]

end Steady

end Core
end F32c
