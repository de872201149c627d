import F32c.Core.Rv32System

/-!
# The RV32 pipeline refines the architecture

An instruction counts as executed when it leaves the EX stage.  The simulation
relation compares the system with the architectural run after all instructions
executed so far.  `Backend` says that registers, memory and logs agree once the
contents of the MEM and the WB stage are accounted for; `Front` says what the
earlier stages hold of the instructions that come next.
-/

namespace F32c
namespace Core
namespace Rv32System

variable {c : Config}
variable {prog : Addr → Word}
variable {m : Rv32System}
variable {r : Rv32.Run}
variable {i : Input}

section Backend

/-- The value that the instruction in the MEM stage will write. -/
def memResult (c : Config) (m : Rv32System) (u : Undef) : Word :=
  if m.core.exMem.memCycle then
    memDataAligned c u m.core.exMem.memSize m.core.exMem.memReadSignExtend
      (m.core.exMem.addsubData.extractLsb 1 0) (busWord m.mem (dmemAddr m.core))
  else if m.core.exMem.opMajor = .shift then memFromShift c m.core
  else memEffData m.core

/-- The write of the instruction in the MEM stage. -/
def pendingWrite (c : Config) (m : Rv32System) (u : Undef) : Option (RegAddr × Word) :=
  if m.core.exMem.writebackAddr = regZero then none
  else some (m.core.exMem.writebackAddr, memResult c m u)

/-- A register, with the write of the WB stage. -/
def wbReg (c : Config) (m : Rv32System) (i : Input) (a : RegAddr) : Word :=
  if a = m.core.memWb.writebackAddr then wbWritebackData c m.core i else m.core.mR a

/-- A register, with the writes of the MEM and the WB stage. -/
def pendingReg (c : Config) (m : Rv32System) (i : Input) (a : RegAddr) : Word :=
  if a = m.core.exMem.writebackAddr then memResult c m i.undef else wbReg c m i a

/-- The WB stage, the register file, the memory and the logs agree with a run. -/
structure Drained (c : Config) (m : Rv32System) (r : Rv32.Run) : Prop where
  zero : m.core.mR regZero = 0#32
  runZero : r.st.regs regZero = 0#32
  regs : ∀ i a, a ≠ regZero → wbReg c m i a = r.st.regs a
  settled : ∀ i, m.core.memWb.writeEnable = false → m.core.memWb.writebackAddr ≠ regZero →
    m.core.mR m.core.memWb.writebackAddr = wbWritebackData c m.core i
  enabled : m.core.memWb.writeEnable = true → m.core.memWb.writebackAddr ≠ regZero
  mem : r.st.mem = m.mem
  writes : ∀ i, r.writes = m.writes ++ (regWrite c m i).toList
  stores : r.stores = m.stores

/-- The same with the instruction in the MEM stage. -/
structure Backend (c : Config) (m : Rv32System) (r : Rv32.Run) : Prop where
  zero : m.core.mR regZero = 0#32
  runZero : r.st.regs regZero = 0#32
  regs : ∀ i a, a ≠ regZero → pendingReg c m i a = r.st.regs a
  settled : ∀ i, m.core.memWb.writeEnable = false → m.core.memWb.writebackAddr ≠ regZero →
    m.core.mR m.core.memWb.writebackAddr = wbWritebackData c m.core i
  enabled : m.core.memWb.writeEnable = true → m.core.memWb.writebackAddr ≠ regZero
  load : m.core.exMem.memCycle = true → m.core.exMem.writebackAddr ≠ regZero →
    m.core.exMem.latency = true
  mem : r.st.mem = (pendingStore c m).elim m.mem (Rv32.writeBytes m.mem)
  writes : ∀ i, r.writes =
    m.writes ++ (regWrite c m i).toList ++ (pendingWrite c m i.undef).toList
  stores : r.stores = m.stores ++ (pendingStore c m).toList

/-- Nothing in the MEM stage. -/
theorem Drained.backend (h : Drained c m r) (hwb : m.core.exMem.writebackAddr = regZero)
    (hmem : m.core.exMem.memCycle = false) : Backend c m r where
  zero := h.zero
  runZero := h.runZero
  regs i a ha := by rw [pendingReg, hwb, if_neg ha, h.regs i a ha]
  settled := h.settled
  enabled := h.enabled
  load hm := by simp [hmem] at hm
  mem := by simp [pendingStore, hmem, h.mem]
  writes i := by simp [pendingWrite, hwb, h.writes i]
  stores := by simp [pendingStore, hmem, h.stores]

/-- The MEM stage was loaded with an instruction whose effect is `eff`. -/
theorem Drained.backend_apply (h : Drained c m r) {eff : Rv32.Effect} (u : Undef)
    (hwrite : ∀ u, pendingWrite c m u = eff.write) (hstore : pendingStore c m = eff.store)
    (hregs : eff.next.regs =
      match eff.write with
      | none => r.st.regs
      | some (a, v) => Function.update r.st.regs a v)
    (hmem : eff.next.mem =
      match eff.store with
      | none => r.st.mem
      | some bytes => Rv32.writeBytes r.st.mem bytes)
    (hload : m.core.exMem.memCycle = true → m.core.exMem.writebackAddr ≠ regZero →
      m.core.exMem.latency = true) :
    Backend c m (r.apply eff) where
  zero := h.zero
  runZero := by
    rw [Rv32.Run.apply, hregs, ← hwrite u, pendingWrite]
    split_ifs with hwb
    · exact h.runZero
    · simpa [Function.update, Ne.symm hwb] using h.runZero
  regs i a ha := by
    rw [Rv32.Run.apply, hregs, ← hwrite i.undef, pendingWrite, pendingReg]
    split_ifs with haw hwb hwb
    · exact absurd (haw.trans hwb) ha
    · simp [haw]
    · exact h.regs i a ha
    · simpa [haw] using h.regs i a ha
  settled := h.settled
  enabled := h.enabled
  load := hload
  mem := by
    rw [hstore, Rv32.Run.apply, hmem, ← h.mem]
    cases eff.store <;> rfl
  writes i := by
    rw [hwrite, ← h.writes i]
    rfl
  stores := by
    rw [hstore, ← h.stores]
    rfl

/-- The value in the MEM stage does not depend on the undefined lines. -/
theorem Backend.pendingWrite_eq (h : Backend c m r) (u : Undef) (i : Input) :
    pendingWrite c m u = pendingWrite c m i.undef := by
  rw [pendingWrite, pendingWrite]
  split_ifs with hwb
  · rfl
  · have h1 := h.regs i _ hwb
    have h2 := h.regs { i with undef := u } _ hwb
    rw [pendingReg, if_pos rfl] at h1 h2
    rw [h1, ← h2]

/-- Nor does the value in the WB stage. -/
theorem Backend.wbWritebackData_eq (h : Backend c m r) (i j : Input)
    (hne : m.core.memWb.writebackAddr ≠ regZero) :
    wbWritebackData c m.core i = wbWritebackData c m.core j := by
  cases hen : m.core.memWb.writeEnable
  · rw [← h.settled i hen hne, h.settled j hen hne]
  · have hlogs := (h.writes i).symm.trans (h.writes j)
    rw [h.pendingWrite_eq i.undef j] at hlogs
    have hwrite := List.append_cancel_left (List.append_cancel_right hlogs)
    simpa [regWrite, hen, hne] using hwrite

section Clock

theorem input_undef : (input c prog m i).undef = i.undef := by
  rfl

/-- A read that the data memory answers returns the addressed word. -/
theorem input_dmemDataIn (hc : IsRv32 c) (hmem : m.core.exMem.memCycle = true)
    (hrun : memRunning c m.core (input c prog m i) = true) :
    (input c prog m i).dmemDataIn = busWord m.mem (dmemAddr m.core) := by
  rw [hc.memRunning, hmem] at hrun
  have hready : i.dmemDataReady = true := hrun
  simp [input, hready]

theorem wbWritebackData_input :
    wbWritebackData c m.core (input c prog m i) = wbWritebackData c m.core i := by
  rfl

/-- The WB stage receives the value of the instruction in the MEM stage. -/
theorem wbWritebackData_step (hc : IsRv32 c)
    (hrun : memRunning c m.core (input c prog m i) = true) (j : Input) :
    wbWritebackData c (step c prog m i).core j = memResult c m j.undef := by
  have hwb : (step c prog m i).core.memWb = _ := hc.memWbNext
  rw [hrun, if_pos rfl] at hwb
  simp only [wbWritebackData, wbMemDataAligned, hwb, hc.loadAligner, memResult]
  cases hmem : m.core.exMem.memCycle
  · simp
  · simp [input_dmemDataIn hc hmem hrun]

/-- The register file after the write of the WB stage. -/
theorem mR_step (a : RegAddr) :
    (step c prog m i).core.mR a =
      if m.core.memWb.writeEnable = true ∧ a = m.core.memWb.writebackAddr then
        wbWritebackData c m.core i
      else m.core.mR a := by
  show regfileWritten c m.core (input c prog m i) a = _
  rw [regfileWritten]
  cases hen : m.core.memWb.writeEnable
  · simp
  · by_cases ha : a = m.core.memWb.writebackAddr
    · simp [ha, wbWritebackData, wbMemDataAligned, input_undef]
    · simp [ha]

/-- The register file holds what the WB stage shows, once its write happened. -/
theorem Backend.mR_step_eq (h : Backend c m r) (a : RegAddr) (ha : a ≠ regZero) :
    (step c prog m i).core.mR a = wbReg c m i a := by
  rw [mR_step, wbReg]
  by_cases haw : a = m.core.memWb.writebackAddr
  · cases hen : m.core.memWb.writeEnable
    · simpa [haw] using h.settled i hen (haw ▸ ha)
    · simp [haw]
  · simp [haw]

theorem Backend.mR_step_zero (h : Backend c m r) :
    (step c prog m i).core.mR regZero = 0#32 := by
  rw [mR_step, if_neg, h.zero]
  rintro ⟨hen, hwb⟩
  exact h.enabled hen hwb.symm

/-- When the MEM stage runs, its instruction moves on to the WB stage. -/
theorem Backend.drained (hc : IsRv32 c) (h : Backend c m r)
    (hrun : memRunning c m.core (input c prog m i) = true) :
    Drained c (step c prog m i) r := by
  have hwb : (step c prog m i).core.memWb = _ := hc.memWbNext
  rw [hrun, if_pos rfl] at hwb
  have haddr : (step c prog m i).core.memWb.writebackAddr = m.core.exMem.writebackAddr := by
    rw [hwb]
  have hen : (step c prog m i).core.memWb.writeEnable =
      (m.core.exMem.writebackAddr != regZero) := by
    rw [hwb]
  have haccept : acceptedStore c m i = pendingStore c m := by
    rw [acceptedStore]
    split_ifs with hready
    · rfl
    · rw [hc.memRunning] at hrun
      have hmem : m.core.exMem.memCycle = false := by
        simpa [input, hready] using hrun
      simp [pendingStore, hmem]
  refine ⟨h.mR_step_zero, h.runZero, ?_, ?_, ?_, ?_, ?_, ?_⟩
  · intro j a ha
    rw [← h.regs j a ha, wbReg, haddr, pendingReg, wbWritebackData_step hc hrun]
    split_ifs with haw
    · rfl
    · rw [h.mR_step_eq a ha]
      have hi := h.regs i a ha
      have hj := h.regs j a ha
      rw [pendingReg, if_neg haw] at hi hj
      rw [hi, hj]
  · intro j hoff hne
    rw [hen, haddr] at *
    simp [hne] at hoff
  · intro hon
    rw [hen] at hon
    rw [haddr]
    simpa using hon
  · rw [h.mem, ← haccept]
    rfl
  · intro j
    have hnew : regWrite c (step c prog m i) j = pendingWrite c m j.undef := by
      rw [regWrite, pendingWrite, hen, haddr, wbWritebackData_step hc hrun]
      by_cases hne : m.core.exMem.writebackAddr = regZero <;> simp [hne]
    rw [h.writes i, hnew, h.pendingWrite_eq j.undef i]
    rfl
  · rw [h.stores, ← haccept]
    rfl

/-- While the MEM stage waits for the data memory, only the write of the WB stage happens. -/
theorem Backend.stalled (hc : IsRv32 c) (hs : Steady m.core) (h : Backend c m r)
    (hrun : memRunning c m.core (input c prog m i) = false) :
    Backend c (step c prog m i) r := by
  have hwb : (step c prog m i).core.memWb = _ := hc.memWbNext
  have hex : (step c prog m i).core.exMem = _ := hc.exMemNext hs
  rw [hrun, if_neg Bool.false_ne_true] at hwb hex
  have haccept : acceptedStore c m i = none := by
    rw [hc.memRunning] at hrun
    have hready : i.dmemDataReady = false := by
      simp only [input, Bool.or_eq_false_iff] at hrun
      exact hrun.2
    simp [acceptedStore, hready]
  have hmem : (step c prog m i).mem = m.mem := by
    rw [step, haccept]
    rfl
  have hdata (j : Input) :
      wbWritebackData c (step c prog m i).core j = wbWritebackData c m.core j := by
    simp only [wbWritebackData, wbEffData, wbMemDataAligned, hwb]
  have hresult (u : Undef) : memResult c (step c prog m i) u = memResult c m u := by
    simp only [memResult, hmem, hex, dmemAddr, memFromShift, memShiftStage4, memShamt, memEffData,
      hc.loadAligner, Bool.not_true, Bool.false_and, Bool.false_eq_true, if_false]
  have hpending (u : Undef) : pendingWrite c (step c prog m i) u = pendingWrite c m u := by
    rw [pendingWrite, pendingWrite, hex, hresult]
  have hstore : pendingStore c (step c prog m i) = pendingStore c m := by
    simp only [pendingStore, memStore, hex, dmemAddr, dmemDataOut]
  refine ⟨h.mR_step_zero, h.runZero, ?_, ?_, ?_, ?_, ?_, ?_, ?_⟩
  · intro j a ha
    have hreg : wbReg c (step c prog m i) j a = wbReg c m j a := by
      have haddr : (step c prog m i).core.memWb.writebackAddr = m.core.memWb.writebackAddr := by
        rw [hwb]
      rw [wbReg, wbReg, hdata, haddr, h.mR_step_eq a ha, wbReg]
      split_ifs <;> rfl
    rw [← h.regs j a ha, pendingReg, pendingReg, hex, hresult, hreg]
  · intro j _ hne
    rw [hwb] at hne
    rw [hdata, hwb]
    rw [h.mR_step_eq _ hne, wbReg, if_pos rfl, h.wbWritebackData_eq i j hne]
  · intro hon
    rw [hwb] at hon
    simp at hon
  · rw [hex]
    exact h.load
  · rw [hstore, hmem]
    exact h.mem
  · intro j
    have hnone : regWrite c (step c prog m i) j = none := by
      rw [regWrite, hwb]
      simp
    rw [hnone, hpending, h.writes i, h.pendingWrite_eq j.undef i]
    simp [step]
  · rw [hstore, h.stores]
    simp [step, haccept]

end Clock

end Backend

section Leave

variable {s : State}
variable {st : Rv32.State}
variable {d : Decoded}
variable {b : Word}
variable {eff : Rv32.Effect}
variable {q : ExMem}

/-- The value in the MEM stage after an instruction left the EX stage. -/
theorem memResult_exMemLoad (hc : IsRv32 c) (h : ExHolds c s d (d.reg1 st) b)
    (hx : Executes c d st b eff) (hret : s.ifId.epc = st.pc + 1)
    (hex : m.core.exMem = exMemLoad c s i q) (hmem : st.mem = m.mem) (u : Undef) :
    memResult c m u = d.value c u st b := by
  have hcycle : m.core.exMem.memCycle = d.memCycle := by
    simp [hex, exMemLoad, hc.exException, hc.llSc, h.carries.memCycle]
  have hmajor : m.core.exMem.opMajor = d.opMajor := by
    simp [hex, exMemLoad, hc.exException, h.carries.opMajor]
  have hpc : exPcRet c s ++ 0#2 = Rv32.byteAddr (st.pc + 1) := by
    simp only [exPcRet, hc.arch, hret]
    rfl
  rw [memResult, Decoded.value, hcycle, hmajor]
  split_ifs with hm hs
  · simp only [dmemAddr, hex, exMemLoad, h.carries.memSize, h.carries.memReadSignExtend, h.addsubx,
      Decoded.sum, hmem]
  · exact h.memFromShift hc hs (by simpa using hm) i q m.core hex _
  · rw [h.memEffData hc hx.altSel hs i q m.core hex, hpc]

theorem pendingWrite_exMemLoad (hc : IsRv32 c) (h : ExHolds c s d (d.reg1 st) b)
    (hx : Executes c d st b eff) (hret : s.ifId.epc = st.pc + 1)
    (hex : m.core.exMem = exMemLoad c s i q) (hmem : st.mem = m.mem) (u : Undef) :
    pendingWrite c m u = eff.write := by
  have haddr : m.core.exMem.writebackAddr = d.targetAddr := by
    simp [hex, exMemLoad, hc.exException, exWritebackAddr, h.carries.cmovCycle,
      h.carries.writebackAddr]
  rw [pendingWrite, haddr, memResult_exMemLoad hc h hx hret hex hmem, hx.write u]

theorem pendingStore_exMemLoad (hc : IsRv32 c) (h : ExHolds c s d (d.reg1 st) b)
    (hx : Executes c d st b eff) (hex : m.core.exMem = exMemLoad c s i q) :
    pendingStore c m = eff.store := by
  have hcycle : m.core.exMem.memCycle = d.memCycle := by
    simp [hex, exMemLoad, hc.exException, hc.llSc, h.carries.memCycle]
  have hwrite : m.core.exMem.memWrite = d.memWrite := by
    simp [hex, exMemLoad, h.carries.memWrite]
  rw [pendingStore, hcycle, hwrite, hx.store]
  cases hd : d.memCycle <;> cases hw : d.memWrite <;> try rfl
  have himm := hx.memImm hd
  obtain ⟨x, hadd⟩ := hx.memAdd hd
  have hsum : d.sum st b = d.reg1 st + d.immediateValue := by
    rw [Decoded.sum, hadd, Decoded.op2, if_pos himm, aluAddsubx_add]
  have hoffset : ex2bitAdd c s = (d.sum st b).extractLsb 1 0 := by
    rw [ex2bitAdd, h.reg1, h.imm himm, hsum, extractLsb_low_add]
  have hdata : exFromShift c s i = storeData d.memSize ((d.sum st b).extractLsb 1 0) b := by
    have hbit (n : BitVec 2) (k : BitVec 3) :
        (n ++ k).getLsbD 3 = n.getLsbD 0 ∧ (n ++ k).getLsbD 4 = n.getLsbD 1 := by
      constructor <;> rw [BitVec.getLsbD_append] <;> rfl
    simp only [exFromShift, exShamt, exMemalignShamt, memalignShamt, hoffset, h.carries.memCycle,
      hd, h.carries.memSize, hc.bigEndian, h.carries.shiftFunct, hx.storeShift hd hw, h.reg2,
      storeData, if_true, hbit, Bool.not_false]
  have hbytes : memStore c m = d.bytes st b := by
    simp only [memStore, dmemAddr, dmemDataOut, endian, hc.bigEndian, hex, exMemLoad, hdata,
      exMemByteSel, hoffset, h.carries.memSize, h.addsubx, Decoded.bytes, Decoded.sum,
      Bool.false_eq_true, if_false]
  simp [hbytes]

/-- Where the program goes on after an instruction left the EX stage. -/
theorem branch_exMemLoad (hc : IsRv32 c) (h : ExHolds c s d (d.reg1 st) b)
    (hx : Executes c d st b eff) (htarget : s.idEx.branchTarget = st.pc + d.branchOffset)
    (hex : m.core.exMem = exMemLoad c s i q) :
    m.core.exMem.takeBranch = d.taken (d.reg1 st) b ∧
    (d.taken (d.reg1 st) b = true → m.core.exMem.branchTarget = eff.next.pc ∧
      m.core.exMem.memCycle = false) ∧
    (d.taken (d.reg1 st) b = false → eff.next.pc = st.pc + 1) := by
  refine ⟨?_, fun ht => ⟨?_, ?_⟩, fun ht => ?_⟩
  · simp [hex, exMemLoad, hc.exException, h.takeBranch hc]
  · have hcycle : d.branchCycle = true := by
      simp only [Decoded.taken, Bool.and_eq_true] at ht
      exact ht.1
    have hjump : (exFromAluAddsubx c s).extractLsb 31 2 = (d.sum st b).extractLsb 31 2 := by
      rw [h.addsubx, Decoded.sum]
      apply BitVec.eq_of_getLsbD_eq
      intro k hk
      simp only [BitVec.getLsbD_extractLsb]
      grind
    simp only [hex, exMemLoad, h.carries.branchCycle, hcycle, h.carries.jumpRegister, hc.arch,
      hx.next, Decoded.next, ht, if_true, hc.mask_left, hjump, exBranchTarget,
      h.carries.predictTaken, htarget]
    cases d.jumpRegister <;> rfl
  · have hcycle : d.memCycle = false := by
      cases hm : d.memCycle
      · rfl
      · simp [Decoded.taken, hx.branch hm] at ht
    simp [hex, exMemLoad, h.carries.memCycle, hcycle]
  · rw [hx.next, Decoded.next, ht]
    rfl

/-- The registers, the memory and the logs after an instruction left the EX stage. -/
theorem Drained.backend_exMemLoad (hc : IsRv32 c) (hdrained : Drained c m r)
    (h : ExHolds c s d (d.reg1 r.st) b) (hx : Executes c d r.st b eff)
    (hret : s.ifId.epc = r.st.pc + 1) (hex : m.core.exMem = exMemLoad c s i q) :
    Backend c m (r.apply eff) := by
  refine hdrained.backend_apply i.undef
    (pendingWrite_exMemLoad hc h hx hret hex hdrained.mem) (pendingStore_exMemLoad hc h hx hex)
    hx.regs hx.mem ?_
  intro hm hne
  have hcycle : m.core.exMem.memCycle = d.memCycle := by
    simp [hex, exMemLoad, hc.exException, hc.llSc, h.carries.memCycle]
  have haddr : m.core.exMem.writebackAddr = d.targetAddr := by
    simp [hex, exMemLoad, hc.exException, exWritebackAddr, h.carries.cmovCycle,
      h.carries.writebackAddr]
  rw [hcycle] at hm
  rw [haddr] at hne
  simp [hex, exMemLoad, h.carries.latency, hx.loadLatency hm hne, latencyWb]

end Leave

section Operands

/--
A register that the ID stage reads reaches the EX stage with its value after
all executed instructions: it comes from the MEM stage, from the WB stage, or
from the register file, whichever is newest.
-/
theorem operand_forwarded (hc : IsRv32 c) (h : Backend c m r) {r' : Rv32.Run}
    (h' : Backend c (step c prog m i) r')
    (hrun : memRunning c m.core (input c prog m i) = true)
    {a : RegAddr} {zero : Bool} (hzero : zero = (a == regZero))
    (hex : (step c prog m i).core.exMem.writebackAddr = m.core.idEx.writebackAddr)
    (hfwdEx : a ≠ regZero → a = m.core.idEx.writebackAddr →
      memEffData (step c prog m i).core = memResult c (step c prog m i) i.undef)
    (hfwdMem : a ≠ regZero → a = m.core.exMem.writebackAddr → m.core.exMem.memCycle = false) :
    (if (!zero && a == m.core.idEx.writebackAddr) = true then
      memEffData (step c prog m i).core
    else if (!zero && a == m.core.exMem.writebackAddr) = true then
      wbEffData (step c prog m i).core
    else if idBypass c m.core zero a = true then wbWritebackData c m.core i
    else m.core.mR a) = r'.st.regs a := by
  have hwb : (step c prog m i).core.memWb = _ := hc.memWbNext
  rw [hrun, if_pos rfl] at hwb
  by_cases ha : a = regZero
  · subst hzero ha
    simp [idBypass, h.zero, h'.runZero]
  · have hz : zero = false := by simpa [hzero] using ha
    have hreg := h'.regs i a ha
    rw [pendingReg, hex, wbReg] at hreg
    have haddr : (step c prog m i).core.memWb.writebackAddr = m.core.exMem.writebackAddr := by
      rw [hwb]
    rw [haddr] at hreg
    simp only [hz, Bool.not_false, Bool.true_and, beq_iff_eq]
    split_ifs with hE hM hB
    · rw [if_pos hE] at hreg
      rw [← hreg, hfwdEx ha hE]
    · rw [if_neg hE, if_pos hM] at hreg
      rw [← hreg]
      have hcycle := hfwdMem ha hM
      simp [wbEffData, wbWritebackData, hwb, hcycle, hc.loadAligner]
    · rw [if_neg hE, if_neg hM, h.mR_step_eq a ha, wbReg] at hreg
      rw [← hreg, if_pos (by simpa [idBypass, hc.loadAligner] using hB)]
    · rw [if_neg hE, if_neg hM, h.mR_step_eq a ha, wbReg] at hreg
      rw [← hreg, if_neg (by simpa [idBypass, hc.loadAligner] using hB)]

/-- What the EX stage promises about the result that it forwards. -/
def Forwards (s : State) : Prop :=
  s.idEx.writebackAddr ≠ regZero → s.idEx.latency.getLsbD 0 = false →
    s.idEx.memCycle = false ∧ s.idEx.opMajor ≠ .shift

/-- The EX stage after the instruction in the ID stage moved on to it. -/
structure Entered (c : Config) (m : Rv32System) (st : Rv32.State) (u : Undef) (w b : Word) :
    Prop where
  holds : ExHolds c m.core (idecodeRv32 c u w) ((idecodeRv32 c u w).reg1 st) b
  reads : (idecodeRv32 c u w).Reads st b
  target : m.core.idEx.branchTarget = st.pc + (idecodeRv32 c u w).branchOffset

/-- No hazard holds back the instruction in the ID stage. -/
theorem fwdMem_of_noHazard (hc : IsRv32 c) (h : Backend c m r)
    (hhazard : idLoadAlignHazard c m.core (input c prog m i) = false) (a : RegAddr)
    (hread : (idecodeRv32 c i.undef m.core.ifId.instruction).reg1Addr = a ∨
      (idecodeRv32 c i.undef m.core.ifId.instruction).ignoreReg2 = false ∧
        (idecodeRv32 c i.undef m.core.ifId.instruction).reg2Addr = a)
    (ha : a ≠ regZero) (haw : a = m.core.exMem.writebackAddr) :
    m.core.exMem.memCycle = false := by
  cases hcycle : m.core.exMem.memCycle
  · rfl
  · have hlat := h.load hcycle (haw ▸ ha)
    have hports := idecodeRv32_portFlags c i.undef m.core.ifId.instruction
    simp only [idLoadAlignHazard, hc.loadAligner, hlat, hc.idDecoded, input_undef, hports.reg1Zero,
      ← haw] at hhazard
    rcases hread with hread | ⟨hign, hread⟩
    · simp [hread, ha] at hhazard
    · simp [hread, hign] at hhazard

/-- A result that the ID stage reads from the EX stage is complete in the MEM stage. -/
theorem fwdEx_of_noHazard (hc : IsRv32 c) {q : ExMem}
    (hex : (step c prog m i).core.exMem = exMemLoad c m.core (input c prog m i) q)
    (hfwd : Forwards m.core) (hhazard : idNoHazard c m.core (input c prog m i) = true)
    (a : RegAddr)
    (hread : (idecodeRv32 c i.undef m.core.ifId.instruction).reg1Addr = a ∨
      (idecodeRv32 c i.undef m.core.ifId.instruction).ignoreReg2 = false ∧
        (idecodeRv32 c i.undef m.core.ifId.instruction).reg2Addr = a)
    (ha : a ≠ regZero) (haw : a = m.core.idEx.writebackAddr) :
    memEffData (step c prog m i).core = memResult c (step c prog m i) i.undef := by
  have hports := idecodeRv32_portFlags c i.undef m.core.ifId.instruction
  have hlat : m.core.idEx.latency.getLsbD 0 = false := by
    simp only [idNoHazard, hc.resultForwarding, hc.idDecoded, input_undef, hports.reg1Zero,
      ← haw, if_true, Bool.and_eq_true, Bool.or_eq_true] at hhazard
    rcases hread with hread | ⟨hign, hread⟩
    · simpa [hread, ha] using hhazard.1
    · simpa [hread, hign] using hhazard.2
  obtain ⟨hmem, hshift⟩ := hfwd (haw ▸ ha) hlat
  have hcycle : (step c prog m i).core.exMem.memCycle = false := by
    simp [hex, exMemLoad, hmem]
  have hmajor : (step c prog m i).core.exMem.opMajor ≠ .shift := by
    simpa [hex, exMemLoad, hc.exException] using hshift
  rw [memResult, hcycle, if_neg Bool.false_ne_true, if_neg hmajor]

/-- The operands of the instruction that moves on to the EX stage. -/
theorem entered_of_load (hc : IsRv32 c) (h : Backend c m r) {r' : Rv32.Run}
    (h' : Backend c (step c prog m i) r') (hs : Steady m.core) (hfwd : Forwards m.core)
    {q : ExMem} {p : IdEx} {cancel : Bool}
    (hrun : memRunning c m.core (input c prog m i) = true)
    (hload : idLoadAlignHazard c m.core (input c prog m i) = false)
    (hhazard : idNoHazard c m.core (input c prog m i) = true)
    (htake : m.core.exMem.takeBranch = false)
    (hex : (step c prog m i).core.exMem = exMemLoad c m.core (input c prog m i) q)
    (hid : (step c prog m i).core.idEx =
      { idExLoad c m.core (input c prog m i) p with cancelNext := cancel })
    (hpc : m.core.ifId.epc = r'.st.pc) :
    Entered c (step c prog m i) r'.st i.undef m.core.ifId.instruction
      (exEffReg2 c (step c prog m i).core) := by
  have hports := idecodeRv32_portFlags c i.undef m.core.ifId.instruction
  have hwb : (step c prog m i).core.exMem.writebackAddr = m.core.idEx.writebackAddr := by
    simp [hex, exMemLoad, hc.exException, exWritebackAddr, hs.cmovCycle]
  have hcancel : memCancelEx c m.core = false := by rw [hc.memCancelEx, htake]
  have hread1 : exEffReg1 c (step c prog m i).core =
      (idecodeRv32 c i.undef m.core.ifId.instruction).reg1 r'.st := by
    have hreg := operand_forwarded hc h h' hrun hports.reg1Zero hwb
      (fwdEx_of_noHazard hc hex hfwd hhazard _ (.inl rfl))
      (fwdMem_of_noHazard hc h hload _ (.inl rfl))
    simp only [exEffReg1, hid, idExLoad, idFwdExReg1, idFwdMemReg1, hcancel, hc.idDecoded,
      hc.resultForwarding, idReg1EffData, idReg1Data, regfileRead, hc.arch, Decoded.reg1,
      hc.loadAligner, input_undef, wbWritebackData_input, Bool.not_false, Bool.true_and,
      Bool.and_true, Bool.not_true, Bool.false_and, Bool.false_eq_true, if_false,
      beq_self_eq_true, ← hpc]
    by_cases hp : (idecodeRv32 c i.undef m.core.ifId.instruction).reg1Pc = true
    · simp [hp, hports.reg1Pc hp, Rv32.byteAddr]
    · simpa [hp] using hreg
  refine ⟨⟨?_, hread1, rfl, ?_, ?_, ?_⟩, ?_, ?_⟩
  · constructor <;>
      simp [hid, idExLoad, hc.idDecoded, input_undef, idecodeRv32_cmovCycle, hc.arch,
        hc.idPredictTaken]
  · simp only [exEffAluOp2, exEffReg2, hid, idExLoad, idFwdExReg2, idFwdMemReg2, idFwdExAluOp2,
      idFwdMemAluOp2, hcancel, hc.idDecoded, hc.resultForwarding, hc.multEnable, idAluOp2,
      Decoded.op2, input_undef]
    cases (idecodeRv32 c i.undef m.core.ifId.instruction).useImmediate <;> simp
  · intro himm
    simp [hid, idExLoad, idAluOp2, hc.idDecoded, input_undef, himm]
  · exact idecodeRv32_sebSehCycle _ _ _
  · intro hreads
    have hread (ha : (idecodeRv32 c i.undef m.core.ifId.instruction).reg2Addr ≠ regZero) :
        (idecodeRv32 c i.undef m.core.ifId.instruction).ignoreReg2 = false := by
      rcases hreads with hign | hzero
      · exact hign
      · rw [hports.reg2Zero] at hzero
        exact absurd (by simpa using hzero) ha
    have hreg := operand_forwarded hc h h' hrun hports.reg2Zero hwb
      (fun ha => fwdEx_of_noHazard hc hex hfwd hhazard _ (.inr ⟨hread ha, rfl⟩) ha)
      (fun ha => fwdMem_of_noHazard hc h hload _ (.inr ⟨hread ha, rfl⟩) ha)
    simp only [exEffReg2, hid, idExLoad, idFwdExReg2, idFwdMemReg2, hcancel, hc.idDecoded,
      hc.resultForwarding, hc.multEnable, idReg2EffData, regfileRead, hc.loadAligner, input_undef,
      wbWritebackData_input]
    simpa using hreg
  · simp [hid, idExLoad, idBranchTarget, hc.arch, hc.mask_left, hc.idDecoded, input_undef, hpc]

end Operands

end Rv32System
end Core
end F32c
