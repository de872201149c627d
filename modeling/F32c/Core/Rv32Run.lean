import F32c.Clocked
import F32c.Core.Rv32Refines

/-!
# Runs of the RV32 pipeline

What the stages in front of the MEM stage hold of the instructions that come
next, how one clock changes it, and the agreement of every run with the
architecture.
-/

namespace F32c
namespace Core
namespace Rv32System

variable {c : Config}
variable {prog : Addr → Word}
variable {m : Rv32System}
variable {r : Rv32.Run}
variable {st : Rv32.State}
variable {i : Input}
variable {k : Nat}

section Front

/-- Nothing to execute in the EX stage. -/
structure ExNull (s : State) : Prop where
  writebackAddr : s.idEx.writebackAddr = regZero
  memCycle : s.idEx.memCycle = false
  branchCycle : s.idEx.branchCycle = false

/-- The ID stage holds the instruction at `pc`, and the one after it is fetched. -/
structure IdHolds (prog : Addr → Word) (s : State) (pc : Addr) : Prop where
  bubble : s.ifId.bubble = false
  instruction : s.ifId.instruction = prog pc
  epc : s.ifId.epc = pc
  pc : s.ifId.pc = pc + 1

/-- One clock longer while an instruction that writes a register is in the MEM stage. -/
def memRank (s : State) : Nat :=
  if s.exMem.writebackAddr = regZero then 0 else 1

/--
Where the next instruction of the architecture is: its address is the target of
the branch in the MEM stage, it is about to be fetched (with the instruction in
the ID stage cancelled or empty), or it is in the ID or the EX stage.  The number
bounds the clocks in which the pipeline is not stalled by the data memory before
the instruction leaves the EX stage.
-/
inductive Front (c : Config) (prog : Addr → Word) (m : Rv32System) (st : Rv32.State) :
    Nat → Prop
  | redirect (take : m.core.exMem.takeBranch = true) (target : m.core.exMem.branchTarget = st.pc)
      (memCycle : m.core.exMem.memCycle = false) :
      Front c prog m st 4
  | cancel (take : m.core.exMem.takeBranch = false) (cancel : m.core.idEx.cancelNext = true)
      (null : ExNull m.core) (pc : m.core.ifId.pc = st.pc) :
      Front c prog m st 3
  | empty (take : m.core.exMem.takeBranch = false) (cancel : m.core.idEx.cancelNext = false)
      (null : ExNull m.core) (pc : m.core.ifId.pc = st.pc)
      (nop : m.core.ifId.bubble = true ∨ m.core.ifId.instruction = 0#32) :
      Front c prog m st (3 + memRank m.core)
  | decode (take : m.core.exMem.takeBranch = false) (cancel : m.core.idEx.cancelNext = false)
      (null : ExNull m.core) (holds : IdHolds prog m.core st.pc) :
      Front c prog m st (1 + memRank m.core)
  | execute (take : m.core.exMem.takeBranch = false) (cancel : m.core.idEx.cancelNext = false)
      (u : Undef) (b : Word) (entered : Entered c m st u (prog st.pc) b)
      (epc : m.core.ifId.epc = st.pc + 1)
      (follows : exTakeBranch c m.core = false → IdHolds prog m.core (st.pc + 1)) :
      Front c prog m st 0

end Front

section Clock

theorem input_imemDataReady : (input c prog m i).imemDataReady = true := by
  rfl

/-- The fetched word is the instruction at the address of the IF stage. -/
theorem input_imemDataIn (hc : IsRv32 c) :
    (input c prog m i).imemDataIn = prog (ifPc c m.core) := by
  simp [input, imemAddr, hc.cache]

theorem ExNull.takeBranch (h : ExNull m.core) : exTakeBranch c m.core = false := by
  rw [exTakeBranch, h.branchCycle, Bool.false_and]

theorem ExNull.forwards (h : ExNull m.core) : Forwards m.core :=
  fun hne => absurd h.writebackAddr hne

/-- A bubble in the EX stage. -/
theorem exNull_idExBubble {s : State} {p : IdEx}
    (h : m.core.idEx = idExBubble c s i p) : ExNull m.core := by
  constructor <;> rw [h] <;> rfl

/-- The word zero does nothing in the EX stage. -/
theorem exNull_of_nop (hc : IsRv32 c) {s : State} {p : IdEx} {cancel : Bool}
    (hnop : s.ifId.instruction = 0#32)
    (h : m.core.idEx = { idExLoad c s i p with cancelNext := cancel }) : ExNull m.core := by
  have hd : idecodeRv32 c i.undef 0#32 = rv32Default i.undef 0#32 := by
    simp [idecodeRv32, rv32iOpLui, rv32iOpAuipc, rv32iOpJal, rv32iOpJalr, rv32iOpBranch,
      rv32iOpLoad, rv32iOpStore, rv32iOpRegImm, rv32iOpRegReg, rv32iOpSys]
  constructor <;> rw [h] <;> simp [idExLoad, hc.idDecoded, hnop, hd, rv32Default, regZero]

theorem branchTaken_step (prog : Addr → Word) (i : Input) (hc : IsRv32 c) (h : Steady m.core) :
    (step c prog m i).core.exMem.branchTaken = false ∧
      (step c prog m i).core.exMem.eip = false := by
  have hex : (step c prog m i).core.exMem = _ := hc.exMemNext h
  rw [hex]
  split_ifs
  · exact ⟨rfl, h.eip⟩
  · simp [exMemLoad, h.predictTaken, hc.exException, h.eip]
  · exact ⟨h.branchTaken, h.eip⟩

/-- Registers that keep their value. -/
theorem steady_step (hc : IsRv32 c) (h : Steady m.core) : Steady (step c prog m i).core := by
  obtain ⟨hpc, hnext, hfetch, hbranch, -⟩ :=
    hc.ifIdNext (i := input c prog m i) h input_imemDataReady
  obtain ⟨htaken, heip⟩ := branchTaken_step prog i hc h
  have hid : (step c prog m i).core.idEx = _ := hc.idExNext h rfl
  have hmi : (Arch.rv32 == Arch.mi32) = false := rfl
  refine ⟨?_, htaken, heip, hfetch, hbranch, hnext.trans hpc.symm, ?_, ?_, ?_, ?_⟩
  · show (if clkRun c (input c prog m i) then (input c prog m i).reset else m.core.rReset) = false
    rw [hc.clkRun, if_pos rfl]
    rfl
  · rw [hid]
    split_ifs <;> simp [idExBubble, idExLoad, idExHold, hc.loadAligner, h.multicycleLhLb]
  · rw [hid]
    split_ifs <;> simp [idExBubble, idExLoad, idExHold, hc.arch, hmi, h.branchDelayFollows,
      hc.exceptions]
  · rw [hid]
    split_ifs <;> simp [idExBubble, idExLoad, idExHold, hc.idPredictTaken, h.predictTaken]
  · rw [hid]
    split_ifs <;> simp [idExBubble, idExLoad, idExHold, hc.idDecoded, idecodeRv32_cmovCycle,
      h.cmovCycle]

/-- While the EX stage is empty, the MEM stage runs empty. -/
theorem backend_of_null (hc : IsRv32 c) (hs : Steady m.core) (h : Backend c m r)
    (hnull : ExNull m.core) (htake : m.core.exMem.takeBranch = false) :
    Backend c (step c prog m i) r ∧ (step c prog m i).core.exMem.takeBranch = false ∧
      (memRunning c m.core (input c prog m i) = true → memRank (step c prog m i).core = 0) ∧
      memRank (step c prog m i).core ≤ memRank m.core := by
  have hex : (step c prog m i).core.exMem = _ := hc.exMemNext hs
  cases hrun : memRunning c m.core (input c prog m i)
  · rw [hrun, if_neg Bool.false_ne_true] at hex
    refine ⟨h.stalled hc hs hrun, by rw [hex, htake], fun hf => Bool.noConfusion hf, ?_⟩
    rw [memRank, memRank, hex]
  · rw [hrun, if_pos rfl, htake, if_neg Bool.false_ne_true] at hex
    have hwb : (step c prog m i).core.exMem.writebackAddr = regZero := by
      simp [hex, exMemLoad, hc.exException, exWritebackAddr, hs.cmovCycle, hnull.writebackAddr]
    have hmem : (step c prog m i).core.exMem.memCycle = false := by
      simp [hex, exMemLoad, hnull.memCycle]
    refine ⟨(h.drained hc hrun).backend hwb hmem, ?_, fun _ => ?_, ?_⟩
    · simp [hex, exMemLoad, hnull.takeBranch]
    · rw [memRank, if_pos hwb]
    · rw [memRank, if_pos hwb]
      exact Nat.zero_le _

/-- A taken branch in the MEM stage cancels what follows it in the EX stage. -/
theorem backend_of_redirect (hc : IsRv32 c) (hs : Steady m.core) (h : Backend c m r)
    (htake : m.core.exMem.takeBranch = true) (hmem : m.core.exMem.memCycle = false) :
    Backend c (step c prog m i) r ∧ (step c prog m i).core.exMem.takeBranch = false ∧
      memRank (step c prog m i).core = 0 := by
  have hrun : memRunning c m.core (input c prog m i) = true := by
    rw [hc.memRunning, hmem]
    rfl
  have hex : (step c prog m i).core.exMem = _ := hc.exMemNext hs
  rw [hrun, if_pos rfl, htake, if_pos rfl] at hex
  have hwb : (step c prog m i).core.exMem.writebackAddr = regZero := by rw [hex]; rfl
  refine ⟨(h.drained hc hrun).backend hwb (by rw [hex]; rfl), by rw [hex]; rfl, ?_⟩
  rw [memRank, if_pos hwb]

/-- The ID stage receives the instruction at the address of the IF stage. -/
theorem idHolds_of_running (hc : IsRv32 c) (hs : Steady m.core)
    (hrun : idRunning c m.core (input c prog m i) = true) :
    IdHolds prog (step c prog m i).core (ifPc c m.core) := by
  obtain ⟨hpc, -, -, -, hepc, hinstr, hbubble⟩ :=
    hc.ifIdNext (i := input c prog m i) hs input_imemDataReady
  rw [hrun] at hepc hinstr hbubble
  refine ⟨hbubble, ?_, hepc, ?_⟩
  · exact hinstr.trans (input_imemDataIn hc)
  · refine hpc.trans ?_
    rw [hc.ifPcNext hs rfl, hrun, if_pos rfl]

/-- The ID stage keeps its instruction unless the branch in the EX stage is taken. -/
theorem ifId_of_stalled (hc : IsRv32 c) (hs : Steady m.core)
    (hrun : idRunning c m.core (input c prog m i) = false) :
    (step c prog m i).core.ifId.pc = ifPc c m.core ∧
    (step c prog m i).core.ifId.epc = m.core.ifId.epc ∧
    (exTakeBranch c m.core = false →
      (step c prog m i).core.ifId.instruction = m.core.ifId.instruction ∧
      (step c prog m i).core.ifId.bubble = m.core.ifId.bubble) := by
  obtain ⟨hpc, -, -, -, hepc, hinstr, hbubble⟩ :=
    hc.ifIdNext (i := input c prog m i) hs input_imemDataReady
  rw [hrun] at hepc hinstr hbubble
  refine ⟨?_, hepc, fun htake => ?_⟩
  · refine hpc.trans ?_
    rw [hc.ifPcNext hs rfl, hrun, if_neg Bool.false_ne_true]
  · rw [htake] at hinstr hbubble
    exact ⟨hinstr, hbubble⟩

/-- With nothing to wait for in the EX and the MEM stage there is no hazard. -/
theorem idRunning_of_null (hc : IsRv32 c) (hs : Steady m.core) (hnull : ExNull m.core)
    (hrank : memRank m.core = 0) :
    idRunning c m.core (input c prog m i) =
      (m.core.idEx.cancelNext || memRunning c m.core (input c prog m i)) := by
  have hports := idecodeRv32_portFlags c i.undef m.core.ifId.instruction
  have hwb : m.core.exMem.writebackAddr = regZero := by
    by_contra hne
    simp [memRank, hne] at hrank
  have hport1 : ((idecodeRv32 c i.undef m.core.ifId.instruction).reg1Zero ||
      (idecodeRv32 c i.undef m.core.ifId.instruction).reg1Addr != regZero) = true := by
    rw [hports.reg1Zero, bne, Bool.or_not_self]
  have hport2 : ((idecodeRv32 c i.undef m.core.ifId.instruction).ignoreReg2 ||
      (idecodeRv32 c i.undef m.core.ifId.instruction).reg2Addr != regZero) = true := by
    have hign := hports.ignoreReg2
    rw [hports.reg2Zero] at hign
    cases hz : (idecodeRv32 c i.undef m.core.ifId.instruction).reg2Addr == regZero
    · simp [bne, hz]
    · simp [hign hz]
  have hload : idLoadAlignHazard c m.core (input c prog m i) = false := by
    simp only [bne, Bool.or_eq_true, Bool.not_eq_true'] at hport1 hport2
    simp only [idLoadAlignHazard, hc.idDecoded, input_undef, hwb]
    rcases hport1 with h1 | h1 <;> rcases hport2 with h2 | h2 <;> simp [h1, h2]
  have hhazard : idNoHazard c m.core (input c prog m i) = true := by
    simp only [idNoHazard, hc.idDecoded, input_undef, hnull.writebackAddr, hc.resultForwarding,
      hport1, hport2, Bool.true_or, if_true, Bool.and_self]
  rw [hc.idRunning hs rfl, hload, hhazard]
  simp

end Clock

section Transitions

/-- After a taken branch the instruction at its target is fetched, now or in the next clock. -/
theorem front_redirect (hc : IsRv32 c) (hs : Steady m.core)
    (htake : m.core.exMem.takeBranch = true) (htarget : m.core.exMem.branchTarget = st.pc)
    (hmem : m.core.exMem.memCycle = false)
    (htake' : (step c prog m i).core.exMem.takeBranch = false)
    (hrank : memRank (step c prog m i).core = 0) :
    ∃ k, k < 4 ∧ Front c prog (step c prog m i) st k := by
  have hrun : memRunning c m.core (input c prog m i) = true := by
    rw [hc.memRunning, hmem]
    rfl
  have hpc : ifPc c m.core = st.pc := by
    rw [hc.ifPc hs, htake, if_pos rfl, htarget]
  have hid : (step c prog m i).core.idEx = _ := hc.idExNext hs rfl
  have hbubble : idInsertBubble c m.core (input c prog m i) = true := by
    simp [idInsertBubble, hs.memTakeBranch, htake, hs.branchDelayFollows]
  rw [hrun, if_pos rfl, hbubble, if_pos rfl] at hid
  have hnull := exNull_idExBubble hid
  cases hidrun : idRunning c m.core (input c prog m i)
  · refine ⟨3, by omega, .cancel htake' ?_ hnull ?_⟩
    · rw [hid]
      simp [idExBubble, idExHold, hidrun, hs.eip, htake]
    · exact (ifId_of_stalled hc hs hidrun).1.trans hpc
  · refine ⟨_, ?_, .decode htake' ?_ hnull (hpc ▸ idHolds_of_running hc hs hidrun)⟩
    · rw [hrank]
      omega
    · rw [hid]
      simp [idExBubble, hidrun]

/-- The EX stage stays empty when nothing moves on to it. -/
theorem exNull_step (prog : Addr → Word) (i : Input) (hc : IsRv32 c) (hs : Steady m.core)
    (hnull : ExNull m.core)
    (hbubble : memRunning c m.core (input c prog m i) = true →
      idInsertBubble c m.core (input c prog m i) = true) :
    ExNull (step c prog m i).core ∧
      (step c prog m i).core.idEx.cancelNext =
        (!idRunning c m.core (input c prog m i) &&
          (m.core.exMem.takeBranch || m.core.idEx.cancelNext)) := by
  have hid : (step c prog m i).core.idEx = _ := hc.idExNext hs rfl
  cases hrun : memRunning c m.core (input c prog m i)
  · rw [hrun, if_neg Bool.false_ne_true] at hid
    constructor
    · constructor <;> rw [hid]
      · exact hnull.writebackAddr
      · exact hnull.memCycle
      · exact hnull.branchCycle
    · rw [hid]
      rfl
  · rw [hrun, if_pos rfl, hbubble hrun, if_pos rfl] at hid
    refine ⟨exNull_idExBubble hid, ?_⟩
    rw [hid]
    cases hidrun : idRunning c m.core (input c prog m i) <;>
      simp [idExBubble, idExHold, hidrun, hs.eip]

/-- The instruction in the ID stage is dropped and the next one fetched. -/
theorem front_cancel (hc : IsRv32 c) (hs : Steady m.core)
    (htake : m.core.exMem.takeBranch = false) (hcancel : m.core.idEx.cancelNext = true)
    (hnull : ExNull m.core) (hpc : m.core.ifId.pc = st.pc)
    (htake' : (step c prog m i).core.exMem.takeBranch = false) :
    ∃ k, k < 3 ∧ Front c prog (step c prog m i) st k := by
  have hpc' : ifPc c m.core = st.pc := by
    rw [hc.ifPc hs, htake, if_neg Bool.false_ne_true, hpc]
  have hidrun : idRunning c m.core (input c prog m i) = true := by
    rw [hc.idRunning hs rfl, hcancel, Bool.true_or]
  obtain ⟨hnull', hcancel'⟩ := exNull_step prog i hc hs hnull
    (fun _ => by simp [idInsertBubble, hcancel, hs.branchDelayFollows])
  rw [hidrun] at hcancel'
  refine ⟨_, ?_, .decode htake' hcancel' hnull' (hpc' ▸ idHolds_of_running hc hs hidrun)⟩
  rw [memRank]
  split_ifs <;> omega

/-- When the ID stage runs, so does the MEM stage, and there is no hazard. -/
theorem noHazard_of_running (hc : IsRv32 c) (hs : Steady m.core)
    (hcancel : m.core.idEx.cancelNext = false)
    (hidrun : idRunning c m.core (input c prog m i) = true) :
    memRunning c m.core (input c prog m i) = true ∧
      idLoadAlignHazard c m.core (input c prog m i) = false ∧
      idNoHazard c m.core (input c prog m i) = true := by
  rw [hc.idRunning hs rfl, hcancel, Bool.false_or] at hidrun
  simp only [Bool.and_eq_true, Bool.not_eq_true'] at hidrun
  exact ⟨hidrun.1.1, hidrun.1.2, hidrun.2⟩

/-- If the data memory does not stall an empty EX stage, a load in the MEM stage does. -/
theorem memRank_pos_of_stalled (hc : IsRv32 c) (hs : Steady m.core) (hnull : ExNull m.core)
    (hready : i.dmemDataReady = true) (hidrun : idRunning c m.core (input c prog m i) = false) :
    0 < memRank m.core := by
  apply Nat.pos_of_ne_zero
  intro hzero
  have hrun : memRunning c m.core (input c prog m i) = true := by
    rw [hc.memRunning]
    simp [input, hready]
  rw [idRunning_of_null hc hs hnull hzero, hrun, Bool.or_true] at hidrun
  exact Bool.noConfusion hidrun

/-- An empty ID stage waits for the EX stage, then the next instruction is fetched. -/
theorem front_empty (hc : IsRv32 c) (hs : Steady m.core)
    (htake : m.core.exMem.takeBranch = false) (hcancel : m.core.idEx.cancelNext = false)
    (hnull : ExNull m.core) (hpc : m.core.ifId.pc = st.pc)
    (hnop : m.core.ifId.bubble = true ∨ m.core.ifId.instruction = 0#32)
    (htake' : (step c prog m i).core.exMem.takeBranch = false)
    (hready : i.dmemDataReady = true → memRank (step c prog m i).core = 0)
    (hrank : memRank (step c prog m i).core ≤ memRank m.core) :
    ∃ k, k ≤ 3 + memRank m.core ∧ (i.dmemDataReady = true → k < 3 + memRank m.core) ∧
      Front c prog (step c prog m i) st k := by
  have hpc' : ifPc c m.core = st.pc := by
    rw [hc.ifPc hs, htake, if_neg Bool.false_ne_true, hpc]
  cases hidrun : idRunning c m.core (input c prog m i)
  · obtain ⟨hnull', hcancel'⟩ := exNull_step prog i hc hs hnull
      (fun _ => by simp [idInsertBubble, hidrun])
    rw [htake, hcancel] at hcancel'
    obtain ⟨hpc'', -, hkeep⟩ := ifId_of_stalled hc hs hidrun
    obtain ⟨hinstr, hbubble⟩ := hkeep hnull.takeBranch
    refine ⟨_, ?_, ?_, .empty htake' ?_ hnull' (hpc''.trans hpc') ?_⟩
    · omega
    · intro hr
      have hpos := memRank_pos_of_stalled hc hs hnull hr hidrun
      rw [hready hr]
      omega
    · rw [hcancel']
      exact Bool.and_false _
    · rw [hinstr, hbubble]
      exact hnop
  · have hid : (step c prog m i).core.idEx = _ := hc.idExNext hs rfl
    have hrun := (noHazard_of_running hc hs hcancel hidrun).1
    rw [hrun, if_pos rfl, htake, hidrun, hcancel] at hid
    have hex : ExNull (step c prog m i).core ∧ (step c prog m i).core.idEx.cancelNext = false := by
      split_ifs at hid with hbubble
      · exact ⟨exNull_idExBubble hid, by simp [hid, idExBubble, hidrun]⟩
      · have hzero : m.core.ifId.instruction = 0#32 := by
          rcases hnop with hb | hz
          · simp [idInsertBubble, hb] at hbubble
          · exact hz
        exact ⟨exNull_of_nop hc hzero hid, by rw [hid]; rfl⟩
    have hsmall : 1 + memRank (step c prog m i).core < 3 := by
      rw [memRank]
      split_ifs <;> omega
    exact ⟨_, by omega, fun _ => by omega,
      .decode htake' hex.2 hex.1 (hpc' ▸ idHolds_of_running hc hs hidrun)⟩

/-- The instruction in the ID stage moves on to the EX stage. -/
theorem entered_step (hc : IsRv32 c) (hs : Steady m.core) (h : Backend c m r) {r' : Rv32.Run}
    (h' : Backend c (step c prog m i) r') (hfwd : Forwards m.core)
    (htake : m.core.exMem.takeBranch = false) (hcancel : m.core.idEx.cancelNext = false)
    (hholds : IdHolds prog m.core r'.st.pc)
    (hidrun : idRunning c m.core (input c prog m i) = true) :
    Entered c (step c prog m i) r'.st i.undef (prog r'.st.pc)
      (exEffReg2 c (step c prog m i).core) ∧
    (step c prog m i).core.idEx.cancelNext = false := by
  obtain ⟨hrun, hload, hhazard⟩ := noHazard_of_running hc hs hcancel hidrun
  have hex : (step c prog m i).core.exMem = _ := hc.exMemNext hs
  have hid : (step c prog m i).core.idEx = _ := hc.idExNext hs rfl
  have hbubble : idInsertBubble c m.core (input c prog m i) = false := by
    simp [idInsertBubble, hidrun, hs.memTakeBranch, htake, hcancel, hholds.bubble, hc.exceptions]
  rw [hrun, if_pos rfl, htake, if_neg Bool.false_ne_true] at hex
  rw [hrun, if_pos rfl, hbubble, if_neg Bool.false_ne_true, htake, hcancel] at hid
  have hentered := entered_of_load hc h h' hs hfwd hrun hload hhazard htake hex hid hholds.epc
  rw [hholds.instruction] at hentered
  exact ⟨hentered, by rw [hid]; rfl⟩

/-- The instruction in the ID stage waits for its operands, then it is executed. -/
theorem front_decode (hc : IsRv32 c) (hs : Steady m.core) (h : Backend c m r)
    (h' : Backend c (step c prog m i) r)
    (htake : m.core.exMem.takeBranch = false) (hcancel : m.core.idEx.cancelNext = false)
    (hnull : ExNull m.core) (hholds : IdHolds prog m.core r.st.pc)
    (htake' : (step c prog m i).core.exMem.takeBranch = false)
    (hready : i.dmemDataReady = true → memRank (step c prog m i).core = 0)
    (hrank : memRank (step c prog m i).core ≤ memRank m.core) :
    ∃ k, k ≤ 1 + memRank m.core ∧ (i.dmemDataReady = true → k < 1 + memRank m.core) ∧
      Front c prog (step c prog m i) r.st k := by
  have hpc : ifPc c m.core = r.st.pc + 1 := by
    rw [hc.ifPc hs, htake, if_neg Bool.false_ne_true, hholds.pc]
  cases hidrun : idRunning c m.core (input c prog m i)
  · obtain ⟨hnull', hcancel'⟩ := exNull_step prog i hc hs hnull
      (fun _ => by simp [idInsertBubble, hidrun])
    rw [htake, hcancel] at hcancel'
    obtain ⟨hpc', hepc, hkeep⟩ := ifId_of_stalled hc hs hidrun
    obtain ⟨hinstr, hbubble⟩ := hkeep hnull.takeBranch
    refine ⟨_, ?_, ?_, .decode htake' ?_ hnull' ⟨?_, ?_, ?_, ?_⟩⟩
    · omega
    · intro hr
      have hpos := memRank_pos_of_stalled hc hs hnull hr hidrun
      rw [hready hr]
      omega
    · rw [hcancel']
      exact Bool.and_false _
    · rw [hbubble, hholds.bubble]
    · rw [hinstr, hholds.instruction]
    · rw [hepc, hholds.epc]
    · rw [hpc', hpc]
  · have hid := idHolds_of_running hc hs hidrun
    rw [hpc] at hid
    obtain ⟨hentered, hcancel'⟩ := entered_step hc hs h h' hnull.forwards htake hcancel hholds hidrun
    exact ⟨0, by omega, fun _ => by omega,
      .execute htake' hcancel' _ _ hentered hid.epc (fun _ => hid)⟩

/-- While the data memory stalls the pipeline, the instruction stays in the EX stage. -/
theorem front_execute_stalled (hc : IsRv32 c) (hs : Steady m.core)
    (hrun : memRunning c m.core (input c prog m i) = false)
    (htake : m.core.exMem.takeBranch = false) (hcancel : m.core.idEx.cancelNext = false)
    {u : Undef} {b : Word} (hentered : Entered c m st u (prog st.pc) b)
    (hepc : m.core.ifId.epc = st.pc + 1)
    (hfollows : exTakeBranch c m.core = false → IdHolds prog m.core (st.pc + 1)) :
    Front c prog (step c prog m i) st 0 := by
  have hidrun : idRunning c m.core (input c prog m i) = false := by
    rw [hc.idRunning hs rfl, hcancel, hrun]
    rfl
  have hex : (step c prog m i).core.exMem = _ := hc.exMemNext hs
  have hid : (step c prog m i).core.idEx = _ := hc.idExNext hs rfl
  have hwb : (step c prog m i).core.memWb = _ := hc.memWbNext
  rw [hrun, if_neg Bool.false_ne_true] at hex hid hwb
  obtain ⟨hpc', hepc', hkeep⟩ := ifId_of_stalled hc hs hidrun
  have hreg1 : exEffReg1 c (step c prog m i).core = exEffReg1 c m.core := by
    simp only [exEffReg1, memEffData, wbEffData, hex, hid, hwb, idExHold]
  have hreg2 : exEffReg2 c (step c prog m i).core = exEffReg2 c m.core := by
    simp only [exEffReg2, memEffData, wbEffData, hex, hid, hwb, idExHold]
  have halu : exEffAluOp2 c (step c prog m i).core = exEffAluOp2 c m.core := by
    simp only [exEffAluOp2, memEffData, wbEffData, hex, hid, hwb, idExHold]
  have hcarries : Carries (step c prog m i).core.idEx (idecodeRv32 c u (prog st.pc)) := by
    rw [hid]
    exact { hentered.holds.carries with }
  have hholds : ExHolds c (step c prog m i).core (idecodeRv32 c u (prog st.pc))
      ((idecodeRv32 c u (prog st.pc)).reg1 st) b := by
    refine ⟨hcarries, hreg1.trans hentered.holds.reg1, hreg2.trans hentered.holds.reg2,
      halu.trans hentered.holds.alu, ?_, hentered.holds.sebSeh⟩
    rw [hid]
    exact hentered.holds.imm
  have htaken : exTakeBranch c (step c prog m i).core = exTakeBranch c m.core := by
    rw [hholds.takeBranch hc, hentered.holds.takeBranch hc]
  refine .execute (by rw [hex, htake]) ?_ u b ⟨hholds, hentered.reads, ?_⟩ ?_ ?_
  · rw [hid]
    simp [idExHold, hcancel, htake]
  · rw [hid]
    exact hentered.target
  · rw [hepc', hepc]
  · intro hnot
    rw [htaken] at hnot
    obtain ⟨hbubble, hinstr, hepc, hpc⟩ := hfollows hnot
    obtain ⟨hinstr', hbubble'⟩ := hkeep hnot
    refine ⟨hbubble'.trans hbubble, hinstr'.trans hinstr, hepc'.trans hepc, ?_⟩
    rw [hpc', hc.ifPc hs, htake, if_neg Bool.false_ne_true, hpc]

/-- The result of an executed instruction is complete in the MEM stage, or it says so. -/
theorem forwards_of_entered {u : Undef} {w b : Word} {eff : Rv32.Effect}
    (hentered : Entered c m st u w b) (hx : Executes c (idecodeRv32 c u w) st b eff) :
    Forwards m.core := by
  intro hne hlat
  have hcarries := hentered.holds.carries
  rw [hcarries.writebackAddr] at hne
  rw [hcarries.latency] at hlat
  rw [hcarries.memCycle, hcarries.opMajor]
  refine ⟨?_, hx.latency hlat⟩
  cases hm : (idecodeRv32 c u w).memCycle
  · rfl
  · rw [hx.loadLatency hm hne] at hlat
    simp [latencyWb] at hlat

/-- The instruction in the EX stage is executed. -/
theorem front_execute (hc : IsRv32 c) (hs : Steady m.core) (h : Backend c m r)
    (hrun : memRunning c m.core (input c prog m i) = true)
    (htake : m.core.exMem.takeBranch = false) (hcancel : m.core.idEx.cancelNext = false)
    {u : Undef} {b : Word} (hentered : Entered c m r.st u (prog r.st.pc) b)
    (hepc : m.core.ifId.epc = r.st.pc + 1)
    (hfollows : exTakeBranch c m.core = false → IdHolds prog m.core (r.st.pc + 1))
    {eff : Rv32.Effect} (heff : Rv32.effect prog r.st = some eff) :
    Backend c (step c prog m i) (r.apply eff) ∧
      ∃ k, Front c prog (step c prog m i) (r.apply eff).st k := by
  have hx := executes_of_effect hc h.runZero heff hentered.reads
  have hex : (step c prog m i).core.exMem = _ := hc.exMemNext hs
  rw [hrun, if_pos rfl, htake, if_neg Bool.false_ne_true] at hex
  have h' := (h.drained hc hrun).backend_exMemLoad hc hentered.holds hx hepc hex
  obtain ⟨htake', htaken, hnext⟩ := branch_exMemLoad hc hentered.holds hx hentered.target hex
  refine ⟨h', ?_⟩
  cases hbranch : (idecodeRv32 c u (prog r.st.pc)).taken
      ((idecodeRv32 c u (prog r.st.pc)).reg1 r.st) b
  · have hnot : exTakeBranch c m.core = false := by
      rw [hentered.holds.takeBranch hc, hbranch]
    have hpc : (r.apply eff).st.pc = r.st.pc + 1 := hnext hbranch
    have hholds := hfollows hnot
    rw [← hpc] at hholds
    have hpc' : ifPc c m.core = (r.apply eff).st.pc + 1 := by
      rw [hc.ifPc hs, htake, if_neg Bool.false_ne_true, hholds.pc]
    cases hidrun : idRunning c m.core (input c prog m i)
    · have hid : (step c prog m i).core.idEx = _ := hc.idExNext hs rfl
      have hbubble : idInsertBubble c m.core (input c prog m i) = true := by
        simp [idInsertBubble, hidrun]
      rw [hrun, if_pos rfl, hbubble, if_pos rfl] at hid
      obtain ⟨hpc'', hepc', hkeep⟩ := ifId_of_stalled hc hs hidrun
      obtain ⟨hinstr', hbubble'⟩ := hkeep hnot
      refine ⟨_, .decode (htake'.trans hbranch) ?_ (exNull_idExBubble hid) ⟨?_, ?_, ?_, ?_⟩⟩
      · rw [hid]
        simp [idExBubble, idExHold, hidrun, hs.eip, htake, hcancel]
      · rw [hbubble', hholds.bubble]
      · rw [hinstr', hholds.instruction]
      · rw [hepc', hholds.epc]
      · rw [hpc'', hpc']
    · have hid := idHolds_of_running hc hs hidrun
      rw [hpc'] at hid
      obtain ⟨hentered', hcancel'⟩ := entered_step hc hs h h' (forwards_of_entered hentered hx)
        htake hcancel hholds hidrun
      exact ⟨0, .execute (htake'.trans hbranch) hcancel' _ _ hentered' hid.epc (fun _ => hid)⟩
  · obtain ⟨htarget, hmem⟩ := htaken hbranch
    exact ⟨4, .redirect (htake'.trans hbranch) htarget hmem⟩

end Transitions


section Run

/-- The simulation relation between the system and the architecture. -/
structure Simulated (c : Config) (prog : Addr → Word) (k : Nat) (m : Rv32System) (r : Rv32.Run) :
    Prop where
  steady : Steady m.core
  backend : Backend c m r
  front : Front c prog m r.st k

/-- One clock executes one instruction, or none and then it comes closer to the next one. -/
theorem simulated_step (hc : IsRv32 c) (h : Simulated c prog k m r)
    {r₁ : Rv32.Run} (hnext : r.step prog = some r₁) :
    (∃ k', Simulated c prog k' (step c prog m i) r₁) ∨
      ∃ k', k' ≤ k ∧ (i.dmemDataReady = true → k' < k) ∧
        Simulated c prog k' (step c prog m i) r := by
  obtain ⟨hs, hb, hf⟩ := h
  have hs' : Steady (step c prog m i).core := steady_step hc hs
  have hready : i.dmemDataReady = true → memRunning c m.core (input c prog m i) = true := by
    intro hr
    rw [hc.memRunning]
    simp [input, hr]
  cases hf with
  | redirect htake htarget hmem =>
      right
      obtain ⟨hb', htake', hrank⟩ := backend_of_redirect hc hs hb htake hmem
      obtain ⟨k', hk, hf'⟩ := front_redirect hc hs htake htarget hmem htake' hrank
      exact ⟨k', by omega, fun _ => hk, hs', hb', hf'⟩
  | cancel htake hcancel hnull hpc =>
      right
      obtain ⟨hb', htake', -, -⟩ := backend_of_null hc hs hb hnull htake
      obtain ⟨k', hk, hf'⟩ := front_cancel hc hs htake hcancel hnull hpc htake'
      exact ⟨k', by omega, fun _ => hk, hs', hb', hf'⟩
  | empty htake hcancel hnull hpc hnop =>
      right
      obtain ⟨hb', htake', hrun, hrank⟩ := backend_of_null hc hs hb hnull htake
      obtain ⟨k', hk, hlt, hf'⟩ := front_empty hc hs htake hcancel hnull hpc hnop htake'
        (fun hr => hrun (hready hr)) hrank
      exact ⟨k', hk, hlt, hs', hb', hf'⟩
  | decode htake hcancel hnull hholds =>
      right
      obtain ⟨hb', htake', hrun, hrank⟩ := backend_of_null hc hs hb hnull htake
      obtain ⟨k', hk, hlt, hf'⟩ := front_decode hc hs hb hb' htake hcancel hnull hholds htake'
        (fun hr => hrun (hready hr)) hrank
      exact ⟨k', hk, hlt, hs', hb', hf'⟩
  | execute htake hcancel u b hentered hepc hfollows =>
      cases hrun : memRunning c m.core (input c prog m i)
      · right
        refine ⟨0, Nat.le_refl 0, fun hr => ?_, hs', hb.stalled hc hs hrun,
          front_execute_stalled hc hs hrun htake hcancel hentered hepc hfollows⟩
        rw [hready hr] at hrun
        exact Bool.noConfusion hrun
      · left
        obtain ⟨eff, heff, rfl⟩ := Option.map_eq_some_iff.mp hnext
        obtain ⟨hb', k', hf'⟩ :=
          front_execute hc hs hb hrun htake hcancel hentered hepc hfollows heff
        exact ⟨k', hs', hb', hf'⟩

/-- A pipeline with no instruction in any stage. -/
structure Empty (s : State) : Prop where
  steady : Steady s
  exNull : ExNull s
  cancelNext : s.idEx.cancelNext = false
  nop : s.ifId.bubble = true ∨ s.ifId.instruction = 0#32
  takeBranch : s.exMem.takeBranch = false
  memCycle : s.exMem.memCycle = false
  memWriteback : s.exMem.writebackAddr = regZero
  wbWriteback : s.memWb.writebackAddr = regZero
  writeEnable : s.memWb.writeEnable = false
  zero : s.mR regZero = 0#32

/-- The architecture at the address that the core fetches first. -/
def start (m : Rv32System) : Rv32.Run :=
  { st := { pc := m.core.ifId.pc, regs := m.core.mR, mem := m.mem }
    writes := m.writes
    stores := m.stores }

theorem Empty.simulated (h : Empty m.core) : Simulated c prog 3 m (start m) := by
  refine ⟨h.steady, ?_, ?_⟩
  · have hdrained : Drained c m (start m) := by
      refine ⟨h.zero, h.zero, ?_, ?_, ?_, rfl, ?_, rfl⟩
      · intro i a ha
        rw [wbReg, h.wbWriteback, if_neg ha]
        rfl
      · exact fun _ _ hne => absurd h.wbWriteback hne
      · intro hen
        rw [h.writeEnable] at hen
        exact Bool.noConfusion hen
      · intro i
        simp [start, regWrite, h.writeEnable]
    exact hdrained.backend h.memWriteback h.memCycle
  · have hrank : memRank m.core = 0 := by
      rw [memRank, if_pos h.memWriteback]
    have hfront : Front c prog m (start m).st (3 + memRank m.core) :=
      .empty h.takeBranch h.cancelNext h.exNull rfl h.nop
    rwa [hrank] at hfront

/-- What was executed earlier is a part of what is executed later. -/
theorem run_prefix {r₀ r₁ r₂ : Rv32.Run} {n d : Nat} (h₁ : r₀.steps prog n = some r₁)
    (h₂ : r₀.steps prog (n + d) = some r₂) :
    r₁.writes <+: r₂.writes ∧ r₁.stores <+: r₂.stores := by
  induction d generalizing r₂ with
  | zero =>
      obtain rfl := Option.some.inj (h₁.symm.trans h₂)
      exact ⟨List.prefix_refl _, List.prefix_refl _⟩
  | succ d ih =>
      obtain ⟨r, hr, hnext⟩ := Option.bind_eq_some_iff.mp h₂
      obtain ⟨eff, -, rfl⟩ := Option.map_eq_some_iff.mp hnext
      obtain ⟨hw, hs⟩ := ih hr
      exact ⟨hw.trans (List.prefix_append _ _), hs.trans (List.prefix_append _ _)⟩

/-- The system has executed `n` instructions. -/
def Executed (c : Config) (prog : Addr → Word) (r₀ : Rv32.Run) (k : Nat) (m : Rv32System)
    (n : Nat) : Prop :=
  ∃ r, r₀.steps prog n = some r ∧ Simulated c prog k m r

theorem executed_simulates (hc : IsRv32 c) {r₀ : Rv32.Run}
    (hprog : ∀ n, (r₀.steps prog n).isSome = true) :
    Clocked.Simulates (step c prog) (fun i => i.dmemDataReady = true) (Executed c prog r₀) := by
  rintro k m i n ⟨r, hr, hsim⟩
  obtain ⟨r₁, hr₁⟩ := Option.isSome_iff_exists.mp (hprog (n + 1))
  have hnext : r.step prog = some r₁ := by
    rw [Rv32.Run.steps, hr] at hr₁
    exact hr₁
  rcases simulated_step (i := i) hc hsim hnext with ⟨k', hsim'⟩ | ⟨k', hle, hlt, hsim'⟩
  · exact .inl ⟨k', r₁, hr₁, hsim'⟩
  · exact .inr ⟨k', hle, hlt, r, hr, hsim'⟩

/-- What has reached the register file and the data bus was written by executed instructions. -/
theorem Simulated.logs_prefix (h : Simulated c prog k m r) :
    m.writes <+: r.writes ∧ m.stores <+: r.stores := by
  constructor
  · rw [h.backend.writes default, List.append_assoc]
    exact List.prefix_append _ _
  · rw [h.backend.stores]
    exact List.prefix_append _ _

/-- Two clocks after the MEM stage ran, everything executed before has been written. -/
theorem Simulated.logs_step (hc : IsRv32 c) (h : Simulated c prog k m r)
    (hready : i.dmemDataReady = true) (j : Input) :
    r.writes = (step c prog (step c prog m i) j).writes ∧
      r.stores <+: (step c prog (step c prog m i) j).stores := by
  have hrun : memRunning c m.core (input c prog m i) = true := by
    rw [hc.memRunning]
    simp [input, hready]
  have hdrained : Drained c (step c prog m i) r := h.backend.drained hc hrun
  exact ⟨hdrained.writes j, hdrained.stores ▸ List.prefix_append _ _⟩

/-- Every register at zero. -/
def blank : Rv32System :=
  { core := default
    mem := fun _ => 0#8
    writes := []
    stores := [] }

theorem blank_empty : Empty blank.core := by
  refine ⟨?_, ?_, rfl, .inr rfl, rfl, rfl, rfl, rfl, rfl, rfl⟩ <;> constructor <;> rfl

/-- The program `ADDI x1, x1, 1` at every address. -/
theorem steps_addi (r : Rv32.Run) (n : Nat) :
    (r.steps (fun _ => 0x00108093#32) n).isSome = true := by
  have hdec : Rv32.decode 0x00108093#32 = some (.opImm .add 1#5 1#5 1#32) := by decide
  induction n with
  | zero =>
      rfl
  | succ n ih =>
      obtain ⟨r', hr'⟩ := Option.isSome_iff_exists.mp ih
      simp [Rv32.Run.steps, hr', Rv32.Run.step, Rv32.effect, hdec, Rv32.exec]

/-- An RV32 core with the defaults of its other parameters. -/
def rv32Config : Config :=
  { arch := .rv32
    bigEndian := false
    multEnable := false
    branchLikely := false
    signExtend := false }

end Run

end Rv32System
end Core
end F32c
