import F32c.Core.Lanes

/-!
# Loads without the load aligner

A byte or half word load that leaves the EX stage leaves a shift right behind it, twice.  The first
pass is for the clock in which the load is in the MEM stage and shifts what happens to be there.
The second pass is in the EX stage while the load is in the WB stage, so that it shifts the loaded
word, and is extended in the MEM stage.
-/

namespace F32c
namespace Core

open Clocked

section Stages

/-- What a load has in common with the passes after it: the access, and nothing that keeps it from
leaving the EX stage. -/
structure LoadInstr (c : Config) (rd : RegAddr) (size : MemSize) (signed : Bool) (r : IdEx) :
    Prop where
  memSize : r.memSize = size
  memReadSignExtend : r.memReadSignExtend = signed
  writebackAddr : r.writebackAddr = rd
  branch : r.branchCycle = false ∧ r.branchLikely = false
  cmov : (c.movnMovz && r.cmovCycle) = false
  sc : (c.llSc && r.sc) = false
  wait : (c.exceptions && r.wait) = false
  alt : r.altSel ≠ .hi ∧ r.altSel ≠ .lo

/-- A load in the EX stage, as the decoder sends it there. -/
structure AccessInEx (c : Config) (rd : RegAddr) (size : MemSize) (signed : Bool) (r : IdEx) :
    Prop extends LoadInstr c rd size signed r where
  memCycle : r.memCycle = true
  opMajor : r.opMajor ≠ .shift
  adds : r.opMinor.getLsbD 1 = false
  fwdAluOp2 : r.fwdExAluOp2 = false ∧ r.fwdMemAluOp2 = false

/-- A load that is followed by two passes. -/
structure LoadInEx (c : Config) (rd : RegAddr) (size : MemSize) (signed : Bool) (r : IdEx) : Prop
    extends AccessInEx c rd size signed r where
  multicycleLhLb : r.multicycleLhLb = true

/-- A pass of the shift in the EX stage, by the amount for an offset. -/
structure PassInEx (c : Config) (rd : RegAddr) (size : MemSize) (signed : Bool) (o : BitVec 2)
    (r : IdEx) : Prop extends LoadInstr c rd size signed r where
  memCycle : r.memCycle = false
  opMajor : r.opMajor = .shift
  shift : r.shiftVariable = false ∧ r.shiftFunct = .rl ∧
    r.shiftAmount = memalignShamt c size o ++ 0#3
  fwdReg2 : r.fwdExReg2 = false ∧ r.fwdMemReg2 = true

/-- What the load and its first pass have in common in the MEM stage: nothing that could make the
EX stage wait or be cancelled. -/
structure MemQuiet (c : Config) (r : ExMem) : Prop where
  multicycle : r.multicycleLhLb = true
  blocked : (!c.fullShifter && r.shiftBlocked) = false
  branch : r.takeBranch = false ∧ r.branchLikely = false
  eip : r.eip = false
  sc : (c.llSc && r.sc) = false

/-- The access of a load in the MEM stage. -/
structure LoadAccess (rd : RegAddr) (size : MemSize) (signed : Bool) (o : BitVec 2) (r : ExMem) :
    Prop where
  memCycle : r.memCycle = true
  memSize : r.memSize = size
  memReadSignExtend : r.memReadSignExtend = signed
  offset : r.addsubData.extractLsb 1 0 = o
  writebackAddr : r.writebackAddr = rd

/-- A load waits for its word in the MEM stage. -/
structure LoadOnBus (c : Config) (rd : RegAddr) (size : MemSize) (signed : Bool) (o : BitVec 2)
    (r : ExMem) : Prop extends LoadAccess rd size signed o r where
  blocked : (!c.fullShifter && r.shiftBlocked) = false
  sc : (c.llSc && r.sc) = false

/-- A load in the WB stage. -/
structure LoadedWord (rd : RegAddr) (size : MemSize) (signed : Bool) (o : BitVec 2) (r : MemWb) :
    Prop where
  memCycle : r.memCycle = true
  memSize : r.memSize = size
  memReadSignExtend : r.memReadSignExtend = signed
  offset : r.memAddrOffset = o
  writebackAddr : r.writebackAddr = rd

/-- A pass in the MEM stage, with what it has shifted. -/
structure ShiftedWord (c : Config) (rd : RegAddr) (size : MemSize) (signed : Bool) (w : Word)
    (r : ExMem) : Prop where
  idle : r.memCycle = false
  blocked : (!c.fullShifter && r.shiftBlocked) = false
  opMajor : r.opMajor = .shift
  shamt : r.shamt = 0#3
  data : r.memDataOut = w
  memSize : r.memSize = size
  memReadSignExtend : r.memReadSignExtend = signed
  writebackAddr : r.writebackAddr = rd

/-- The load is in the MEM stage and its first pass in the EX stage. -/
structure LoadInMem (c : Config) (rd : RegAddr) (size : MemSize) (signed : Bool) (o : BitVec 2)
    (s : State) : Prop where
  quiet : MemQuiet c s.exMem
  load : LoadAccess rd size signed o s.exMem
  pass : PassInEx c rd size signed o s.idEx
  second : s.idEx.multicycleLhLb = true

/-- The load is in the WB stage and its second pass in the EX stage. -/
structure LoadInWb (c : Config) (rd : RegAddr) (size : MemSize) (signed : Bool) (o : BitVec 2)
    (s : State) : Prop where
  quiet : MemQuiet c s.exMem
  idle : s.exMem.memCycle = false
  load : LoadedWord rd size signed o s.memWb
  pass : PassInEx c rd size signed o s.idEx

/-- The second pass is in the MEM stage. -/
structure PassInMem (c : Config) (rd : RegAddr) (size : MemSize) (signed : Bool) (w : Word)
    (s : State) : Prop where
  multicycle : s.memWb.multicycleLhLb = true
  pass : ShiftedWord c rd size signed w s.exMem

variable {c : Config} {s : State} {i : Input} {rd : RegAddr} {size : MemSize} {signed : Bool}
  {o : BitVec 2}

theorem MemQuiet.not_cancelled (h : MemQuiet c s.exMem) : memCancelEx c s = false := by
  simp [memCancelEx, h.branch.1, h.branch.2]

theorem MemQuiet.no_exception (h : MemQuiet c s.exMem) : exException c s = false := by
  simp [exException, h.multicycle]

/-- The EX stage runs with the MEM stage. -/
theorem exRunning_eq (hwait : (c.exceptions && s.idEx.wait) = false)
    (halt : s.idEx.altSel ≠ .hi ∧ s.idEx.altSel ≠ .lo) :
    exRunning c s i = memRunning c s i := by
  simp [exRunning, hwait, halt.1, halt.2]

theorem exLeave_of_running (hcancel : memCancelEx c s = false) (heip : s.exMem.eip = false)
    (hmem : memRunning c s i = true) (hex : exRunning c s i = true) :
    exLeave c s i = true := by
  simp [exLeave, exInsertBubble, hcancel, heip, hmem, hex]

theorem running_of_leave (h : exLeave c s i = true) :
    memRunning c s i = true ∧ exRunning c s i = true := by
  simp only [exLeave, Bool.and_eq_true] at h
  exact ⟨h.1.2, h.2⟩

/-- An instruction that leaves the EX stage is loaded over registers that keep no exception. -/
theorem exMemNext_eq_load (hleave : exLeave c s i = true) (hreset : s.rReset = false)
    (heip : s.exMem.eip = false) :
    ∃ r : ExMem, exMemNext c s i = exMemLoad c s i r ∧ r.eip = false := by
  have hsplit := hleave
  simp only [exLeave, Bool.and_eq_true, Bool.not_eq_true'] at hsplit
  rcases hsplit with ⟨⟨hbubble, hmem⟩, -⟩
  simp only [exMemNext, clkRun_of_memRunning hmem, hbubble, hleave, hreset, if_true,
    Bool.false_eq_true, if_false]
  refine ⟨_, rfl, ?_⟩
  split_ifs <;> simp [heip]

/-- The instruction in the EX stage after a load or its first pass has left it. -/
theorem idExNext_eq_align (hal : c.loadAligner = false) (hrun : memRunning c s i = true)
    (hex : exRunning c s i = true) (hmulti : s.idEx.multicycleLhLb = true)
    (hcancel : memCancelEx c s = false) (heip : s.exMem.eip = false) (hreset : s.rReset = false) :
    idExNext c s i = idExAlign c s i
      { s.idEx with
        cancelNext :=
          (memTakeBranch s && !idRunning c s i && ifFetchComplete s i) || s.idEx.cancelNext
        mulCompound := !c.multEnable && s.idEx.mulCompound } := by
  simp only [idExNext, clkRun_of_memRunning hrun, hex, hal, hmulti, hcancel, heip, hreset, if_true,
    Bool.not_false, Bool.and_true, Bool.false_eq_true, if_false]

/-- The low bits of an address. -/
theorem offset_eq (hadds : s.idEx.opMinor.getLsbD 1 = false)
    (hfwd : s.idEx.fwdExAluOp2 = false ∧ s.idEx.fwdMemAluOp2 = false) :
    ((exFromAluAddsubx c s).extractLsb 31 0).extractLsb 1 0 = ex2bitAdd c s := by
  have hop : exEffAluOp2 c s = s.idEx.aluOp2 := by
    simp [exEffAluOp2, hfwd.1, hfwd.2]
  have hsum : (exFromAluAddsubx c s).extractLsb 31 0 = exEffReg1 c s + s.idEx.aluOp2 := by
    simp only [exFromAluAddsubx, aluAddsubx, hadds, hop]
    apply BitVec.eq_of_toNat_eq
    simp
  rw [hsum, extractLsb_low_add, ex2bitAdd]

/-- The pass that is left behind in the EX stage. -/
theorem pass_left (hal : c.loadAligner = false) (h : LoadInstr c rd size signed s.idEx)
    (hmulti : s.idEx.multicycleLhLb = true) (hleave : exLeave c s i = true)
    (hreset : s.rReset = false) (hcancel : memCancelEx c s = false) (heip : s.exMem.eip = false)
    (hamount : (if !s.exMem.multicycleLhLb then exMemalignShamt c s ++ 0#3
      else s.idEx.shiftAmount) = memalignShamt c size o ++ 0#3) :
    PassInEx c rd size signed o (step c s i).idEx ∧
      (step c s i).idEx.multicycleLhLb = !s.exMem.multicycleLhLb := by
  rcases running_of_leave hleave with ⟨hrun, hex⟩
  have hid : (step c s i).idEx = _ := idExNext_eq_align hal hrun hex hmulti hcancel heip hreset
  rw [hid]
  exact ⟨⟨⟨h.memSize, h.memReadSignExtend, h.writebackAddr, h.branch, h.cmov, h.sc, h.wait, h.alt⟩,
    rfl, rfl, ⟨rfl, rfl, hamount⟩, rfl, rfl⟩, rfl⟩

/-- What leaves the EX stage before a pass keeps nothing from running. -/
theorem quiet_left (hal : c.loadAligner = false) (h : LoadInstr c rd size signed s.idEx)
    (hmulti : s.idEx.multicycleLhLb = true) (hleave : exLeave c s i = true)
    (hreset : s.rReset = false) (heip : s.exMem.eip = false)
    (hblocked : s.idEx.opMajor = .shift → (exShamt c s i).extractLsb 2 1 = 0b00#2) :
    MemQuiet c (step c s i).exMem := by
  rcases exMemNext_eq_load hleave hreset heip with ⟨r, hmem, hr⟩
  have hmem' : (step c s i).exMem = exMemLoad c s i r := hmem
  have hexc : exException c s = false := by simp [exException, hmulti]
  refine ⟨?_, ?_, ?_, ?_, ?_⟩
  · rw [hmem']
    simp [exMemLoad, hal, hmulti]
  · rw [hmem']
    by_cases hshift : s.idEx.opMajor = .shift
    · simp [exMemLoad, hblocked hshift]
    · have : (s.idEx.opMajor == .shift) = false := by simpa using hshift
      simp [exMemLoad, this]
  · rw [hmem']
    simp [exMemLoad, exTakeBranch, h.branch.1, h.branch.2]
  · rw [hmem']
    simp [exMemLoad, hexc, hr]
  · rw [hmem']
    have := h.sc
    cases hll : c.llSc with
    | false => rfl
    | true =>
        rw [hll] at this
        simpa [exMemLoad, hll] using this

/-- A load leaves the EX stage. -/
theorem AccessInEx.leave (h : AccessInEx c rd size signed s.idEx)
    (hleave : exLeave c s i = true) (hreset : s.rReset = false) (heip : s.exMem.eip = false)
    (hexc : exException c s = false) :
    LoadOnBus c rd size signed (ex2bitAdd c s) (step c s i).exMem := by
  rcases exMemNext_eq_load hleave hreset heip with ⟨r, hnext, -⟩
  have hmem : (step c s i).exMem = exMemLoad c s i r := hnext
  rw [hmem]
  constructor
  · constructor
    · simp [exMemLoad, h.memCycle, hexc, h.sc]
    · exact h.memSize
    · exact h.memReadSignExtend
    · exact offset_eq h.adds h.fwdAluOp2
    · simp only [exMemLoad, hexc, exWritebackAddr, h.cmov, Bool.false_eq_true, if_false]
      exact h.writebackAddr
  · have hshift : (s.idEx.opMajor == .shift) = false := by simpa using h.opMajor
    simp [exMemLoad, hshift]
  · have hsc := h.sc
    cases hll : c.llSc with
    | false => rfl
    | true =>
        rw [hll] at hsc
        simpa [exMemLoad, hll] using hsc

/-- A load leaves the EX stage, and its first pass takes its place. -/
theorem LoadInEx.leave (hal : c.loadAligner = false) (h : LoadInEx c rd size signed s.idEx)
    (hleave : exLeave c s i = true) (hreset : s.rReset = false)
    (hcancel : memCancelEx c s = false) (heip : s.exMem.eip = false)
    (hfirst : s.exMem.multicycleLhLb = false) :
    LoadInMem c rd size signed (ex2bitAdd c s) (step c s i) := by
  have hexc : exException c s = false := by simp [exException, h.multicycleLhLb]
  have hpass := pass_left (o := ex2bitAdd c s) hal h.toLoadInstr h.multicycleLhLb hleave hreset
    hcancel heip (by simp [hfirst, exMemalignShamt, h.memSize])
  refine ⟨?_, ?_, hpass.1, ?_⟩
  · exact quiet_left hal h.toLoadInstr h.multicycleLhLb hleave hreset heip
      (fun hshift => absurd hshift h.opMajor)
  · exact (h.toAccessInEx.leave hleave hreset heip hexc).toLoadAccess
  · rw [hpass.2, hfirst]
    rfl

/-- A clock in which the MEM stage does not run holds the stages before it. -/
theorem stages_held (hrun : memRunning c s i = false) (hreset : s.rReset = false)
    (hblocked : (!c.fullShifter && s.exMem.shiftBlocked) = false)
    (hsc : (c.llSc && s.exMem.sc) = false) (heip : s.exMem.eip = false)
    (hwait : (c.exceptions && s.idEx.wait) = false) :
    (∃ r : ExMem, (step c s i).exMem = { s.exMem with llBit := r.llBit, llAddr := r.llAddr }) ∧
      ∃ r : IdEx, (step c s i).idEx =
        { s.idEx with
          bubble := r.bubble
          wait := r.wait
          cancelNext := r.cancelNext
          mulCompound := r.mulCompound } ∧ (c.exceptions && r.wait) = false := by
  have hex : exRunning c s i = false := by simp [exRunning, hrun]
  have hbubble : exInsertBubble c s i = false := by simp [exInsertBubble, hrun]
  have hleave : exLeave c s i = false := by simp [exLeave, hrun]
  cases hclk : clkRun c i with
  | false =>
      refine ⟨⟨s.exMem, ?_⟩, s.idEx, ?_, hwait⟩
      · simp [step, exMemNext, hclk]
      · simp [step, idExNext, hclk]
  | true =>
      constructor
      · refine ⟨exMemNext c s i, ?_⟩
        simp [step, exMemNext, hclk, hblocked, hbubble, hleave, hreset, heip, hsc]
      · refine ⟨idExNext c s i, ?_, ?_⟩
        · simp [step, idExNext, hclk, hex, hreset]
        · simp only [idExNext, hclk, hex, hreset, if_true, Bool.false_eq_true, if_false]
          cases hx : c.exceptions with
          | false => rfl
          | true =>
              rw [hx, Bool.true_and] at hwait
              simp [hwait]

/-- A load in the MEM stage stays there while the stage does not run. -/
theorem LoadInMem.held (h : LoadInMem c rd size signed o s) (hrun : memRunning c s i = false)
    (hreset : s.rReset = false) :
    LoadInMem c rd size signed o (step c s i) := by
  rcases h with ⟨hquiet, hload, hpass, hsecond⟩
  rcases stages_held hrun hreset hquiet.blocked hquiet.sc hquiet.eip hpass.wait
    with ⟨⟨r, hmem⟩, q, hid, hwait⟩
  constructor
  · rw [hmem]
    exact ⟨hquiet.multicycle, hquiet.blocked, hquiet.branch, hquiet.eip, hquiet.sc⟩
  · rw [hmem]
    exact ⟨hload.memCycle, hload.memSize, hload.memReadSignExtend, hload.offset,
      hload.writebackAddr⟩
  · rw [hid]
    exact ⟨⟨hpass.memSize, hpass.memReadSignExtend, hpass.writebackAddr, hpass.branch, hpass.cmov,
      hpass.sc, hwait, hpass.alt⟩, hpass.memCycle, hpass.opMajor, hpass.shift, hpass.fwdReg2⟩
  · rw [hid]
    exact hsecond

/-- The amount of a pass. -/
theorem PassInEx.exShamt (h : PassInEx c rd size signed o s.idEx) :
    Core.exShamt c s i = memalignShamt c size o ++ 0#3 := by
  simp [Core.exShamt, h.memCycle, h.shift.1, h.shift.2.2]

/-- The amount of a pass is in bytes. -/
theorem amount_bytes (n : BitVec 2) :
    (n ++ 0#3 : BitVec 5).extractLsb 2 0 = 0#3 ∧ (n ++ 0#3 : BitVec 5).extractLsb 2 1 = 0b00#2 ∧
      (n ++ 0#3 : BitVec 5).toNat = 8 * n.toNat := by
  revert n
  decide

/-- A load leaves the MEM stage, with its word in `MEM_WB_mem_data`. -/
theorem LoadInMem.leave (hal : c.loadAligner = false) (h : LoadInMem c rd size signed o s)
    (hrun : memRunning c s i = true) (hreset : s.rReset = false) :
    LoadInWb c rd size signed o (step c s i) := by
  rcases h with ⟨hquiet, hload, hpass, hsecond⟩
  have hex : exRunning c s i = true := by rw [exRunning_eq hpass.wait hpass.alt, hrun]
  have hleave := exLeave_of_running hquiet.not_cancelled hquiet.eip hrun hex
  rcases exMemNext_eq_load hleave hreset hquiet.eip with ⟨r, hnext, -⟩
  have hmem : (step c s i).exMem = exMemLoad c s i r := hnext
  have hlow : (exShamt c s i).extractLsb 2 1 = 0b00#2 := by
    rw [hpass.exShamt]
    exact (amount_bytes _).2.1
  constructor
  · exact quiet_left hal hpass.toLoadInstr hsecond hleave hreset hquiet.eip (fun _ => hlow)
  · rw [hmem]
    simp [exMemLoad, hpass.memCycle]
  · change LoadedWord rd size signed o (memWbNext c s i)
    simp only [memWbNext, clkRun_of_memRunning hrun, hrun, if_true]
    refine ⟨?_, hload.memSize, hload.memReadSignExtend, hload.offset, hload.writebackAddr⟩
    simp [hload.memCycle, hquiet.sc]
  · exact (pass_left hal hpass.toLoadInstr hsecond hleave hreset hquiet.not_cancelled hquiet.eip
      (by simp [hquiet.multicycle, hpass.shift.2.2])).1

/-- The second pass runs with the clock of the pipeline. -/
theorem LoadInWb.running (h : LoadInWb c rd size signed o s) : memRunning c s i = clkRun c i := by
  simp [memRunning, clkRun, h.idle, h.quiet.blocked, Bool.or_comm]

/-- The second pass leaves the EX stage with the loaded word, shifted. -/
theorem LoadInWb.leave (hal : c.loadAligner = false) (h : LoadInWb c rd size signed o s)
    (hclk : clkRun c i = true) (hreset : s.rReset = false) :
    PassInMem c rd size signed (s.memWb.memData >>> (8 * (memalignShamt c size o).toNat))
      (step c s i) := by
  have hrun : memRunning c s i = true := by rw [h.running, hclk]
  rcases h with ⟨hquiet, hidle, hload, hpass⟩
  have hex : exRunning c s i = true := by rw [exRunning_eq hpass.wait hpass.alt, hrun]
  have hleave := exLeave_of_running hquiet.not_cancelled hquiet.eip hrun hex
  rcases exMemNext_eq_load hleave hreset hquiet.eip with ⟨r, hnext, -⟩
  have hmem : (step c s i).exMem = exMemLoad c s i r := hnext
  have hexc := hquiet.no_exception
  have hreg2 : exEffReg2 c s = s.memWb.memData := by
    simp [exEffReg2, hpass.fwdReg2.1, hpass.fwdReg2.2, hal, wbEffData, hload.memCycle]
  rcases amount_bytes (memalignShamt c size o) with ⟨hlow, hlow', hamount⟩
  constructor
  · change (memWbNext c s i).multicycleLhLb = true
    rw [memWbNext_running hrun, hal, hquiet.multicycle]
    rfl
  · rw [hmem]
    constructor
    · simp [exMemLoad, hpass.memCycle]
    · simp only [exMemLoad, hpass.exShamt, hlow']
      simp
    · simp [exMemLoad, hexc, hpass.opMajor]
    · simp only [exMemLoad, hpass.exShamt, hlow]
    · have hdata := highStages_eq .rl (memalignShamt c size o ++ 0#3) s.memWb.memData
      rw [hlow, hamount] at hdata
      simp only [exMemLoad, exFromShift, hpass.exShamt, hpass.shift.2.1, hreg2]
      exact hdata
    · exact hpass.memSize
    · exact hpass.memReadSignExtend
    · simp only [exMemLoad, hexc, exWritebackAddr, hpass.cmov, Bool.false_eq_true, if_false]
      exact hpass.writebackAddr

/-- A clock that a wait of the cache holds changes no stage but for the word that was read. -/
theorem stages_gated (hclk : clkRun c i = false) :
    (step c s i).idEx = s.idEx ∧ (step c s i).exMem = s.exMem ∧
      ∃ w, (step c s i).memWb = { s.memWb with memData := w } := by
  refine ⟨by simp [step, idExNext, hclk], by simp [step, exMemNext, hclk], ?_⟩
  exact ⟨(memWbNext c s i).memData, by simp [step, memWbNext, hclk]⟩

theorem LoadInWb.held (h : LoadInWb c rd size signed o s) (hclk : clkRun c i = false) :
    LoadInWb c rd size signed o (step c s i) := by
  rcases h with ⟨hquiet, hidle, hload, hpass⟩
  rcases stages_gated (s := s) hclk with ⟨hid, hmem, w, hwb⟩
  constructor
  · rw [hmem]
    exact hquiet
  · rw [hmem]
    exact hidle
  · rw [hwb]
    exact ⟨hload.memCycle, hload.memSize, hload.memReadSignExtend, hload.offset,
      hload.writebackAddr⟩
  · rw [hid]
    exact hpass

variable {w : Word}

theorem PassInMem.held (h : PassInMem c rd size signed w s) (hclk : clkRun c i = false) :
    PassInMem c rd size signed w (step c s i) := by
  rcases stages_gated (s := s) hclk with ⟨-, hmem, v, hwb⟩
  constructor
  · rw [hwb]
    exact h.multicycle
  · rw [hmem]
    exact h.pass

/-- The second pass leaves the MEM stage with the shifted word, extended. -/
theorem PassInMem.leave (hal : c.loadAligner = false) (hnarrow : size = .size8 ∨ size = .size16)
    (h : PassInMem c rd size signed w s) (hclk : clkRun c i = true) :
    (step c s i).memWb.writebackAddr = rd ∧ (step c s i).memWb.writeEnable = (rd != regZero) ∧
      wbEffData (step c s i) = extendTo size signed w := by
  rcases h with ⟨hmulti, hidle, hblocked, hop, hshamt, hdata, hsize, hsign, hrd⟩
  have hrun : memRunning c s i = true := by
    rw [← hclk]
    simp [memRunning, clkRun, hidle, hblocked, Bool.or_comm]
  have hshift : memShiftStage4 c s = w := by
    have hsel : memShamt c s = 0#3 := by
      rw [memShamt, hblocked, hshamt]
      cases c.fullShifter <;> rfl
    simp [memShiftStage4, hsel, shiftStage, hdata]
  have hwb : (step c s i).memWb = memWbNext c s i := rfl
  rw [wbEffData, hwb]
  simp only [memWbNext, hclk, hrun, if_true, hidle, hop, hrd, Bool.false_and, Bool.false_eq_true,
    if_false, memFromShift, hshift, hal, hmulti, hsize, hsign]
  refine ⟨trivial, trivial, ?_⟩
  rcases hnarrow with rfl | rfl
  · rfl
  · rfl

end Stages

section Direct

variable {c : Config} {s : State} {i : Input} {rd : RegAddr} {size : MemSize} {signed : Bool}
  {o : BitVec 2}

/-- Its word in the WB stage. -/
structure LoadDone (rd : RegAddr) (size : MemSize) (signed : Bool) (o : BitVec 2) (r : MemWb) :
    Prop extends LoadedWord rd size signed o r where
  writeEnable : r.writeEnable = (rd != regZero)

/-- A clock in which the MEM stage does not run holds it. -/
theorem exMem_held (hrun : memRunning c s i = false) (hreset : s.rReset = false)
    (hblocked : (!c.fullShifter && s.exMem.shiftBlocked) = false) :
    ∃ r : ExMem, (step c s i).exMem =
        { s.exMem with
          llBit := r.llBit
          llAddr := r.llAddr
          eip := r.eip
          memCycle := r.memCycle } ∧
      ((c.llSc && s.exMem.sc) = false → r.memCycle = s.exMem.memCycle) := by
  have hbubble : exInsertBubble c s i = false := by simp [exInsertBubble, hrun]
  have hleave : exLeave c s i = false := by simp [exLeave, hrun]
  cases hclk : clkRun c i with
  | false => exact ⟨s.exMem, by simp [step, exMemNext, hclk], fun _ => rfl⟩
  | true =>
      refine ⟨exMemNext c s i, ?_, ?_⟩
      · simp [step, exMemNext, hclk, hblocked, hbubble, hleave, hreset]
      · intro hsc
        simp [exMemNext, hclk, hblocked, hbubble, hleave, hreset, hsc]

theorem LoadOnBus.held (h : LoadOnBus c rd size signed o s.exMem)
    (hrun : memRunning c s i = false) (hreset : s.rReset = false) :
    LoadOnBus c rd size signed o (step c s i).exMem := by
  rcases exMem_held hrun hreset h.blocked with ⟨r, hmem, hkeep⟩
  rw [hmem]
  exact ⟨⟨(hkeep h.sc).trans h.memCycle, h.memSize, h.memReadSignExtend, h.offset,
    h.writebackAddr⟩, h.blocked, h.sc⟩

theorem LoadOnBus.leave (h : LoadOnBus c rd size signed o s.exMem)
    (hrun : memRunning c s i = true) : LoadDone rd size signed o (step c s i).memWb := by
  change LoadDone rd size signed o (memWbNext c s i)
  simp only [memWbNext, clkRun_of_memRunning hrun, hrun, if_true]
  refine ⟨⟨?_, h.memSize, h.memReadSignExtend, h.offset, h.writebackAddr⟩, ?_⟩
  · simp [h.memCycle, h.sc]
  · rw [h.writebackAddr]

theorem LoadDone.held (h : LoadDone rd size signed o s.memWb) (hclk : clkRun c i = false) :
    LoadDone rd size signed o (step c s i).memWb := by
  rcases stages_gated (s := s) hclk with ⟨-, -, w, hwb⟩
  rw [hwb]
  exact ⟨⟨h.memCycle, h.memSize, h.memReadSignExtend, h.offset, h.writebackAddr⟩, h.writeEnable⟩

/-- The word that is written to the register file. -/
theorem LoadDone.value (h : LoadDone rd size signed o s.memWb)
    (hdirect : c.loadAligner = true ∨ size.bit1 = true) (haligned : AlignedAt size o) :
    wbWritebackData c s i =
      extendTo size signed (s.memWb.memData >>> (8 * (memalignShamt c size o).toNat)) := by
  cases hal : c.loadAligner with
  | true =>
      rw [← memDataAligned_eq c i.undef signed haligned]
      simp [wbWritebackData, hal, h.memCycle, wbMemDataAligned, h.memSize, h.memReadSignExtend,
        h.offset]
  | false =>
      have hwide : size.bit1 = true := by simpa [hal] using hdirect
      have hzero : memalignShamt c size o = 0#2 := by simp [memalignShamt, hwide]
      rw [hzero]
      cases size with
      | size8 => cases hwide
      | size16 => cases hwide
      | size32 => simp [wbWritebackData, hal, wbEffData, h.memCycle, extendTo]
      | size64 => simp [wbWritebackData, hal, wbEffData, h.memCycle, extendTo]

/-- The word that a clock reads from the bus. -/
theorem memData_read (h : memRunning c s i = true ∨ clkRun c i = false) :
    (step c s i).memWb.memData = endian c i.dmemDataIn := by
  change (memWbNext c s i).memData = memDataIn c i
  rcases h with hrun | hclk
  · simp [memWbNext, clkRun_of_memRunning hrun, hrun]
  · have hwait : (c.cache && i.dmemCacheWait) = true := by
      simp only [clkRun, Bool.or_eq_false_iff, Bool.not_eq_false'] at hclk
      rw [hclk.1, hclk.2]
      rfl
    simp [memWbNext, hclk, hwait]

end Direct

section Store

variable {c : Config} {s : State} {i : Input} {size : MemSize} {o : BitVec 2} {v : Word}

/-- A store in the EX stage, as the decoder sends it there. -/
structure StoreInEx (size : MemSize) (r : IdEx) : Prop where
  memCycle : r.memCycle = true
  memWrite : r.memWrite = true
  memSize : r.memSize = size
  shiftFunct : r.shiftFunct = .ll
  opMajor : r.opMajor ≠ .shift

/-- A store in the MEM stage, with its value in the lanes of the access. -/
structure StoreInMem (c : Config) (size : MemSize) (o : BitVec 2) (v : Word) (r : ExMem) :
    Prop where
  memWrite : r.memWrite = true
  memByteSel : r.memByteSel = memByteSel size o
  memDataOut : r.memDataOut = v <<< (8 * (memalignShamt c size o).toNat)
  blocked : (!c.fullShifter && r.shiftBlocked) = false

/-- The 8 and 16 bit stages shift a store by the bytes of its offset. -/
theorem storeStages_eq (m : BitVec 2) (x : BitVec 3) (w : Word) :
    shiftStage 16 .ll ((m ++ x : BitVec 5).getLsbD 4)
      (shiftStage 8 .ll ((m ++ x : BitVec 5).getLsbD 3) w) = w <<< (8 * m.toNat) := by
  have hbits : 8 * ((m ++ x : BitVec 5).getLsbD 3).toNat +
      16 * ((m ++ x : BitVec 5).getLsbD 4).toNat = 8 * m.toNat := by
    revert m x
    decide
  rw [shiftStage_ll, shiftStage_ll, ← BitVec.shiftLeft_add, hbits]

theorem StoreInEx.leave (h : StoreInEx size s.idEx) (hleave : exLeave c s i = true)
    (hreset : s.rReset = false) (heip : s.exMem.eip = false) :
    StoreInMem c size (ex2bitAdd c s) (exEffReg2 c s) (step c s i).exMem := by
  rcases exMemNext_eq_load hleave hreset heip with ⟨r, hnext, -⟩
  have hmem : (step c s i).exMem = exMemLoad c s i r := hnext
  rw [hmem]
  constructor
  · exact h.memWrite
  · change memByteSel s.idEx.memSize (ex2bitAdd c s) = _
    rw [h.memSize]
  · change exFromShift c s i = _
    rw [exFromShift, exShamt, h.memCycle, h.shiftFunct, exMemalignShamt, h.memSize]
    exact storeStages_eq _ _ _
  · have hshift : (s.idEx.opMajor == .shift) = false := by simpa using h.opMajor
    simp [exMemLoad, hshift]

theorem StoreInMem.held (h : StoreInMem c size o v s.exMem) (hrun : memRunning c s i = false)
    (hreset : s.rReset = false) : StoreInMem c size o v (step c s i).exMem := by
  rcases exMem_held hrun hreset h.blocked with ⟨r, hmem, -⟩
  rw [hmem]
  exact ⟨h.memWrite, h.memByteSel, h.memDataOut, h.blocked⟩

/-- What a store does to the word at its address. -/
structure StoresLanes (c : Config) (size : MemSize) (o : BitVec 2) (v : Word) (s : State) :
    Prop where
  memWrite : s.exMem.memWrite = true
  selected : ∀ k < 4, s.exMem.memByteSel.getLsbD k = true ↔ o.toNat ≤ k ∧ k < o.toNat + size.bytes
  kept : ∀ old, ∀ k < 4, s.exMem.memByteSel.getLsbD k = false →
    lane (mergeLanes s.exMem.memByteSel old (dmemDataOut c s)) k = lane old k
  loaded : ∀ (u : Undef) (signed : Bool) (old : Word),
    memDataAligned c u size signed o
      (endian c (mergeLanes s.exMem.memByteSel old (dmemDataOut c s))) = extendTo size signed v

theorem StoreInMem.lanes (h : StoreInMem c size o v s.exMem) (haligned : AlignedAt size o) :
    StoresLanes c size o v s := by
  refine ⟨h.memWrite, ?_, ?_, ?_⟩
  · intro k hk
    rw [h.memByteSel, memByteSel_iff haligned hk]
  · intro old k hk hsel
    rw [lane_mergeLanes _ _ _ hk, hsel]
    rfl
  · intro u signed old
    have hout : dmemDataOut c s = storeLanes c size o v := by
      rw [dmemDataOut, h.memDataOut, storeLanes]
    rw [h.memByteSel, hout]
    exact load_after_store c u signed haligned old v

end Store

section Run

variable {c : Config} {s : State} {inp : Nat → Input} {rd : RegAddr} {size : MemSize}
  {signed : Bool} {o : BitVec 2} {n : Nat}

/-- The load has read its word in clock `j`. -/
structure ReadIn (c : Config) (s : State) (inp : Nat → Input) (n j : Nat) : Prop where
  order : n < j
  word : (stateAt (step c) s inp (j + 1)).memWb.memData = endian c (inp j).dmemDataIn

/-- The load that leaves the EX stage in clock `n` reads its word from the bus in clock `j`, at the
end of its stay in the MEM stage and of a wait of the cache, and writes its value in clock `t`. -/
structure Delivers (c : Config) (rd : RegAddr) (size : MemSize) (signed : Bool) (o : BitVec 2)
    (s : State) (inp : Nat → Input) (n j t : Nat) : Prop extends ReadIn c s inp n j where
  read : LoadedWord rd size signed o (stateAt (step c) s inp (j + 1)).memWb
  last : clkRun c (inp (j + 1)) = true
  after : j < t
  writebackAddr : (stateAt (step c) s inp t).memWb.writebackAddr = rd
  writeEnable : (stateAt (step c) s inp t).memWb.writeEnable = (rd != regZero)
  value : ∀ u : Undef, wbWritebackData c (stateAt (step c) s inp t) (inp t) =
    memDataAligned c u size signed o (endian c (inp j).dmemDataIn)

/-- The data bus answers, and the cache does not wait forever. -/
def Answers (c : Config) (inp : Nat → Input) : Prop :=
  ∀ t, ∃ t', t ≤ t' ∧ (clkRun c (inp t') = true ∧ (inp t').dmemDataReady = true)

theorem Answers.runs (h : Answers c inp) (t : Nat) : ∃ t', t ≤ t' ∧ clkRun c (inp t') = true := by
  rcases h t with ⟨t', hle, hclk, -⟩
  exact ⟨t', hle, hclk⟩

theorem LoadOnBus.running {s : State} {i : Input} (h : LoadOnBus c rd size signed o s.exMem) :
    memRunning c s i = (clkRun c i && i.dmemDataReady) := by
  simp [memRunning, clkRun, h.memCycle, h.blocked, Bool.or_comm]

/-- A word that is in the WB stage stays there for the last clock of a wait of the cache. -/
theorem read_last {W : State → Prop} (hanswers : Answers c inp)
    (hheld : ∀ t, W (stateAt (step c) s inp t) → clkRun c (inp t) = false →
      W (stateAt (step c) s inp (t + 1)))
    {t : Nat} (h : ∃ j, t = j + 1 ∧ ReadIn c s inp n j ∧ W (stateAt (step c) s inp (j + 1))) :
    ∃ j, ReadIn c s inp n j ∧ W (stateAt (step c) s inp (j + 1)) ∧
      clkRun c (inp (j + 1)) = true := by
  have hwait : ∀ t, (∃ j, t = j + 1 ∧ ReadIn c s inp n j ∧ W (stateAt (step c) s inp (j + 1))) →
      ¬clkRun c (inp t) = true →
      ∃ j, t + 1 = j + 1 ∧ ReadIn c s inp n j ∧ W (stateAt (step c) s inp (j + 1)) := by
    rintro t ⟨j, rfl, hread, hw⟩ hclk
    rw [Bool.not_eq_true] at hclk
    have horder := hread.order
    exact ⟨j + 1, rfl, ⟨by omega, memData_read (.inr hclk)⟩, hheld _ hw hclk⟩
  have hgo : ∀ t, (∃ j, t = j + 1 ∧ ReadIn c s inp n j ∧ W (stateAt (step c) s inp (j + 1))) →
      clkRun c (inp t) = true →
      ∃ j, ReadIn c s inp n j ∧ W (stateAt (step c) s inp (j + 1)) ∧
        clkRun c (inp (j + 1)) = true := by
    rintro t ⟨j, rfl, hread, hw⟩ hclk
    exact ⟨j, hread, hw, hclk⟩
  rcases @exists_of_wait _ (fun _ => ∃ j, ReadIn c s inp n j ∧
    W (stateAt (step c) s inp (j + 1)) ∧ clkRun c (inp (j + 1)) = true) _ hwait hgo hanswers.runs t h
    with ⟨-, -, hdone⟩
  exact hdone

/-- A load on the bus leaves the MEM stage with its word. -/
theorem read_answered {M W : State → Prop} (hanswers : Answers c inp)
    (hrun : ∀ s i, M s → memRunning c s i = (clkRun c i && i.dmemDataReady))
    (hheld : ∀ t, n < t → M (stateAt (step c) s inp t) →
      memRunning c (stateAt (step c) s inp t) (inp t) = false → M (stateAt (step c) s inp (t + 1)))
    (hleave : ∀ t, n < t → M (stateAt (step c) s inp t) →
      memRunning c (stateAt (step c) s inp t) (inp t) = true → W (stateAt (step c) s inp (t + 1)))
    (h : M (stateAt (step c) s inp (n + 1))) :
    ∃ t j, t = j + 1 ∧ ReadIn c s inp n j ∧ W (stateAt (step c) s inp (j + 1)) := by
  have hwait : ∀ t, n < t ∧ M (stateAt (step c) s inp t) →
      ¬(clkRun c (inp t) = true ∧ (inp t).dmemDataReady = true) →
      n < t + 1 ∧ M (stateAt (step c) s inp (t + 1)) := by
    rintro t ⟨ht, hm⟩ hno
    refine ⟨by omega, hheld t ht hm ?_⟩
    rw [hrun _ _ hm]
    simpa using hno
  have hgo : ∀ t, n < t ∧ M (stateAt (step c) s inp t) →
      clkRun c (inp t) = true ∧ (inp t).dmemDataReady = true →
      ∃ j, t + 1 = j + 1 ∧ ReadIn c s inp n j ∧ W (stateAt (step c) s inp (j + 1)) := by
    rintro t ⟨ht, hm⟩ ⟨hclk, hready⟩
    have hruns : memRunning c (stateAt (step c) s inp t) (inp t) = true := by
      rw [hrun _ _ hm, hclk, hready]
      rfl
    exact ⟨t, rfl, ⟨ht, memData_read (.inl hruns)⟩, hleave t ht hm hruns⟩
  rcases @exists_of_wait _ (fun t => ∃ j, t = j + 1 ∧ ReadIn c s inp n j ∧
    W (stateAt (step c) s inp (j + 1))) _ hwait hgo hanswers (n + 1) ⟨by omega, h⟩
    with ⟨t, -, hdone⟩
  exact ⟨t, hdone⟩

/-- A load that takes no second pass is delivered from the WB stage. -/
theorem direct_delivers (hdirect : c.loadAligner = true ∨ size.bit1 = true)
    (haligned : AlignedAt size o) (hreset : OutOfReset c s inp n) (hanswers : Answers c inp)
    (h : LoadOnBus c rd size signed o (stateAt (step c) s inp (n + 1)).exMem) :
    ∃ j t, Delivers c rd size signed o s inp n j t := by
  have hanswered := @read_answered c s inp n (fun s => LoadOnBus c rd size signed o s.exMem)
    (fun s => LoadDone rd size signed o s.memWb) hanswers (fun s i hm => hm.running)
    (fun t ht hm hrun => hm.held hrun (hreset.at (by omega)))
    (fun t ht hm hrun => hm.leave hrun) h
  rcases hanswered with ⟨t, hread⟩
  rcases @read_last c s inp n (fun s => LoadDone rd size signed o s.memWb) hanswers
    (fun t hw hclk => hw.held hclk) t hread with ⟨j, hread, hdone, hclk⟩
  refine ⟨j, j + 1, hread, hdone.toLoadedWord, hclk, by omega, hdone.writebackAddr,
    hdone.writeEnable, ?_⟩
  intro u
  rw [hdone.value hdirect haligned, hread.word, memDataAligned_eq c u signed haligned]

/-- A load that takes a second pass is delivered by it. -/
theorem multicycle_delivers (hal : c.loadAligner = false)
    (hnarrow : size = .size8 ∨ size = .size16)
    (haligned : AlignedAt size o) (hreset : OutOfReset c s inp n) (hanswers : Answers c inp)
    (h : LoadInMem c rd size signed o (stateAt (step c) s inp (n + 1))) :
    ∃ j t, Delivers c rd size signed o s inp n j t := by
  have hbus : ∀ s, LoadInMem c rd size signed o s → LoadOnBus c rd size signed o s.exMem :=
    fun s hm => ⟨hm.load, hm.quiet.blocked, hm.quiet.sc⟩
  have hanswered := @read_answered c s inp n (LoadInMem c rd size signed o)
    (LoadInWb c rd size signed o) hanswers (fun s i hm => (hbus s hm).running)
    (fun t ht hm hrun => hm.held hrun (hreset.at (by omega)))
    (fun t ht hm hrun => hm.leave hal hrun (hreset.at (by omega))) h
  rcases hanswered with ⟨t, hread⟩
  rcases @read_last c s inp n (LoadInWb c rd size signed o) hanswers
    (fun t hw hclk => hw.held hclk) t hread with ⟨j, hread, hwb, hclk⟩
  have horder := hread.order
  -- the second pass, from the clock in which it takes the word to the one in which it leaves
  have hpass := hwb.leave hal hclk (hreset.at (by omega))
  rw [hread.word] at hpass
  have hwait : ∀ t, j < t ∧ PassInMem c rd size signed
        (endian c (inp j).dmemDataIn >>> (8 * (memalignShamt c size o).toNat))
        (stateAt (step c) s inp t) →
      ¬clkRun c (inp t) = true →
      j < t + 1 ∧ PassInMem c rd size signed
        (endian c (inp j).dmemDataIn >>> (8 * (memalignShamt c size o).toNat))
        (stateAt (step c) s inp (t + 1)) := by
    rintro t ⟨ht, hp⟩ hstop
    rw [Bool.not_eq_true] at hstop
    exact ⟨by omega, hp.held hstop⟩
  have hgo : ∀ t, j < t ∧ PassInMem c rd size signed
        (endian c (inp j).dmemDataIn >>> (8 * (memalignShamt c size o).toNat))
        (stateAt (step c) s inp t) →
      clkRun c (inp t) = true → ∃ t, Delivers c rd size signed o s inp n j t := by
    rintro t ⟨ht, hp⟩ hgoes
    rcases hp.leave hal hnarrow hgoes with ⟨haddr, henable, hvalue⟩
    refine ⟨t + 1, hread, hwb.load, hclk, by omega, haddr, henable, ?_⟩
    intro u
    rw [memDataAligned_eq c u signed haligned, ← hvalue, wbWritebackData, hal]
    rfl
  rcases @exists_of_wait _ (fun _ => ∃ t, Delivers c rd size signed o s inp n j t) _ hwait hgo
    hanswers.runs (j + 2) ⟨by omega, hpass⟩ with ⟨-, -, hdone⟩
  exact ⟨j, hdone⟩

/-- The address of the access in the EX stage. -/
def accessAddr (c : Config) (s : State) : Word := (exFromAluAddsubx c s).extractLsb 31 0

/-- The offset of an access is not forwarded. -/
theorem Decoded.Access.no_forwarding {s : State} {i : Input} (h : (idDecoded c s i).Access)
    (r : IdEx) :
    (idExLoad c s i r).fwdExAluOp2 = false ∧ (idExLoad c s i r).fwdMemAluOp2 = false := by
  simp [idExLoad, idFwdExAluOp2, idFwdMemAluOp2, h.useImmediate]

/-- What the EX stage holds of a decoded access. -/
theorem Traverses.access {k : Nat} (hex : Traverses c s inp k n) (hpower : AlignPowerUp s)
    (hreset : OutOfReset c s inp k) (hmem : (issued c s inp k).memCycle = true) :
    (stateAt (step c) s inp n).idEx.memCycle = true ∧
      (stateAt (step c) s inp n).idEx.opMajor ≠ .shift ∧
      (accessAddr c (stateAt (step c) s inp n)).extractLsb 1 0 =
        ex2bitAdd c (stateAt (step c) s inp n) := by
  have hacc := idecode_access _ _ _ hmem
  rcases (hex.inEx hpower hreset).instr with ⟨q, hinstr⟩
  refine ⟨?_, ?_, ?_⟩
  · rw [hinstr]
    exact hmem
  · rw [hinstr]
    intro hshift
    have halu : (issued c s inp k).opMajor = .alu := hacc.opMajor
    rw [show (issued c s inp k).opMajor = .shift from hshift] at halu
    cases halu
  · apply offset_eq
    · rw [hinstr]
      exact hacc.adds
    · rw [hinstr]
      exact Decoded.Access.no_forwarding hacc (stateAt (step c) s inp k).idEx

theorem Traverses.load {k : Nat} (hex : Traverses c s inp k n) (hpower : AlignPowerUp s)
    (hreset : OutOfReset c s inp k) (hmem : (issued c s inp k).memCycle = true)
    (hload : (issued c s inp k).memWrite = false) :
    AccessInEx c (issued c s inp k).targetAddr (issued c s inp k).memSize
      (issued c s inp k).memReadSignExtend (stateAt (step c) s inp n).idEx := by
  have hacc : (issued c s inp k).Access := idecode_access _ _ _ hmem
  rcases (hex.inEx hpower hreset).instr with ⟨q, hinstr⟩
  rcases leave_quiet (alignInv_run hpower n) hex.leaves with ⟨-, -, -, hrun⟩
  rcases hex.access hpower hreset hmem with ⟨hcycle, hmajor, -⟩
  have hwait : (c.exceptions && (stateAt (step c) s inp n).idEx.wait) = false := by
    simp only [exRunning, Bool.and_eq_true, Bool.not_eq_true'] at hrun
    exact hrun.1.2
  constructor
  · constructor
    · rw [hinstr]
      rfl
    · rw [hinstr]
      rfl
    · rw [hinstr]
      rfl
    · rw [hinstr]
      constructor
      · exact hacc.branch
      · change (_ && (issued c s inp k).branchCycle) = false
        rw [hacc.branch, Bool.and_false]
    · rw [hinstr]
      change (c.movnMovz && (c.movnMovz && (issued c s inp k).cmovCycle)) = false
      rw [hacc.cmov, Bool.and_false, Bool.and_false]
    · rw [hinstr]
      change (c.llSc && (if c.llSc then (issued c s inp k).sc else _)) = false
      cases c.llSc with
      | false => rfl
      | true => exact hacc.sc hload
    · exact hwait
    · rw [hinstr]
      change (issued c s inp k).altSel ≠ .hi ∧ (issued c s inp k).altSel ≠ .lo
      rw [hacc.altSel]
      constructor <;> simp
  · exact hcycle
  · exact hmajor
  · rw [hinstr]
    exact hacc.adds
  · rw [hinstr]
    exact Decoded.Access.no_forwarding hacc (stateAt (step c) s inp k).idEx

/-- A byte or half word load takes a second pass. -/
theorem Traverses.multicycle {k : Nat} (hal : c.loadAligner = false)
    (hex : Traverses c s inp k n) (hpower : AlignPowerUp s) (hreset : OutOfReset c s inp k)
    (hmem : (issued c s inp k).memCycle = true) (hload : (issued c s inp k).memWrite = false)
    (hsize : (issued c s inp k).memSize.bit1 = false) :
    (stateAt (step c) s inp n).idEx.multicycleLhLb = true := by
  rcases (hex.inEx hpower hreset).instr with ⟨q, hinstr⟩
  rw [hinstr]
  change (!(c.exceptions && (stateAt (step c) s inp k).exMem.eip) && !c.loadAligner &&
    (issued c s inp k).memCycle && !(issued c s inp k).memWrite &&
      !(issued c s inp k).memSize.bit1) = true
  rw [issue_no_exception hex.issue, hal, hmem, hload, hsize]
  rfl

theorem Traverses.store {k : Nat} (hex : Traverses c s inp k n) (hpower : AlignPowerUp s)
    (hreset : OutOfReset c s inp k) (hmem : (issued c s inp k).memCycle = true)
    (hstore : (issued c s inp k).memWrite = true) :
    StoreInEx (issued c s inp k).memSize (stateAt (step c) s inp n).idEx := by
  have hacc : (issued c s inp k).Access := idecode_access _ _ _ hmem
  rcases (hex.inEx hpower hreset).instr with ⟨q, hinstr⟩
  rcases hex.access hpower hreset hmem with ⟨hcycle, hmajor, -⟩
  refine ⟨hcycle, ?_, ?_, ?_, hmajor⟩
  · rw [hinstr]
    exact hstore
  · rw [hinstr]
    rfl
  · rw [hinstr]
    exact hacc.shiftFn

/-- The value of a load is what the load aligner makes of the word that was read, with the load
aligner or without it.  A store drives the lanes of its access as long as it is in the MEM stage: it
keeps the other bytes of the word, and a load from its address gives its value, extended. -/
theorem load_store_lanes (hpower : AlignPowerUp s) {k n : Nat} (hreset : OutOfReset c s inp k)
    (hex : Traverses c s inp k n) (hmem : (issued c s inp k).memCycle = true)
    (haligned : AlignedAt (issued c s inp k).memSize
      ((accessAddr c (stateAt (step c) s inp n)).extractLsb 1 0)) :
    ((issued c s inp k).memWrite = false → Answers c inp →
      exException c (stateAt (step c) s inp n) = false →
      ∃ j t, Delivers c (issued c s inp k).targetAddr (issued c s inp k).memSize
        (issued c s inp k).memReadSignExtend
        ((accessAddr c (stateAt (step c) s inp n)).extractLsb 1 0) s inp n j t) ∧
    ((issued c s inp k).memWrite = true →
      ∀ t, n < t →
        (∀ j, n < j → j < t → memRunning c (stateAt (step c) s inp j) (inp j) = false) →
        StoresLanes c (issued c s inp k).memSize
          ((accessAddr c (stateAt (step c) s inp n)).extractLsb 1 0)
          (exEffReg2 c (stateAt (step c) s inp n)) (stateAt (step c) s inp t)) := by
  rcases hex.access hpower hreset hmem with ⟨-, -, hoffset⟩
  rcases leave_quiet (alignInv_run hpower n) hex.leaves with ⟨hcancel, heip, -, -⟩
  have horder := hex.order
  have hresetn : OutOfReset c s inp n := hreset.mono (by omega)
  rw [hoffset] at haligned ⊢
  constructor
  · intro hload hanswers hexc
    have hacc := hex.load hpower hreset hmem hload
    by_cases hdirect : c.loadAligner = true ∨ (issued c s inp k).memSize.bit1 = true
    · exact direct_delivers hdirect haligned hresetn hanswers
        (hacc.leave hex.leaves hresetn.now heip hexc)
    · rw [not_or, Bool.not_eq_true, Bool.not_eq_true] at hdirect
      rcases hdirect with ⟨hal, hnarrow⟩
      have hsize : (issued c s inp k).memSize = .size8 ∨ (issued c s inp k).memSize = .size16 := by
        generalize (issued c s inp k).memSize = size at hnarrow
        cases size with
        | size8 => exact .inl rfl
        | size16 => exact .inr rfl
        | size32 => cases hnarrow
        | size64 => cases hnarrow
      have hin : LoadInEx c _ _ _ _ :=
        ⟨hacc, hex.multicycle hal hpower hreset hmem hload hnarrow⟩
      exact multicycle_delivers hal hsize haligned hresetn hanswers
        (hin.leave hal hex.leaves hresetn.now hcancel heip (hex.inEx hpower hreset).first)
  · intro hstore t ht hstays
    have hall : StoreInMem c (issued c s inp k).memSize (ex2bitAdd c (stateAt (step c) s inp n))
        (exEffReg2 c (stateAt (step c) s inp n)) (stateAt (step c) s inp t).exMem := by
      induction t, ht using Nat.le_induction with
      | base =>
          exact (hex.store hpower hreset hmem hstore).leave hex.leaves hresetn.now heip
      | succ t ht ih =>
          have hheld := ih (fun j hj hlt => hstays j hj (by omega))
          exact hheld.held (hstays t ht (by omega)) (hresetn.at (by omega))
    exact hall.lanes haligned

/-- `lb $2, 1($3)` in the ID stage of a big-endian core without the load aligner. -/
def lbConfig : Config :=
  { arch := .mi32
    bigEndian := true
    multEnable := false
    branchLikely := true
    signExtend := true
    loadAligner := false }

def lbState : State :=
  { (default : State) with
    ifId := { (default : IfId) with instruction := 0x80620001#32 } }

def lbInput : Input :=
  { (default : Input) with
    imemDataReady := true
    dmemDataReady := true
    dmemDataIn := 0x11228344#32 }

/-- It delivers the byte in the second lane, extended. -/
theorem load_store_lanes_lb :
    ∃ t, (stateAt (step lbConfig) lbState (fun _ => lbInput) t).memWb.writebackAddr = 2#5 ∧
      wbWritebackData lbConfig (stateAt (step lbConfig) lbState (fun _ => lbInput) t) lbInput =
        0xffffff83#32 := by
  have hex : Traverses lbConfig lbState (fun _ => lbInput) 0 1 :=
    ⟨by decide, by decide +kernel, fun t h0 h1 => by omega, by decide +kernel⟩
  have hsize : (issued lbConfig lbState (fun _ => lbInput) 0).memSize = .size8 := by
    decide +kernel
  have haligned : ∀ o : BitVec 2,
      AlignedAt (issued lbConfig lbState (fun _ => lbInput) 0).memSize o := by
    intro o
    rw [hsize]
    trivial
  rcases (load_store_lanes (k := 0) (n := 1) ⟨rfl, rfl, rfl⟩ ⟨rfl, fun _ _ => rfl⟩ hex
    (by decide +kernel) (haligned _)).1 (by decide +kernel)
    (fun t => ⟨t, Nat.le_refl t, rfl, rfl⟩) (by decide +kernel) with ⟨j, t, h⟩
  refine ⟨t, ?_, ?_⟩
  · rw [h.writebackAddr]
    decide +kernel
  · rw [h.value default]
    decide +kernel

end Run

end Core
end F32c
