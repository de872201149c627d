import F32c.Core.Exceptions

/-!
# Redirects of the fetch

With `C_reg_IF_PC` the address of the next fetch is a function of what every stage
holds, and while a D-cache wait stops the clock of the core, that address may differ
from the frozen `IF_ID_PC`.  This module shows when: a redirect is outstanding, either
to the target of a branch or into the exception handler.  The one other case is a
branch that was itself cancelled while its fetch was incomplete; behind it the
pipeline holds no access to the memory that could make the core wait.
-/

namespace F32c
namespace Core

section Decoder

theorem rv32RegImm_sound {u : Undef} {w : Word} {d : Decoded}
    (hbranch : d.branchCycle = false) (hjump : d.jumpCycle = false) : (rv32RegImm u w d).Sound := by
  apply Decoded.Sound.of_no_branch
  all_goals
    simp only [rv32RegImm, rv32Shift]
    split_ifs <;> assumption

theorem rv32RegReg_sound {u : Undef} {w : Word} {d : Decoded}
    (hbranch : d.branchCycle = false) (hjump : d.jumpCycle = false) : (rv32RegReg u w d).Sound := by
  apply Decoded.Sound.of_no_branch
  all_goals
    simp only [rv32RegReg, rv32Shift]
    split_ifs <;> assumption

theorem idecodeRv32_sound (c : Config) (u : Undef) (w : Word) :
    (idecodeRv32 c u w).Sound := by
  unfold idecodeRv32
  dsimp only
  repeat' first
    | exact rv32RegImm_sound rfl rfl
    | exact rv32RegReg_sound rfl rfl
    | refine Decoded.Sound.ite (fun _ => ?_) ?_
  all_goals first
    | exact .of_no_branch rfl rfl
    | exact ⟨fun _ => ⟨rfl, nofun, nofun⟩, fun _ => ⟨nofun, rfl⟩⟩

/-- A branch does not access the memory. -/
theorem idecode_branch_memCycle (c : Config) (u : Undef) (w : Word)
    (h : (idecode c u w).branchCycle = true) : (idecode c u w).memCycle = false := by
  have hsound : (idecode c u w).Sound := by
    unfold idecode
    cases c.arch with
    | mi32 => exact idecodeMi32_sound c u w
    | rv32 => exact idecodeRv32_sound c u w
  exact (hsound.delay (by simp [h])).2

end Decoder

section Stages

variable {c : Config} {s : State} {i : Input}

/-- A branch in the EX stage does not access the memory. -/
def ExApart (r : IdEx) : Prop :=
  (r.branchCycle || r.predictTaken || r.branchLikely) = true → r.memCycle = false

/-- A branch in the MEM stage does not access the memory. -/
def MemApart (r : ExMem) : Prop :=
  (r.takeBranch || r.branchTaken || r.branchLikely) = true → r.memCycle = false

theorem idExLoad_apart (r : IdEx) : ExApart (idExLoad c s i r) := by
  intro h
  apply idecode_branch_memCycle
  simp only [idExLoad, idPredictTaken, Bool.or_eq_true, Bool.and_eq_true] at h
  rcases h with (h | h) | h
  · exact h
  · exact h.1.2
  · exact h.2

theorem idExNext_apart (h : ExApart s.idEx) : ExApart (idExNext c s i) := by
  have hreset : ∀ r : IdEx, ExApart r →
      ExApart (if s.rReset then { r with exception := true, bubble := false, wait := false }
        else r) := by
    intro r hr
    split <;> exact hr
  unfold idExNext
  split
  · apply hreset
    split_ifs
    · exact fun _ => rfl
    · exact fun _ => rfl
    · exact idExLoad_apart _
    all_goals exact h
  · exact h

/-- With no fetch completed and no branch taken nothing enters the EX stage. -/
theorem idExNext_memCycle (hclk : clkRun c i = true) (hid : idRunning c s i = false)
    (h : (idExNext c s i).memCycle = true) :
    exRunning c s i = false ∧ s.idEx.memCycle = true := by
  revert h
  cases hex : exRunning c s i <;> cases hreset : s.rReset <;>
    cases halign : !c.loadAligner && s.idEx.multicycleLhLb && !memCancelEx c s && !s.exMem.eip <;>
    simp [idExNext, hclk, hex, hreset, halign, idInsertBubble, hid, idExAlign, idExBubble]

/-- What the MEM stage holds was there before or comes from the EX stage. -/
theorem exMemNext_memCycle (h : (exMemNext c s i).memCycle = true) :
    if clkRun c i then
      exInsertBubble c s i = false ∧
        (if exLeave c s i then s.idEx.memCycle = true ∧ exException c s = false
        else s.exMem.memCycle = true)
    else s.exMem.memCycle = true := by
  revert h
  cases hclk : clkRun c i <;> cases hb : exInsertBubble c s i <;> cases hl : exLeave c s i <;>
    cases hreset : s.rReset <;> cases hsh : !c.fullShifter && s.exMem.shiftBlocked <;>
    simp +contextual [exMemNext, hclk, hb, hl, hreset, hsh, exMemLoad, exMemBubble]

theorem exMemNext_branchLikely :
    (exMemNext c s i).branchLikely =
      if clkRun c i then
        if exInsertBubble c s i then false
        else if exLeave c s i then s.idEx.branchLikely && !exException c s
        else s.exMem.branchLikely
      else s.exMem.branchLikely := by
  cases hclk : clkRun c i <;> cases hb : exInsertBubble c s i <;> cases hl : exLeave c s i <;>
    cases hreset : s.rReset <;> cases hsh : !c.fullShifter && s.exMem.shiftBlocked <;>
    simp [exMemNext, hclk, hb, hl, hreset, hsh, exMemLoad, exMemBubble]

end Stages

section Flags

variable {c : Config} {s : State} {i : Input}

/-- The flags of the entry into the exception handler, and what they keep away. -/
structure EntryFlags (s : State) : Prop where
  ifId : s.ifId.eip = true → s.exMem.eip = true ∧ s.idEx.eip = false
  idEx : s.idEx.eip = true → s.exMem.eip = true
  settled : (s.ifId.eip || s.idEx.eip) = true →
    s.ifId.incompleteBranch = false ∧ s.idEx.cancelNext = false
  exMem : s.exMem.eip = true →
    s.exMem.takeBranch = false ∧ s.exMem.branchTaken = false ∧ s.exMem.memCycle = false

namespace EntryFlags

theorem idle (h : EntryFlags s) (heip : s.exMem.eip = false) :
    s.ifId.eip = false ∧ s.idEx.eip = false := by
  constructor
  · by_contra hne
    simp [(h.ifId (by simpa using hne)).1] at heip
  · by_contra hne
    simp [h.idEx (by simpa using hne)] at heip

theorem no_branch (h : EntryFlags s) (heip : s.exMem.eip = true) : memTakeBranch s = false := by
  obtain ⟨ht, hb, -⟩ := h.exMem heip
  simp [memTakeBranch, ht, hb]

theorem step_of_idle (hexc : c.exceptions = true) (h : EntryFlags s)
    (heip : s.exMem.eip = false) : EntryFlags (step c s i) := by
  obtain ⟨hif, hid⟩ := h.idle heip
  obtain ⟨hmem', hif', hid'⟩ := step_flags_of_idle (i := i) hexc heip hif hid
  refine ⟨by simp [hif'], by simp [hid'], by simp [hif', hid'], fun hnext => ?_⟩
  -- the exception is accepted in this clock
  rw [hmem'] at hnext
  simp only [Bool.and_eq_true] at hnext
  obtain ⟨⟨hclk, hleave⟩, haccept⟩ := hnext
  refine ⟨?_, ?_, (exMemNext_accepts hclk hleave haccept).1⟩
  · simp [step, exMemNext_takeBranch, hclk, hleave, haccept]
  · simp [step, exMemNext_branchTaken, hclk, hleave, haccept]

theorem step_of_eip (hexc : c.exceptions = true) (h : EntryFlags s)
    (heip : s.exMem.eip = true) : EntryFlags (step c s i) := by
  have hrefetch : ifNeedRefetch s i = false := by
    simp [ifNeedRefetch, h.no_branch heip]
  have hleave : exLeave c s i = false := exLeave_eip hexc heip
  obtain ⟨hmem', hif', hid'⟩ := step_flags_of_eip (i := i) hexc heip hrefetch
  have hsettled := h.settled
  have hexcl := h.ifId
  have hbusy : (s.ifId.eip || s.idEx.eip) = true → idRunning c s i = true →
      exRunning c s i = true :=
    fun hflags => idRunning_exRunning (h.settled hflags).2
  refine ⟨?_, ?_, ?_, ?_⟩
  · grind
  · grind
  · intro hflags
    cases hclk : clkRun c i with
    | false =>
        have hold : (s.ifId.eip || s.idEx.eip) = true := by simpa [hif', hid', hclk] using hflags
        simpa [step, ifIdNext, idExNext, hclk] using h.settled hold
    | true =>
        refine ⟨?_, idExNext_cancelNext hexc heip hclk⟩
        have hcomplete : s.ifId.incompleteBranch = false := by grind
        simp [step, ifIdNext_incompleteBranch, hrefetch, hcomplete]
  · intro _
    obtain ⟨htake, htaken, hmem⟩ := h.exMem heip
    refine ⟨?_, ?_, ?_⟩
    · simp [step, exMemNext_takeBranch, hleave, htake]
    · simp [step, exMemNext_branchTaken, hleave, htaken]
    · by_contra hne
      have hcycle := exMemNext_memCycle (by simpa [step] using hne : (exMemNext c s i).memCycle = true)
      simp [hleave, hmem] at hcycle

theorem next (hexc : c.exceptions = true) (h : EntryFlags s) : EntryFlags (step c s i) := by
  cases heip : s.exMem.eip with
  | false => exact h.step_of_idle hexc heip
  | true => exact h.step_of_eip hexc heip

end EntryFlags

end Flags

section Redirect

variable {c : Config} {s : State} {i : Input} {load load' : Bool}

/-- The next instruction that the ID stage takes is the injected `jr k0`. -/
def entersHandler (c : Config) (s : State) : Bool :=
  c.exceptions && s.exMem.eip && !s.ifId.eip && !s.idEx.eip

/-- A redirect of the fetch is outstanding, to the target of a branch or into the handler. -/
def redirecting (c : Config) (s : State) : Bool :=
  (memTakeBranch s && s.ifId.fetchInProgress) || s.ifId.incompleteBranch || entersHandler c s

/-- Nothing accesses the memory; `load` tells of the instruction that left the MEM stage. -/
def Drained (load : Bool) (s : State) : Prop :=
  load = false ∧ s.exMem.memCycle = false ∧ s.idEx.memCycle = false

/-- What the fetch relies on; `load` is set when the core may have to wait for a load. -/
structure FetchInv (c : Config) (load : Bool) (s : State) : Prop where
  masked : s.ifId.pc &&& pcMask c = s.ifId.pc
  exApart : ExApart s.idEx
  memApart : MemApart s.exMem
  flags : c.exceptions = true → EntryFlags s
  pcNext : s.ifId.pcNext ≠ s.ifId.pc → redirecting c s = true ∨ Drained load s

theorem ifIdNext_pc (hclk : clkRun c i = true) (hreset : s.rReset = false) :
    (ifIdNext c s i).pc = ifPcExtNext c s i ∧
      (ifIdNext c s i).pcNext = ifPcNext c s i &&& pcMask c ∧
      (ifIdNext c s i).fetchInProgress = !i.imemDataReady := by
  cases hwait : ifNeedRefetch s i || s.ifId.incompleteBranch <;>
    cases hid : idRunning c s i <;> simp only [ifIdNext, hclk, hwait, hid, hreset]
  all_goals simp [ifIdFetched]
  all_goals split_ifs <;> simp

theorem step_held (hclk : clkRun c i = false) :
    (step c s i).ifId.pc = s.ifId.pc ∧ (step c s i).ifId.pcNext = s.ifId.pcNext ∧
      redirecting c (step c s i) = redirecting c s ∧ (step c s i).idEx = s.idEx ∧
      (step c s i).exMem = s.exMem := by
  simp [step, ifIdNext, idExNext, exMemNext, hclk, redirecting, entersHandler, memTakeBranch]

theorem EntryFlags.held (h : EntryFlags s) (hclk : clkRun c i = false) :
    EntryFlags (step c s i) := by
  have hif : (step c s i).ifId.eip = s.ifId.eip ∧
      (step c s i).ifId.incompleteBranch = s.ifId.incompleteBranch := by
    simp [step, ifIdNext, hclk]
  obtain ⟨-, -, -, hid, hmem⟩ := step_held (s := s) hclk
  constructor <;> simp only [hif.1, hif.2, hid, hmem]
  · exact h.ifId
  · exact h.idEx
  · exact h.settled
  · exact h.exMem

/-- An incomplete fetch with no branch to resolve leaves everything outstanding as it is. -/
theorem outstanding_waiting (hclk : clkRun c i = true)
    (hload : load' = true → s.exMem.memCycle = true)
    (hid : idRunning c s i = false) (hbranch : memTakeBranch s = false)
    (hcomplete : s.ifId.incompleteBranch = false)
    (hout : redirecting c s = true ∨ Drained load s) :
    redirecting c (step c s i) = true ∨ Drained load' (step c s i) := by
  rcases hout with hred | ⟨-, hmem, hexmem⟩
  · left
    have henters : entersHandler c s = true := by
      simpa [redirecting, hbranch, hcomplete] using hred
    simp only [entersHandler, Bool.and_eq_true, Bool.not_eq_true'] at henters
    obtain ⟨⟨⟨hexc, heip⟩, hif⟩, hidEx⟩ := henters
    have hrefetch : ifNeedRefetch s i = false := by simp [ifNeedRefetch, hbranch]
    obtain ⟨hmem', hif', hid'⟩ := step_flags_of_eip (i := i) hexc heip hrefetch
    simp [redirecting, entersHandler, hexc, hmem', hif', hid', hif, hidEx, hid]
  · right
    refine ⟨?_, ?_, ?_⟩
    · simpa [hmem] using hload
    · by_contra hne
      have hcycle :=
        exMemNext_memCycle (by simpa [step] using hne : (exMemNext c s i).memCycle = true)
      simp [hclk, hmem, hexmem] at hcycle
    · by_contra hne
      have hcycle := idExNext_memCycle hclk hid
        (by simpa [step] using hne : (idExNext c s i).memCycle = true)
      simp [hexmem] at hcycle

namespace FetchInv

/-- A wait leaves everything in its place. -/
theorem held (h : FetchInv c load s) (hclk : clkRun c i = false) :
    FetchInv c load (step c s i) := by
  obtain ⟨hpc, hnext, hred, hid, hmem⟩ := step_held (s := s) hclk
  refine ⟨?_, ?_, ?_, fun hexc => (h.flags hexc).held hclk, ?_⟩
  · rw [hpc]
    exact h.masked
  · rw [hid]
    exact h.exApart
  · rw [hmem]
    exact h.memApart
  · rw [hpc, hnext, hred, Drained, hid, hmem]
    exact h.pcNext

theorem memApart_step (h : FetchInv c load s) (hclk : clkRun c i = true) :
    MemApart (step c s i).exMem := by
  intro hbranch
  by_contra hne
  have hcycle := exMemNext_memCycle (by simpa [step] using hne : (exMemNext c s i).memCycle = true)
  simp only [hclk, if_true] at hcycle
  obtain ⟨hbubble, hcycle⟩ := hcycle
  simp only [step, exMemNext_takeBranch, exMemNext_branchTaken, exMemNext_branchLikely, hclk,
    hbubble] at hbranch
  cases hleave : exLeave c s i with
  | true =>
      simp only [hleave, if_true] at hcycle hbranch
      have hno := h.exApart
      simp only [exTakeBranch, hcycle.2] at hbranch
      grind [ExApart]
  | false =>
      simp only [hleave] at hcycle hbranch
      have hno := h.memApart
      grind [MemApart]

/-- A cancelled branch leaves a pipeline behind it in which nothing accesses the memory. -/
theorem cancelled (h : FetchInv c load s)
    (hbubble : exInsertBubble c s i = true) (hex : exRunning c s i = true) :
    s.exMem.memCycle = false := by
  simp only [exInsertBubble, hex, Bool.and_eq_true, Bool.or_eq_true, Bool.not_true,
    Bool.false_eq_true, or_false] at hbubble
  rcases hbubble.2 with hcancel | ⟨hexc, heip⟩
  · apply h.memApart
    simp only [memCancelEx] at hcancel
    grind
  · exact ((h.flags hexc).exMem heip).2.2

/-- A branch whose target the fetch does not reach in this clock keeps the redirect outstanding. -/
theorem resolved (h : FetchInv c load s) (hclk : clkRun c i = true)
    (hreset : s.rReset = false) (hload : load' = true → s.exMem.memCycle = true)
    (hready : i.imemDataReady = false) (hid : idRunning c s i = false)
    (hex : exRunning c s i = true) (htake : (exTakeBranch c s ^^ s.idEx.predictTaken) = true) :
    redirecting c (step c s i) = true ∨ Drained load' (step c s i) := by
  obtain ⟨-, -, hfetch⟩ := ifIdNext_pc (c := c) (i := i) hclk hreset
  cases hbubble : exInsertBubble c s i with
  | true =>
      have hmem := h.cancelled hbubble hex
      refine .inr ⟨?_, ?_, ?_⟩
      · simpa [hmem] using hload
      · by_contra hne
        have hcycle :=
          exMemNext_memCycle (by simpa [step] using hne : (exMemNext c s i).memCycle = true)
        simp [hclk, hbubble] at hcycle
      · by_contra hne
        have hcycle := idExNext_memCycle hclk hid
          (by simpa [step] using hne : (idExNext c s i).memCycle = true)
        simp [hex] at hcycle
  | false =>
      have hrun : memRunning c s i = true := by
        simp only [exRunning, Bool.and_eq_true] at hex
        exact hex.1.1
      have hleave : exLeave c s i = true := by simp [exLeave, hbubble, hrun, hex]
      left
      cases haccept : exException c s with
      | true =>
          have hexc : c.exceptions = true := by
            simp only [exException, Bool.and_eq_true] at haccept
            exact haccept.1.1.1.1
          have heip : s.exMem.eip = false := by
            by_contra hne
            simp [exInsertBubble, hrun, hexc, hne] at hbubble
          obtain ⟨hif, hid⟩ := (h.flags hexc).idle heip
          obtain ⟨hmem', hif', hid'⟩ := step_flags_of_idle (i := i) hexc heip hif hid
          simp [redirecting, entersHandler, hexc, hmem', hif', hid', hclk, hleave, haccept]
      | false =>
          have htaken : memTakeBranch (step c s i) = true := by
            simpa [memTakeBranch, step, exMemNext_takeBranch, exMemNext_branchTaken, hclk, hbubble,
              hleave, haccept] using htake
          have hfetch' : (step c s i).ifId.fetchInProgress = true := by
            simpa [step, hready] using hfetch
          simp [redirecting, htaken, hfetch']

/-- One clock of the core. -/
theorem next (h : FetchInv c load s) (hif : c.regIfPc = true) (hclk : clkRun c i = true)
    (hreset : s.rReset = false) (hload : load' = true → s.exMem.memCycle = true) :
    FetchInv c load' (step c s i) := by
  obtain ⟨hpc, hnext, -⟩ := ifIdNext_pc (c := c) (i := i) hclk hreset
  refine ⟨?_, idExNext_apart h.exApart, h.memApart_step hclk, fun hexc => (h.flags hexc).next hexc,
    fun hne => ?_⟩
  · simp only [step, hpc, ifPcExtNext]
    split
    · rw [BitVec.and_assoc, BitVec.and_self]
    · exact h.masked
  · simp only [step, hpc, hnext, ifPcExtNext] at hne
    cases hready : i.imemDataReady with
    | true => simp [hready] at hne
    | false =>
        cases hpending : memTakeBranch s || s.ifId.incompleteBranch with
        | true =>
            -- the fetch is repeated at the target of the branch
            left
            have hrefetch : ifNeedRefetch s i || s.ifId.incompleteBranch := by
              simpa [ifNeedRefetch, hready] using hpending
            simp [redirecting, step, ifIdNext_incompleteBranch, hclk, hready, hrefetch]
        | false =>
            simp only [Bool.or_eq_false_iff] at hpending
            obtain ⟨hbranch, hcomplete⟩ := hpending
            have hid : idRunning c s i = false := by
              simp [idRunning, ifFetchComplete, hbranch, hready]
            cases hresolve : exRunning c s i && (exTakeBranch c s ^^ s.idEx.predictTaken) with
            | true =>
                simp only [Bool.and_eq_true] at hresolve
                exact h.resolved hclk hreset hload hready hid hresolve.1 hresolve.2
            | false =>
                have hkept : ifPcNext c s i = s.ifId.pcNext := by
                  simp [ifPcNext, hif, hresolve, hbranch, ifNeedRefetch, hcomplete, hid]
                refine outstanding_waiting hclk hload hid hbranch hcomplete (h.pcNext fun heq => hne ?_)
                rw [hkept, heq, hready]
                exact h.masked

/-- While it waits for a load, a core with no redirect outstanding stays with its fetch. -/
theorem pcNext_of_wait (h : FetchInv c true s) (hif : c.regIfPc = true)
    (hclk : clkRun c i = false) (hready : i.imemDataReady = true)
    (hred : redirecting c s = false) (hcancel : s.idEx.cancelNext = false) :
    ifPcNext c s i = s.ifId.pc := by
  have hrun : memRunning c s i = false := by
    simp only [clkRun, Bool.or_eq_false_iff, Bool.not_eq_false'] at hclk
    simp [memRunning, hclk.1, hclk.2]
  have hex : exRunning c s i = false := by simp [exRunning, hrun]
  have hid : idRunning c s i = false := by simp [idRunning, hcancel, hex]
  have hnext : s.ifId.pcNext = s.ifId.pc := by
    by_contra hne
    rcases h.pcNext hne with hout | hout
    · simp [hred] at hout
    · exact Bool.noConfusion hout.1
  simp only [redirecting, Bool.or_eq_false_iff] at hred
  simp [ifPcNext, hex, hid, ifNeedRefetch, hready, hred.1, ifPc, hif, hnext]

end FetchInv

/-- The ID stage takes a fetched word only with no other redirect outstanding. -/
theorem ready_of_takes (htakes : idTakes c s i = true) :
    i.imemDataReady = true ∧ (redirecting c s = true → entersHandler c s = true) := by
  simp only [idTakes, idRunning, ifFetchComplete, ifNeedRefetch, Bool.and_eq_true,
    Bool.not_eq_true', Bool.or_eq_false_iff] at htakes
  obtain ⟨⟨-, hrefetch, hcomplete⟩, hfetched, -⟩ := htakes
  cases hbranch : memTakeBranch s <;> simp_all [redirecting]

/-- What the ID stage takes, and the program counter that is recorded for it. -/
theorem ifIdNext_of_takes (htakes : idTakes c s i = true) (hreset : s.rReset = false) :
    (ifIdNext c s i).instruction = (if entersHandler c s then jrK0 else ifInstruction c i) ∧
      (ifIdNext c s i).pc4 = (ifPc c s + 1) &&& pcMask c ∧
      (c.arch = .rv32 ∨ c.exceptions = true → (ifIdNext c s i).epc = ifPc c s) := by
  simp only [idTakes, Bool.and_eq_true, Bool.not_eq_true'] at htakes
  obtain ⟨⟨hclk, hwait⟩, hrun⟩ := htakes
  refine ⟨?_, ?_, fun hrecorded => ?_⟩
  · simp [ifIdNext, hclk, hwait, hrun, hreset, ifIdFetched, entersHandler]
  · simp [ifIdNext, hclk, hwait, hrun, hreset, ifIdFetched]
  · simp [ifIdNext, hclk, hwait, hrun, hreset, ifIdFetched, hrecorded]

/-- A delay slot of a branch-likely instruction, or what follows a branch without delay slot. -/
def idAnnuls (c : Config) (s : State) : Bool :=
  (c.arch == .mi32 && s.idEx.branchLikely && !exTakeBranch c s) ||
    (c.arch == .rv32 && exTakeBranch c s)

/-- An ID stage that takes nothing keeps its instruction, or becomes empty. -/
theorem ifIdNext_of_holds (htakes : idTakes c s i = false) (hreset : s.rReset = false) :
    (ifIdNext c s i).instruction = s.ifId.instruction ∧
        ((ifIdNext c s i).bubble = s.ifId.bubble ∨ (ifIdNext c s i).bubble = true) ∨
      (ifIdNext c s i).instruction = 0#32 ∧ idAnnuls c s = true := by
  cases hclk : clkRun c i with
  | false =>
      left
      simp [ifIdNext, hclk]
  | true =>
      cases hwait : ifNeedRefetch s i || s.ifId.incompleteBranch with
      | true =>
          left
          simp [ifIdNext, hclk, hwait, hreset]
      | false =>
          have hrun : idRunning c s i = false := by simpa [idTakes, hclk, hwait] using htakes
          cases hannul : idAnnuls c s with
          | true =>
              right
              rw [idAnnuls] at hannul
              simp [ifIdNext, hclk, hwait, hrun, hreset, hannul]
          | false =>
              left
              rw [idAnnuls] at hannul
              simp [ifIdNext, hclk, hwait, hrun, hreset, hannul]

end Redirect

end Core
end F32c
