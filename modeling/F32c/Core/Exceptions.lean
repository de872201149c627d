import F32c.Core.Pipeline
import Mathlib.Order.Interval.Finset.Nat

/-!
# The exception state machine

`pipeline.txt` describes the entry into the exception handler by five states of
`R_cop0_EI` and the three `EIP` flags, which three processes of `f32c_core` update
under different conditions.  This module shows that the flags stay in these states,
that the states follow each other in the documented order, and that one injected
`jr k0` is executed on the way through them.

The flags alone do not carry the argument.  A cancelled instruction lets the ID
stage run while the EX stage is stalled, and then a branch left in the EX stage
could replace the injected jump.  It cannot be there, because of what the decoder
makes of branches; this is the invariant `IdEx.Sound`.
-/

namespace F32c
namespace Core

section Decoder

/-- What the pipeline relies on: a branch does not stall the EX stage by itself, and an instruction
with a delay slot neither shifts nor accesses the memory. -/
structure Decoded.Sound (d : Decoded) : Prop where
  branch : d.branchCycle = true → d.cop0Wait = false ∧ d.altSel ≠ .hi ∧ d.altSel ≠ .lo
  delay : (d.branchCycle || d.jumpCycle) = true → d.opMajor ≠ .shift ∧ d.memCycle = false

theorem Decoded.Sound.of_no_branch {d : Decoded}
    (hbranch : d.branchCycle = false) (hjump : d.jumpCycle = false) : d.Sound :=
  ⟨by simp [hbranch], by simp [hbranch, hjump]⟩

theorem Decoded.Sound.ite {p : Prop} [Decidable p] {a b : Decoded}
    (ha : p → a.Sound) (hb : b.Sound) : (if p then a else b).Sound := by
  split
  · exact ha ‹p›
  · exact hb

theorem mi32Special2_sound {c : Config} {u : Undef} {w : Word} {d : Decoded}
    (hbranch : d.branchCycle = false) (hjump : d.jumpCycle = false) :
    (mi32Special2 c u w d).Sound := by
  apply Decoded.Sound.of_no_branch
  all_goals
    simp only [mi32Special2, mi32Unsupported]
    split_ifs <;> assumption

theorem idecodeMi32_sound (c : Config) (u : Undef) (w : Word) : (idecodeMi32 c u w).Sound := by
  -- the opcodes of branches and jumps have a clear upper bit, which is `mem_cycle`
  have hmem : ∀ op : BitVec 6, w.extractLsb 31 26 = op → op.getLsbD 5 = false →
      w.getLsbD 31 = false := by
    intro op hop hmsb
    rw [← hop] at hmsb
    simpa using hmsb
  unfold idecodeMi32 mi32BranchLikely mi32Regimm mi32Special mi32Special3
  dsimp only
  repeat' first
    | exact mi32Special2_sound rfl rfl
    | refine Decoded.Sound.ite (fun h => ?_) ?_
  all_goals first
    | exact .of_no_branch rfl rfl
    | exact ⟨fun _ => ⟨rfl, nofun, nofun⟩, fun _ => ⟨nofun, hmem _ ‹_› (by decide)⟩⟩

end Decoder

section Stages

variable {c : Config} {s : State} {i : Input}

/-- What the ID stage hands to the EX stage. -/
structure IdEx.Sound (r : IdEx) : Prop where
  likely : r.branchLikely = true → r.branchCycle = true
  predict : r.predictTaken = true → r.branchCycle = true
  branch : r.branchCycle = true → r.wait = false ∧ r.altSel ≠ .hi ∧ r.altSel ≠ .lo
  follows : r.branchCycle = true → r.branchDelayFollows = true
  delay : r.branchDelayFollows = true → r.opMajor ≠ .shift ∧ r.multicycleLhLb = false

theorem idExAlign_sound {r : IdEx} (h : r.Sound) (hload : r.multicycleLhLb = true) :
    (idExAlign c s i r).Sound := by
  have hfollows : r.branchDelayFollows = false := by
    by_contra hne
    simp [(h.delay (by simpa using hne)).2] at hload
  exact ⟨h.likely, h.predict, h.branch, h.follows, fun hf => by simp [idExAlign, hfollows] at hf⟩

theorem idExBubble_sound (r : IdEx) : (idExBubble c s i r).Sound :=
  ⟨nofun, nofun, nofun, nofun, fun _ => ⟨nofun, rfl⟩⟩

theorem idExLoad_sound (harch : c.arch = .mi32) (hexc : c.exceptions = true) (r : IdEx) :
    (idExLoad c s i r).Sound := by
  have hd : (idDecoded c s i).Sound := by
    simp only [idDecoded, idecode, harch]
    exact idecodeMi32_sound c i.undef s.ifId.instruction
  refine ⟨?_, ?_, ?_, ?_, ?_⟩
  · simp only [idExLoad, Bool.and_eq_true]
    exact fun h => h.2
  · simp only [idExLoad, idPredictTaken, Bool.and_eq_true]
    exact fun h => h.1.2
  · simp only [idExLoad, hexc, if_true]
    exact hd.branch
  · intro h
    simp only [idExLoad] at h
    simp [idExLoad, harch, h]
  · simp only [idExLoad, Bool.and_eq_true]
    intro h
    obtain ⟨hshift, hmem⟩ := hd.delay h.2
    exact ⟨hshift, by simp [hmem]⟩

/-- Every clock, also one in reset, leaves a sound instruction in the EX stage. -/
theorem idExNext_sound (harch : c.arch = .mi32) (hexc : c.exceptions = true) (h : s.idEx.Sound) :
    (idExNext c s i).Sound := by
  have hreset : ∀ r : IdEx, r.Sound →
      (if s.rReset then { r with exception := true, bubble := false, wait := false } else r).Sound := by
    intro r hr
    split
    · exact ⟨hr.likely, hr.predict, fun hb => ⟨rfl, (hr.branch hb).2⟩, hr.follows, hr.delay⟩
    · exact hr
  unfold idExNext
  split
  · apply hreset
    split
    · split
      · rename_i hload
        simp only [Bool.and_eq_true] at hload
        exact idExAlign_sound ⟨h.likely, h.predict, h.branch, h.follows, h.delay⟩ hload.1.1.2
      · split
        · exact idExBubble_sound _
        · exact idExLoad_sound harch hexc _
    · refine ⟨h.likely, h.predict, fun hb => ⟨?_, (h.branch hb).2⟩, h.follows, h.delay⟩
      simp [(h.branch hb).1]
  · exact h

end Stages

section Flags

variable {c : Config} {s : State} {i : Input}

/-- The ID stage takes an instruction from the IF stage. -/
def idTakes (c : Config) (s : State) (i : Input) : Bool :=
  clkRun c i && !(ifNeedRefetch s i || s.ifId.incompleteBranch) && idRunning c s i

theorem ifIdNext_eip (hexc : c.exceptions = true) :
    (ifIdNext c s i).eip =
      if idTakes c s i then s.exMem.eip && !s.ifId.eip && !s.idEx.eip else s.ifId.eip := by
  cases hclk : clkRun c i <;> cases hwait : ifNeedRefetch s i || s.ifId.incompleteBranch <;>
    cases hid : idRunning c s i <;> simp only [ifIdNext, idTakes, hclk, hwait, hid]
  all_goals simp [ifIdFetched, hexc]
  all_goals split_ifs <;> rfl

theorem ifIdNext_incompleteBranch :
    (ifIdNext c s i).incompleteBranch =
      if clkRun c i then ifNeedRefetch s i || (!i.imemDataReady && s.ifId.incompleteBranch)
      else s.ifId.incompleteBranch := by
  cases hclk : clkRun c i <;> cases hwait : ifNeedRefetch s i || s.ifId.incompleteBranch <;>
    cases hid : idRunning c s i <;> simp only [ifIdNext, hclk, hwait, hid]
  all_goals simp [ifIdFetched]
  all_goals split_ifs <;> rfl

/-- The instruction that enters the ID stage in state `#1`. -/
theorem ifIdNext_inject (harch : c.arch = .mi32) (hexc : c.exceptions = true)
    (htakes : idTakes c s i = true) (heip : s.exMem.eip = true) (hif : s.ifId.eip = false)
    (hid : s.idEx.eip = false) :
    (ifIdNext c s i).instruction = jrK0 ∧ (ifIdNext c s i).bubble = false := by
  simp only [idTakes, Bool.and_eq_true, Bool.not_eq_true'] at htakes
  obtain ⟨⟨hclk, hwait⟩, hrun⟩ := htakes
  simp [ifIdNext, harch, hclk, hwait, hrun, ifIdFetched, hexc, heip, hif, hid]

/-- A stalled ID stage keeps its instruction, unless a branch-likely instruction discards it. -/
theorem ifIdNext_hold (harch : c.arch = .mi32)
    (hwait : (ifNeedRefetch s i || s.ifId.incompleteBranch) = false)
    (hrun : (clkRun c i && idRunning c s i) = false) (hlikely : s.idEx.branchLikely = false) :
    (ifIdNext c s i).instruction = s.ifId.instruction ∧ (ifIdNext c s i).bubble = s.ifId.bubble := by
  cases hclk : clkRun c i with
  | false =>
      simp [ifIdNext, hclk]
  | true =>
      have hid : idRunning c s i = false := by simpa [hclk] using hrun
      simp [ifIdNext, harch, hclk, hwait, hid, hlikely]

theorem idExNext_eip (hexc : c.exceptions = true) (heip : s.exMem.eip = true) :
    (idExNext c s i).eip =
      if clkRun c i && exRunning c s i && idRunning c s i then s.ifId.eip else s.idEx.eip := by
  cases hclk : clkRun c i <;> cases hex : exRunning c s i <;> cases hreset : s.rReset <;>
    simp [idExNext, hclk, hex, hreset, heip, idInsertBubble, hexc, idExBubble]

theorem idExNext_eip_false (hif : s.ifId.eip = false) (hid : s.idEx.eip = false) :
    (idExNext c s i).eip = false := by
  unfold idExNext
  cases hreset : s.rReset <;> split_ifs <;> simp [idExAlign, idExBubble, idExLoad, hif, hid]

/-- While an exception is in progress nothing is cancelled any more. -/
theorem idExNext_cancelNext (hexc : c.exceptions = true) (heip : s.exMem.eip = true)
    (hrun : clkRun c i = true) : (idExNext c s i).cancelNext = false := by
  cases hex : exRunning c s i <;> cases hreset : s.rReset <;>
    simp [idExNext, hrun, hex, hreset, heip, idInsertBubble, hexc, idExBubble]

theorem exMemNext_eip (hexc : c.exceptions = true) :
    (exMemNext c s i).eip =
      if clkRun c i then
        (s.exMem.eip && !(s.idEx.eip && idRunning c s i)) || (exLeave c s i && exException c s)
      else s.exMem.eip := by
  have hleave : exInsertBubble c s i = true → exLeave c s i = false := by
    intro h
    simp [exLeave, h]
  cases hclk : clkRun c i <;> cases hb : exInsertBubble c s i <;> cases hl : exLeave c s i <;>
    cases hreset : s.rReset <;> cases hsh : !c.fullShifter && s.exMem.shiftBlocked <;>
    simp [exMemNext, hclk, hb, hl, hreset, hsh, exMemLoad, exMemBubble, hexc, Bool.or_comm] <;>
    simp_all

/-- While an exception is in progress no instruction leaves the EX stage. -/
theorem exLeave_eip (hexc : c.exceptions = true) (heip : s.exMem.eip = true) :
    exLeave c s i = false := by
  cases hmem : memRunning c s i <;> simp [exLeave, exInsertBubble, hexc, heip, hmem]

theorem exMemNext_takeBranch :
    (exMemNext c s i).takeBranch =
      if clkRun c i then
        if exInsertBubble c s i then false
        else if exLeave c s i then exTakeBranch c s && !exException c s
        else s.exMem.takeBranch
      else s.exMem.takeBranch := by
  cases hclk : clkRun c i <;> cases hb : exInsertBubble c s i <;> cases hl : exLeave c s i <;>
    cases hreset : s.rReset <;> cases hsh : !c.fullShifter && s.exMem.shiftBlocked <;>
    simp [exMemNext, hclk, hb, hl, hreset, hsh, exMemLoad, exMemBubble]

theorem exMemNext_branchTaken :
    (exMemNext c s i).branchTaken =
      if clkRun c i then
        if exInsertBubble c s i then false
        else if exLeave c s i then s.idEx.predictTaken && !exException c s
        else s.exMem.branchTaken
      else s.exMem.branchTaken := by
  cases hclk : clkRun c i <;> cases hb : exInsertBubble c s i <;> cases hl : exLeave c s i <;>
    cases hreset : s.rReset <;> cases hsh : !c.fullShifter && s.exMem.shiftBlocked <;>
    simp [exMemNext, hclk, hb, hl, hreset, hsh, exMemLoad, exMemBubble]

/-- The entry into the handler goes to the MEM stage and cannot stall it, unless it replaces a shift. -/
theorem exMemNext_accepts (hclk : clkRun c i = true) (hleave : exLeave c s i = true)
    (haccept : exException c s = true) :
    (exMemNext c s i).memCycle = false ∧
      (s.idEx.opMajor ≠ .shift → (exMemNext c s i).shiftBlocked = false) := by
  have hb : exInsertBubble c s i = false := by
    simp only [exLeave, Bool.and_eq_true, Bool.not_eq_true'] at hleave
    exact hleave.1.1
  cases hreset : s.rReset <;>
    simp +contextual [exMemNext, hclk, hb, hleave, hreset, exMemLoad, haccept]

theorem exRunning_of_exLeave (hleave : exLeave c s i = true) : exRunning c s i = true := by
  simp only [exLeave, Bool.and_eq_true] at hleave
  exact hleave.2

/-- A branch that is to be cancelled enters the EX stage only behind another one. -/
theorem idExNext_cancelNext_branch (hsound : s.idEx.Sound) (hclk : clkRun c i = true)
    (hleave : exLeave c s i = true) (hcancel : (idExNext c s i).cancelNext = true)
    (hbranch : (idExNext c s i).branchCycle = true) : s.idEx.branchDelayFollows = true := by
  have hex := exRunning_of_exLeave hleave
  cases halign : !c.loadAligner && s.idEx.multicycleLhLb && !memCancelEx c s && !s.exMem.eip with
  | true =>
      apply hsound.follows
      cases hreset : s.rReset <;>
        simpa [idExNext, hclk, hex, halign, hreset, idExAlign] using hbranch
  | false =>
      cases hbubble : idInsertBubble c s i with
      | true =>
          cases hreset : s.rReset <;>
            simp [idExNext, hclk, hex, halign, hbubble, hreset, idExBubble] at hbranch
      | false =>
          have hcancel' : (memTakeBranch s && !idRunning c s i && ifFetchComplete s i ||
              s.idEx.cancelNext) = true := by
            cases hreset : s.rReset <;>
              simpa [idExNext, hclk, hex, halign, hbubble, hreset, idExLoad] using hcancel
          simp only [idInsertBubble] at hbubble
          grind

theorem idExNext_branchCycle (hexc : c.exceptions = true) (heip : s.exMem.eip = true) :
    (idExNext c s i).branchCycle =
      (s.idEx.branchCycle && !(clkRun c i && exRunning c s i)) := by
  cases hclk : clkRun c i <;> cases hex : exRunning c s i <;> cases hreset : s.rReset <;>
    simp [idExNext, hclk, hex, hreset, heip, idInsertBubble, hexc, idExBubble]

/-- How the flags move in normal operation. -/
theorem step_flags_of_idle (hexc : c.exceptions = true) (heip : s.exMem.eip = false)
    (hif : s.ifId.eip = false) (hid : s.idEx.eip = false) :
    (step c s i).exMem.eip = (clkRun c i && exLeave c s i && exException c s) ∧
      (step c s i).ifId.eip = false ∧ (step c s i).idEx.eip = false := by
  refine ⟨?_, ?_, idExNext_eip_false hif hid⟩
  · cases hclk : clkRun c i <;> simp [step, exMemNext_eip hexc, hclk, heip]
  · simp [step, ifIdNext_eip hexc, heip, hif]

/-- How the flags move while an exception is in progress. -/
theorem step_flags_of_eip (hexc : c.exceptions = true) (heip : s.exMem.eip = true)
    (hrefetch : ifNeedRefetch s i = false) :
    (step c s i).exMem.eip = !(clkRun c i && s.idEx.eip && idRunning c s i) ∧
      (step c s i).ifId.eip =
        (if clkRun c i && !s.ifId.incompleteBranch && idRunning c s i then
          !s.ifId.eip && !s.idEx.eip
        else s.ifId.eip) ∧
      (step c s i).idEx.eip =
        (if clkRun c i && exRunning c s i && idRunning c s i then s.ifId.eip else s.idEx.eip) := by
  have hleave : exLeave c s i = false := exLeave_eip hexc heip
  refine ⟨?_, ?_, ?_⟩
  · cases hclk : clkRun c i <;> simp [step, exMemNext_eip hexc, hclk, heip, hleave]
  · simp [step, ifIdNext_eip hexc, idTakes, hrefetch, heip]
  · simp only [step, idExNext_eip hexc heip]

theorem cop0Write_rEi (r : Cop0) :
    (cop0Write c s r).rEi =
      if s.idEx.cop0Write && s.idEx.cop0Addr == mi32Cop0Status then (exEffReg2 c s).getLsbD 0
      else !s.idEx.di && (s.idEx.ei || r.rEi) := by
  unfold cop0Write
  by_cases hw : s.idEx.cop0Write
  · by_cases ha : s.idEx.cop0Addr = mi32Cop0Status
    · simp [hw, ha]
    · simp only [hw, ha, if_true, if_false, Bool.true_and, beq_iff_eq]
      split_ifs <;> rfl
  · simp [hw]

/-- `R_cop0_EI` is written by an instruction that leaves the EX stage, or by an exception. -/
theorem cop0Next_rEi (hexc : c.exceptions = true) (hreset : s.rReset = false) :
    (cop0Next c s i).rEi =
      if clkRun c i && exLeave c s i then
        !exException c s && (if s.exMem.eip then s.cop0.rEi else (cop0Write c s s.cop0).rEi)
      else s.cop0.rEi := by
  cases hclk : clkRun c i <;> cases hl : exLeave c s i <;> cases hacc : exException c s <;>
    cases heip : s.exMem.eip <;>
    simp [cop0Next, hclk, hl, hacc, hexc, heip, hreset, cop0Write_rEi]

end Flags

section Machine

variable {c : Config} {s : State} {i : Input}

/-- The states `#0` to `#4` of `pipeline.txt`. -/
inductive ExcState where
  | enabled
  | accepted
  | injected
  | jumping
  | disabled
deriving DecidableEq

/-- The documented state that the flags are in. -/
def excState (s : State) : Option ExcState :=
  match s.cop0.rEi, s.ifId.eip, s.idEx.eip, s.exMem.eip with
  | true, false, false, false => some .enabled
  | false, false, false, true => some .accepted
  | false, true, false, true => some .injected
  | false, false, true, true => some .jumping
  | false, false, false, false => some .disabled
  | _, _, _, _ => none

/-- What holds besides the documented states while an exception is in progress. -/
structure FsmInv (c : Config) (s : State) : Prop where
  sound : s.idEx.Sound
  ifId : s.ifId.eip = true → s.exMem.eip = true ∧ s.idEx.eip = false
  idEx : s.idEx.eip = true → s.exMem.eip = true
  settled : (s.ifId.eip || s.idEx.eip) = true →
    s.ifId.incompleteBranch = false ∧ s.idEx.cancelNext = false
  exMem : s.exMem.eip = true →
    s.cop0.rEi = false ∧ s.exMem.takeBranch = false ∧ s.exMem.branchTaken = false
  jump : s.ifId.eip = true →
    s.ifId.instruction = jrK0 ∧ s.ifId.bubble = false ∧ s.idEx.branchCycle = false
  stall : s.exMem.eip = true → s.idEx.cancelNext = true → s.idEx.branchCycle = true →
    s.exMem.memCycle = false ∧ (!c.fullShifter && s.exMem.shiftBlocked) = false

/-- The injected `jr k0` leaves the ID stage, and the next fetch is at its target. -/
def executesJrK0 (c : Config) (s : State) (i : Input) : Bool :=
  clkRun c i && idRunning c s i && s.ifId.eip && s.ifId.instruction == jrK0 && !s.ifId.bubble &&
    !s.idEx.cancelNext && (step c s i).ifId.pc == idJumpTarget c s i &&& pcMask c

theorem idRunning_exRunning (hcancel : s.idEx.cancelNext = false) (hid : idRunning c s i = true) :
    exRunning c s i = true := by
  simp only [idRunning, hcancel, Bool.false_or, Bool.and_eq_true] at hid
  exact hid.2.1.1.1.1

/-- While an exception is in progress the MEM stage takes no branch. -/
theorem FsmInv.no_branch (h : FsmInv c s) (heip : s.exMem.eip = true) :
    memTakeBranch s = false := by
  obtain ⟨-, ht, hb⟩ := h.exMem heip
  simp [memTakeBranch, ht, hb]

theorem FsmInv.no_refetch (h : FsmInv c s) (heip : s.exMem.eip = true) :
    ifNeedRefetch s i = false := by
  simp [ifNeedRefetch, h.no_branch heip]

/-- A branch that is left in the EX stage behind an accepted exception does not stall it. -/
theorem FsmInv.branch_runs (h : FsmInv c s) (hclk : clkRun c i = true) (heip : s.exMem.eip = true)
    (hcancel : s.idEx.cancelNext = true) (hbranch : s.idEx.branchCycle = true) :
    exRunning c s i = true := by
  obtain ⟨hmem, hshift⟩ := h.stall heip hcancel hbranch
  obtain ⟨hwait, hhi, hlo⟩ := h.sound.branch hbranch
  have hrun : memRunning c s i = true := by
    simp only [clkRun] at hclk
    simp only [memRunning, hmem, hshift]
    grind
  simp [exRunning, hrun, hwait, hhi, hlo]

theorem FsmInv.idle (h : FsmInv c s) (heip : s.exMem.eip = false) :
    s.ifId.eip = false ∧ s.idEx.eip = false := by
  constructor
  · by_contra hne
    simp [(h.ifId (by simpa using hne)).1] at heip
  · by_contra hne
    simp [h.idEx (by simpa using hne)] at heip

section Step

variable (harch : c.arch = .mi32) (hexc : c.exceptions = true) (hreset : s.rReset = false)
include harch hexc hreset

omit harch in
theorem FsmInv.flags_of_idle (h : FsmInv c s) (heip : s.exMem.eip = false) :
    (step c s i).exMem.eip = (clkRun c i && exLeave c s i && exException c s) ∧
      (step c s i).ifId.eip = false ∧ (step c s i).idEx.eip = false ∧
      (step c s i).cop0.rEi =
        (if clkRun c i && exLeave c s i then
          !exException c s && (cop0Write c s s.cop0).rEi
        else s.cop0.rEi) := by
  obtain ⟨hif, hid⟩ := h.idle heip
  obtain ⟨hmem', hif', hid'⟩ := step_flags_of_idle (i := i) hexc heip hif hid
  exact ⟨hmem', hif', hid', by simp [step, cop0Next_rEi hexc hreset, heip]⟩

theorem FsmInv.step_of_idle (h : FsmInv c s) (heip : s.exMem.eip = false) :
    FsmInv c (step c s i) := by
  obtain ⟨hmem', hif', hid', hei⟩ := h.flags_of_idle (i := i) hexc hreset heip
  have haccepts : (step c s i).exMem.eip = true →
      clkRun c i = true ∧ exLeave c s i = true ∧ exException c s = true := by
    intro hnext
    simpa [hmem', and_assoc] using hnext
  refine ⟨idExNext_sound harch hexc h.sound, ?_, ?_, ?_, ?_, ?_, ?_⟩
  · simp [hif']
  · simp [hid']
  · simp [hif', hid']
  · intro hnext
    obtain ⟨hclk, hleave, haccept⟩ := haccepts hnext
    have hbubble : exInsertBubble c s i = false := by
      simp only [exLeave, Bool.and_eq_true, Bool.not_eq_true'] at hleave
      exact hleave.1.1
    refine ⟨?_, ?_, ?_⟩
    · simp [hei, hclk, hleave, haccept]
    · simp [step, exMemNext_takeBranch, hclk, hbubble, hleave, haccept]
    · simp [step, exMemNext_branchTaken, hclk, hbubble, hleave, haccept]
  · simp [hif']
  · intro hnext hcancel hbranch
    obtain ⟨hclk, hleave, haccept⟩ := haccepts hnext
    obtain ⟨hmem, hshift⟩ := exMemNext_accepts hclk hleave haccept
    have hfollows := idExNext_cancelNext_branch h.sound hclk hleave hcancel hbranch
    refine ⟨hmem, ?_⟩
    simp [step, hshift (h.sound.delay hfollows).1]

omit harch in
theorem FsmInv.flags_of_eip (h : FsmInv c s) (heip : s.exMem.eip = true) :
    (step c s i).cop0.rEi = false ∧
      (step c s i).exMem.eip = !(clkRun c i && s.idEx.eip && idRunning c s i) ∧
      (step c s i).ifId.eip =
        (if clkRun c i && !s.ifId.incompleteBranch && idRunning c s i then
          !s.ifId.eip && !s.idEx.eip
        else s.ifId.eip) ∧
      (step c s i).idEx.eip =
        (if clkRun c i && exRunning c s i && idRunning c s i then s.ifId.eip else s.idEx.eip) := by
  have hleave : exLeave c s i = false := exLeave_eip hexc heip
  refine ⟨?_, step_flags_of_eip hexc heip (h.no_refetch heip)⟩
  simp [step, cop0Next_rEi hexc hreset, hleave, (h.exMem heip).1]

theorem FsmInv.step_of_eip (h : FsmInv c s) (heip : s.exMem.eip = true) :
    FsmInv c (step c s i) := by
  obtain ⟨hei, hmem', hif', hid'⟩ := h.flags_of_eip (i := i) hexc hreset heip
  have hrefetch : ifNeedRefetch s i = false := h.no_refetch heip
  have hleave : exLeave c s i = false := exLeave_eip hexc heip
  have hbusy : (s.ifId.eip || s.idEx.eip) = true → idRunning c s i = true →
      exRunning c s i = true :=
    fun hflags => idRunning_exRunning (h.settled hflags).2
  have hcancel : clkRun c i = true → (step c s i).idEx.cancelNext = false :=
    idExNext_cancelNext hexc heip
  have hsettled := h.settled
  have hexcl := h.ifId
  refine ⟨idExNext_sound harch hexc h.sound, ?_, ?_, ?_, ?_, ?_, ?_⟩
  · grind
  · grind
  · intro hflags
    cases hclk : clkRun c i with
    | false =>
        have hold : (s.ifId.eip || s.idEx.eip) = true := by simpa [hif', hid', hclk] using hflags
        simpa [step, ifIdNext, idExNext, hclk] using h.settled hold
    | true =>
        refine ⟨?_, hcancel hclk⟩
        have hcomplete : s.ifId.incompleteBranch = false := by grind
        simp [step, ifIdNext_incompleteBranch, hrefetch, hcomplete]
  · intro _
    obtain ⟨-, htake, htaken⟩ := h.exMem heip
    refine ⟨hei, ?_, ?_⟩
    · simp [step, exMemNext_takeBranch, hleave, htake]
    · simp [step, exMemNext_branchTaken, hleave, htaken]
  · intro hjump
    cases htakes : idTakes c s i with
    | true =>
        have hrun : clkRun c i = true ∧ s.ifId.incompleteBranch = false ∧
            idRunning c s i = true := by
          simpa [idTakes, hrefetch, and_assoc] using htakes
        obtain ⟨hclk, hcomplete, hrun⟩ := hrun
        have hone : s.ifId.eip = false ∧ s.idEx.eip = false := by
          simpa [hif', hclk, hcomplete, hrun] using hjump
        obtain ⟨hinstr, hbubble⟩ := ifIdNext_inject harch hexc htakes heip hone.1 hone.2
        refine ⟨hinstr, hbubble, ?_⟩
        simp only [step, idExNext_branchCycle hexc heip, hclk, Bool.true_and]
        -- the ID stage may run ahead of a stalled EX stage, which then holds no branch
        by_contra hne
        simp only [Bool.not_eq_false, Bool.and_eq_true, Bool.not_eq_true'] at hne
        have hrunning : exRunning c s i = true := by
          cases hc : s.idEx.cancelNext with
          | false => exact idRunning_exRunning hc hrun
          | true => exact h.branch_runs hclk heip hc hne.1
        simp [hrunning] at hne
    | false =>
        have hold : s.ifId.eip = true := by
          simpa [step, ifIdNext_eip hexc, htakes] using hjump
        obtain ⟨hinstr, hbubble, hbranch⟩ := h.jump hold
        have hcomplete := (h.settled (by simp [hold])).1
        have hlikely : s.idEx.branchLikely = false := by
          by_contra hne
          simp [h.sound.likely (by simpa using hne)] at hbranch
        have hstalled : (clkRun c i && idRunning c s i) = false := by
          simpa [idTakes, hrefetch, hcomplete] using htakes
        obtain ⟨hinstr', hbubble'⟩ :=
          ifIdNext_hold harch (by simp [hrefetch, hcomplete]) hstalled hlikely
        refine ⟨hinstr'.trans hinstr, hbubble'.trans hbubble, ?_⟩
        simp [step, idExNext_branchCycle hexc heip, hbranch]
  · intro _ hc hbranch
    cases hclk : clkRun c i with
    | false =>
        simp only [step, idExNext, hclk, Bool.false_eq_true, if_false] at hc hbranch
        simpa [step, exMemNext, hclk] using h.stall heip hc hbranch
    | true =>
        simp [hcancel hclk] at hc

end Step

/-- The order of `pipeline.txt`; between `#4` and `#0` there is only `R_cop0_EI`. -/
def ExcState.Follows : ExcState → ExcState → Prop
  | .enabled, b => b = .enabled ∨ b = .accepted ∨ b = .disabled
  | .accepted, b => b = .accepted ∨ b = .injected
  | .injected, b => b = .injected ∨ b = .jumping
  | .jumping, b => b = .jumping ∨ b = .disabled
  | .disabled, b => b = .disabled ∨ b = .enabled

/-- An instruction that writes `R_cop0_EI` leaves the EX stage. -/
def exWritesEi (c : Config) (s : State) (i : Input) : Bool :=
  clkRun c i && exLeave c s i && (s.idEx.ei || s.idEx.di || s.idEx.cop0Write)

section Order

variable (harch : c.arch = .mi32) (hexc : c.exceptions = true) (hreset : s.rReset = false)
include harch hexc hreset

theorem FsmInv.next (h : FsmInv c s) : FsmInv c (step c s i) := by
  cases heip : s.exMem.eip with
  | false => exact h.step_of_idle harch hexc hreset heip
  | true => exact h.step_of_eip harch hexc hreset heip

omit hexc hreset in
/-- In state `#2` the ID stage executes the injected jump as soon as it runs. -/
theorem FsmInv.executes (h : FsmInv c s) (hif : s.ifId.eip = true) :
    executesJrK0 c s i = (clkRun c i && idRunning c s i) := by
  obtain ⟨heip, -⟩ := h.ifId hif
  obtain ⟨hinstr, hbubble, hbranch⟩ := h.jump hif
  obtain ⟨hcomplete, hcancel⟩ := h.settled (by simp [hif])
  have hpredict : s.idEx.predictTaken = false := by
    by_contra hne
    simp [h.sound.predict (by simpa using hne)] at hbranch
  cases hclk : clkRun c i with
  | false => simp [executesJrK0, hclk]
  | true =>
      cases hrun : idRunning c s i with
      | false => simp [executesJrK0, hrun]
      | true =>
          have hready : i.imemDataReady = true := by
            simp only [idRunning, ifFetchComplete, h.no_branch heip, Bool.and_eq_true] at hrun
            simpa using hrun.1
          have hdecoded : (idDecoded c s i).jumpCycle = true := by
            simp only [idDecoded, idecode, harch, hinstr]
            rfl
          have hnext : ifPcNext c s i = idJumpTarget c s i := by
            simp [ifPcNext, exTakeBranch, hbranch, hpredict, h.no_branch heip,
              h.no_refetch heip, hcomplete, hrun, hcancel, hbubble, hdecoded]
          have hpc : (step c s i).ifId.pc = idJumpTarget c s i &&& pcMask c := by
            simp [step, ifIdNext, hclk, harch, h.no_refetch heip, hcomplete, hrun, ifIdFetched,
              ifPcExtNext, hready, hnext]
          simp [executesJrK0, hclk, hrun, hif, hinstr, hbubble, hcancel, hpc]

/-- What a clock does to the documented states. -/
theorem FsmInv.order (h : FsmInv c s) :
    ∃ a b, excState s = some a ∧ excState (step c s i) = some b ∧ a.Follows b ∧
      (executesJrK0 c s i = true ↔ a = .injected ∧ b = .jumping) ∧
      (a = .enabled ∧ b = .disabled ∨ a = .disabled ∧ b = .enabled →
        exWritesEi c s i = true) := by
  cases heip : s.exMem.eip with
  | false =>
      obtain ⟨hif, hid⟩ := h.idle heip
      obtain ⟨hmem', hif', hid', hei'⟩ := h.flags_of_idle (i := i) hexc hreset heip
      have hjump : executesJrK0 c s i = false := by simp [executesJrK0, hif]
      cases haccept : clkRun c i && exLeave c s i && exException c s with
      | true =>
          simp only [Bool.and_eq_true] at haccept
          obtain ⟨⟨hclk, hleave⟩, haccept⟩ := haccept
          have hei : s.cop0.rEi = true := by
            simp only [exException, Bool.and_eq_true] at haccept
            exact haccept.1.1.1.2
          refine ⟨.enabled, .accepted, ?_, ?_, .inr (.inl rfl), by simp [hjump], by simp⟩
          · simp [excState, hei, hif, hid, heip]
          · simp [excState, hei', hif', hid', hmem', hclk, hleave, haccept]
      | false =>
          have hstate : ∀ e : Bool, (if e then ExcState.enabled else .disabled) ≠ .injected := by
            decide
          refine ⟨if s.cop0.rEi then .enabled else .disabled,
            if (step c s i).cop0.rEi then .enabled else .disabled, ?_, ?_, ?_, ?_, ?_⟩
          · cases hei : s.cop0.rEi <;> simp [excState, hei, hif, hid, heip]
          · cases hei : (step c s i).cop0.rEi <;>
              simp [excState, hei, hif', hid', hmem', haccept]
          · cases s.cop0.rEi <;> cases (step c s i).cop0.rEi <;> simp [ExcState.Follows]
          · simp [hjump, hstate]
          · intro hchange
            have hne : (step c s i).cop0.rEi ≠ s.cop0.rEi := by
              intro heq
              rw [heq] at hchange
              cases hei : s.cop0.rEi <;> simp [hei] at hchange
            rw [hei', cop0Write_rEi] at hne
            simp only [exWritesEi]
            grind
  | true =>
      obtain ⟨hei', hmem', hif', hid'⟩ := h.flags_of_eip (i := i) hexc hreset heip
      obtain ⟨hei, -, -⟩ := h.exMem heip
      cases hif : s.ifId.eip with
      | true =>
          -- `#2`
          obtain ⟨-, hid⟩ := h.ifId hif
          obtain ⟨hcomplete, hcancel⟩ := h.settled (by simp [hif])
          have hexec := h.executes (i := i) harch hif
          have hex := idRunning_exRunning (c := c) (i := i) hcancel
          cases hrun : clkRun c i && idRunning c s i with
          | false =>
              refine ⟨.injected, .injected, ?_, ?_, .inl rfl, by simp [hexec, hrun], by simp⟩
              · simp [excState, hei, hif, hid, heip]
              · simp only [excState, hei', hmem', hif', hid', hid, hif, hcomplete]
                grind
          | true =>
              refine ⟨.injected, .jumping, ?_, ?_, .inr rfl, by simp [hexec, hrun], by simp⟩
              · simp [excState, hei, hif, hid, heip]
              · simp only [excState, hei', hmem', hif', hid', hid, hif, hcomplete]
                grind
      | false =>
          have hjump : executesJrK0 c s i = false := by simp [executesJrK0, hif]
          cases hid : s.idEx.eip with
          | true =>
              -- `#3`
              obtain ⟨hcomplete, hcancel⟩ := h.settled (by simp [hid])
              have hex := idRunning_exRunning (c := c) (i := i) hcancel
              cases hrun : clkRun c i && idRunning c s i with
              | false =>
                  refine ⟨.jumping, .jumping, ?_, ?_, .inl rfl, by simp [hjump], by simp⟩
                  · simp [excState, hei, hif, hid, heip]
                  · simp only [excState, hei', hmem', hif', hid', hid, hif, hcomplete]
                    grind
              | true =>
                  refine ⟨.jumping, .disabled, ?_, ?_, .inr rfl, by simp [hjump], by simp⟩
                  · simp [excState, hei, hif, hid, heip]
                  · simp only [excState, hei', hmem', hif', hid', hid, hif, hcomplete]
                    grind
          | false =>
              -- `#1`
              cases hrun : clkRun c i && !s.ifId.incompleteBranch && idRunning c s i with
              | false =>
                  refine ⟨.accepted, .accepted, ?_, ?_, .inl rfl, by simp [hjump], by simp⟩
                  · simp [excState, hei, hif, hid, heip]
                  · simp [excState, hei', hmem', hif', hid', hid, hif, hrun]
              | true =>
                  refine ⟨.accepted, .injected, ?_, ?_, .inr rfl, by simp [hjump], by simp⟩
                  · simp [excState, hei, hif, hid, heip]
                  · simp [excState, hei', hmem', hif', hid', hid, hif, hrun]

end Order

end Machine

section Run

/-- On the way from `#1` to `#4` the step from `#2` to `#3` is made once. -/
theorem card_jumps {f : Nat → ExcState} {jumps : Nat → Bool} {m n : Nat}
    (hfollows : ∀ t, m ≤ t → (f t).Follows (f (t + 1)))
    (hjumps : ∀ t, m ≤ t → (jumps t = true ↔ f t = .injected ∧ f (t + 1) = .jumping))
    (hstart : f m = .enabled) (haccept : f (m + 1) = .accepted) (hmn : m < n)
    (hend : f n = .disabled) (hfirst : ∀ t, m < t → t < n → f t ≠ .disabled) :
    ((Finset.Ico m n).filter fun t => jumps t = true).card = 1 := by
  -- the number of jumps so far is told by the state
  have hcount : ∀ d, m + 1 + d ≤ n →
      (f (m + 1 + d) = .accepted ∨ f (m + 1 + d) = .injected) ∧
          ((Finset.Ico m (m + 1 + d)).filter fun t => jumps t = true).card = 0 ∨
        (f (m + 1 + d) = .jumping ∨ f (m + 1 + d) = .disabled) ∧
          ((Finset.Ico m (m + 1 + d)).filter fun t => jumps t = true).card = 1 := by
    intro d
    induction d with
    | zero =>
        intro _
        left
        have hno : jumps m = false := by
          simpa [hstart] using hjumps m (Nat.le_refl m)
        simp [haccept, Finset.filter_singleton, hno]
    | succ d ih =>
        intro hd
        have hlast : ((Finset.Ico m (m + 1 + (d + 1))).filter fun t => jumps t = true).card =
            ((Finset.Ico m (m + 1 + d)).filter fun t => jumps t = true).card +
              if jumps (m + 1 + d) then 1 else 0 := by
          rw [show m + 1 + (d + 1) = m + 1 + d + 1 by omega,
            ← Finset.insert_Ico_right_eq_Ico_add_one (by omega), Finset.filter_insert]
          split <;> simp_all
        have hne := hfirst (m + 1 + d) (by omega) (by omega)
        have hnext := hfollows (m + 1 + d) (by omega)
        have hjump := hjumps (m + 1 + d) (by omega)
        rw [hlast]
        rcases ih (by omega) with ⟨hs | hs, hc⟩ | ⟨hs | hs, hc⟩
        · rw [hs] at hnext hjump
          rcases hnext with hb | hb <;> simp_all [Nat.add_assoc]
        · rw [hs] at hnext hjump
          rcases hnext with hb | hb <;> simp_all [Nat.add_assoc]
        · rw [hs] at hnext hjump
          rcases hnext with hb | hb <;> simp_all [Nat.add_assoc]
        · exact absurd hs hne
  have hlast := hcount (n - (m + 1)) (by omega)
  rw [show m + 1 + (n - (m + 1)) = n by omega, hend] at hlast
  simpa using hlast

/-- Registers of the type `boolean` are false at power-up. -/
def PowerUp (s : State) : Prop :=
  s.idEx.branchCycle = false ∧ s.idEx.branchLikely = false ∧ s.idEx.predictTaken = false ∧
    s.idEx.branchDelayFollows = false

/-- The exception state machine of `pipeline.txt`.  A core that has run in any way since power-up
and is in normal operation stays in the documented states and leaves them in the documented order.
Between the acceptance of an exception and the return to normal operation it executes one injected
`jr k0`.  `R_cop0_EI` changes elsewhere only by the program. -/
theorem exception_fsm (c : Config) (harch : c.arch = .mi32) (hexc : c.exceptions = true)
    (s : State) (hpower : PowerUp s) (inp : Nat → Input) (start : Nat)
    (hreset : (Clocked.stateAt (step c) s inp start).rReset = false)
    (hrun : ∀ t, start ≤ t → (inp t).reset = false)
    (hstart : excState (Clocked.stateAt (step c) s inp start) = some .enabled ∨
      excState (Clocked.stateAt (step c) s inp start) = some .disabled) :
    (∀ t, start ≤ t → ∃ a b,
      excState (Clocked.stateAt (step c) s inp t) = some a ∧
      excState (Clocked.stateAt (step c) s inp (t + 1)) = some b ∧ a.Follows b ∧
      (a = .enabled ∧ b = .disabled ∨ a = .disabled ∧ b = .enabled →
        exWritesEi c (Clocked.stateAt (step c) s inp t) (inp t) = true)) ∧
    ∀ m n, start ≤ m → m < n →
      excState (Clocked.stateAt (step c) s inp m) = some .enabled →
      excState (Clocked.stateAt (step c) s inp (m + 1)) = some .accepted →
      excState (Clocked.stateAt (step c) s inp n) = some .disabled →
      (∀ t, m < t → t < n → excState (Clocked.stateAt (step c) s inp t) ≠ some .disabled) →
      ((Finset.Ico m n).filter fun t =>
        executesJrK0 c (Clocked.stateAt (step c) s inp t) (inp t) = true).card = 1 := by
  have hinit : s.idEx.Sound := by
    obtain ⟨hb, hl, hp, hf⟩ := hpower
    exact ⟨by simp [hl], by simp [hp], by simp [hb], by simp [hb], by simp [hf]⟩
  have hsound : ∀ t, (Clocked.stateAt (step c) s inp t).idEx.Sound :=
    @Clocked.stateAt_invariant _ _ (step c) (fun s => s.idEx.Sound) s hinit
      (fun _ _ h => idExNext_sound harch hexc h) inp
  have hinv : ∀ t, start ≤ t → (Clocked.stateAt (step c) s inp t).rReset = false ∧
      FsmInv c (Clocked.stateAt (step c) s inp t) := by
    intro t ht
    induction t, ht using Nat.le_induction with
    | base =>
        have hflags : (Clocked.stateAt (step c) s inp start).ifId.eip = false ∧
            (Clocked.stateAt (step c) s inp start).idEx.eip = false ∧
            (Clocked.stateAt (step c) s inp start).exMem.eip = false := by
          simp only [excState] at hstart
          split at hstart <;> simp_all
        obtain ⟨hif, hid, hmem⟩ := hflags
        exact ⟨hreset, hsound start, by simp [hif], by simp [hid], by simp [hif, hid],
          by simp [hmem], by simp [hif], by simp [hmem]⟩
    | succ t ht ih =>
        refine ⟨?_, ih.2.next harch hexc ih.1⟩
        simp [Clocked.stateAt_succ, step, hrun t ht, ih.1]
  have horder := fun t ht => (hinv t ht).2.order (i := inp t) harch hexc (hinv t ht).1
  constructor
  · intro t ht
    obtain ⟨a, b, ha, hb, hfollows, -, hwrites⟩ := horder t ht
    exact ⟨a, b, ha, hb, hfollows, hwrites⟩
  · intro m n hm hmn hs ha hd hfirst
    -- the states of the run, as a function of the time
    have hget : ∀ t, m ≤ t → excState (Clocked.stateAt (step c) s inp t) =
        some ((excState (Clocked.stateAt (step c) s inp t)).getD .disabled) := by
      intro t ht
      obtain ⟨a, b, ha, -⟩ := horder t (by omega)
      simp [ha]
    refine card_jumps (m := m) (n := n)
      (f := fun t => (excState (Clocked.stateAt (step c) s inp t)).getD .disabled)
      ?_ ?_ (by simp [hs]) (by simp [ha]) hmn (by simp [hd]) ?_
    · intro t ht
      obtain ⟨a, b, ha, hb, hfollows, -⟩ := horder t (by omega)
      simpa [ha, hb, Clocked.stateAt_succ] using hfollows
    · intro t ht
      obtain ⟨a, b, ha, hb, -, hjumps, -⟩ := horder t (by omega)
      simpa [ha, hb, Clocked.stateAt_succ] using hjumps
    · intro t hlt hgt heq
      exact hfirst t hlt hgt (by rw [hget t (by omega), heq])

/-- A core with interrupts on and a `SYSCALL` in the EX stage. -/
def syscallConfig : Config :=
  { arch := .mi32
    bigEndian := false
    multEnable := false
    branchLikely := true
    signExtend := true
    exceptions := true }

def syscallState : State :=
  { (default : State) with
    cop0 := { (default : Cop0) with rEi := true }
    idEx := { (default : IdEx) with exception := true } }

def syscallInput : Input :=
  { (default : Input) with imemDataReady := true, dmemDataReady := true }

/-- The entry into the handler takes five clocks. -/
theorem exception_fsm_syscall :
    ((Finset.Ico 0 5).filter fun t =>
      executesJrK0 syscallConfig
        (Clocked.stateAt (step syscallConfig) syscallState (fun _ => syscallInput) t)
        syscallInput = true).card = 1 :=
  (exception_fsm syscallConfig rfl rfl syscallState ⟨rfl, rfl, rfl, rfl⟩ (fun _ => syscallInput) 0
    rfl (fun _ _ => rfl) (.inl rfl)).2 0 5 (Nat.le_refl 0) (by decide) rfl rfl rfl
    (by
      intro t hpos hlt
      interval_cases t <;> decide +kernel)

end Run

end Core
end F32c
