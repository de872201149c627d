import F32c.Core.Pipeline

/-!
# From the ID stage to the EX stage

What a run knows about an instruction in the EX stage that the ID stage has handed over to it: the
decoder's view of it, and that it is none of the shifts that a byte or half word load without the
load aligner leaves behind in the EX stage.
-/

namespace F32c
namespace Core

open Clocked

section Decoder

/-- What the decoders make of an instruction that accesses the memory. -/
structure Decoded.Access (d : Decoded) : Prop where
  opMajor : d.opMajor = .alu
  adds : d.opMinor.getLsbD 1 = false
  useImmediate : d.useImmediate = true
  shiftFn : d.shiftFn = .ll
  branch : d.branchCycle = false
  cmov : d.cmovCycle = false
  wait : d.cop0Wait = false
  altSel : d.altSel = .pcRet
  sc : d.memWrite = false → d.sc = false

/-- Every access is decoded as one. -/
def Decoded.AccessSound (d : Decoded) : Prop := d.memCycle = true → d.Access

theorem Decoded.AccessSound.of_quiet {d : Decoded} (h : d.memCycle = false) : d.AccessSound := by
  intro hmem
  rw [h] at hmem
  cases hmem

theorem Decoded.AccessSound.ite {p : Prop} [Decidable p] {a b : Decoded}
    (ha : p → a.AccessSound) (hb : b.AccessSound) : (if p then a else b).AccessSound := by
  split
  · exact ha ‹p›
  · exact hb

theorem opMinorAdd_adds (x : Bool) : (opMinorAdd x).getLsbD 1 = false := by
  cases x <;> rfl

theorem rv32RegImm_quiet {u : Undef} {w : Word} {d : Decoded} (h : d.memCycle = false) :
    (rv32RegImm u w d).memCycle = false := by
  unfold rv32RegImm rv32Shift
  split_ifs <;> exact h

theorem rv32RegReg_quiet {u : Undef} {w : Word} {d : Decoded} (h : d.memCycle = false) :
    (rv32RegReg u w d).memCycle = false := by
  unfold rv32RegReg rv32Shift
  split_ifs <;> exact h

theorem idecodeRv32_access (c : Config) (u : Undef) (w : Word) :
    (idecodeRv32 c u w).AccessSound := by
  unfold idecodeRv32
  dsimp only
  repeat' first
    | exact .of_quiet (rv32RegImm_quiet rfl)
    | exact .of_quiet (rv32RegReg_quiet rfl)
    | refine Decoded.AccessSound.ite (fun h => ?_) ?_
  all_goals first
    | exact .of_quiet rfl
    | exact fun _ => ⟨rfl, opMinorAdd_adds _, rfl, rfl, rfl, rfl, rfl, rfl, fun _ => rfl⟩

section Mi32

variable (c : Config) (u : Undef) (w : Word) (d : Decoded)

theorem mi32BranchLikely_memCycle (condition : BitVec 3) :
    (mi32BranchLikely c u d condition).memCycle = d.memCycle := by
  unfold mi32BranchLikely
  split_ifs <;> rfl

theorem mi32Regimm_memCycle : (mi32Regimm u w d).memCycle = d.memCycle := by
  unfold mi32Regimm
  dsimp only
  split_ifs <;> rfl

theorem mi32Cmov_memCycle (condition : Bool) :
    (mi32Cmov c u d condition).memCycle = d.memCycle := by
  unfold mi32Cmov
  split_ifs <;> rfl

theorem mi32Exception_memCycle : (mi32Exception c d).memCycle = d.memCycle := by
  unfold mi32Exception
  split_ifs <;> rfl

theorem mi32MoveTo_memCycle (mthi mtlo : Bool) :
    (mi32MoveTo c d mthi mtlo).memCycle = d.memCycle := by
  unfold mi32MoveTo
  split_ifs <;> rfl

theorem memCycle_ite {p : Prop} [Decidable p] {a b : Decoded} {m : Bool}
    (ha : a.memCycle = m) (hb : b.memCycle = m) : (if p then a else b).memCycle = m := by
  split
  · exact ha
  · exact hb

theorem mi32Special_memCycle : (mi32Special c u w d).memCycle = d.memCycle := by
  unfold mi32Special
  dsimp only
  repeat' apply memCycle_ite
  all_goals first
    | exact mi32Cmov_memCycle _ _ _ _
    | exact mi32Exception_memCycle _ _
    | exact mi32MoveTo_memCycle _ _ _ _
    | rfl

theorem mi32Special2_memCycle : (mi32Special2 c u w d).memCycle = d.memCycle := by
  unfold mi32Special2 mi32Unsupported
  split_ifs <;> rfl

theorem mi32Special3_memCycle : (mi32Special3 c u w d).memCycle = d.memCycle := by
  unfold mi32Special3 mi32Unsupported
  split_ifs <;> rfl

end Mi32

/-- A word with a set upper bit, which is `mem_cycle`, is an access in all defaults. -/
theorem mi32Default_access {u : Undef} {w : Word} (h : (mi32Default u w).memCycle = true) :
    (mi32Default u w).Access := by
  have hbit : w.getLsbD 31 = true := h
  refine ⟨rfl, opMinorAdd_adds _, ?_, ?_, rfl, rfl, rfl, rfl, fun _ => rfl⟩
  · simp only [mi32Default, hbit, Bool.or_true]
  · simp only [mi32Default, mi32ShiftFn, hbit, if_true]

/-- Most branches of the decoder change other fields only. -/
theorem Decoded.Access.of_eq {d e : Decoded} (h : d.Access) (hmajor : e.opMajor = d.opMajor)
    (hminor : e.opMinor = d.opMinor) (himm : e.useImmediate = true)
    (hshift : e.shiftFn = d.shiftFn) (hbranch : e.branchCycle = d.branchCycle)
    (hcmov : e.cmovCycle = d.cmovCycle) (hwait : e.cop0Wait = d.cop0Wait)
    (halt : e.altSel = d.altSel) (hsc : e.memWrite = false → e.sc = false) : e.Access :=
  ⟨hmajor.trans h.opMajor, by rw [hminor, h.adds], himm, hshift.trans h.shiftFn,
    hbranch.trans h.branch, hcmov.trans h.cmov, hwait.trans h.wait, halt.trans h.altSel, hsc⟩

theorem idecodeMi32_access (c : Config) (u : Undef) (w : Word) :
    (idecodeMi32 c u w).AccessSound := by
  -- an opcode that is not one of an access has a clear upper bit
  have hquiet : ∀ op : BitVec 6, w.extractLsb 31 26 = op → op.getLsbD 5 = false →
      (mi32Default u w).memCycle = false := by
    intro op hop hmsb
    rw [← hop] at hmsb
    simpa [mi32Default] using hmsb
  have hdefault : (mi32Default u w).memCycle = true → (mi32Default u w).Access :=
    mi32Default_access
  unfold idecodeMi32
  dsimp only
  repeat' with_reducible refine Decoded.AccessSound.ite (fun h => ?_) ?_
  all_goals first
    | exact .of_quiet (by
        simp only [mi32BranchLikely_memCycle, mi32Regimm_memCycle, mi32Special_memCycle,
          mi32Special2_memCycle, mi32Special3_memCycle]
        exact hquiet _ ‹_› (by decide))
    | exact .of_quiet (hquiet _ ‹_› (by decide))
    | exact .of_quiet (h.elim (hquiet _ · (by decide)) (hquiet _ · (by decide)))
    | exact fun h => .of_eq (hdefault h) rfl rfl rfl rfl rfl rfl rfl rfl (fun _ => rfl)
    | exact fun h => .of_eq (hdefault h) rfl rfl rfl rfl rfl rfl rfl rfl nofun
    | exact fun h => .of_eq (hdefault h) rfl rfl (hdefault h).useImmediate
        rfl rfl rfl rfl rfl (fun _ => rfl)

/-- Every access is decoded as one, by the decoder that `C_arch` selects. -/
theorem idecode_access (c : Config) (u : Undef) (w : Word) : (idecode c u w).AccessSound := by
  unfold idecode
  cases c.arch with
  | mi32 => exact idecodeMi32_access c u w
  | rv32 => exact idecodeRv32_access c u w

end Decoder

section Step

variable {c : Config} {s : State} {i : Input}

/-- The ID stage hands its instruction over to the EX stage. -/
def idIssue (c : Config) (s : State) (i : Input) : Bool :=
  clkRun c i && exRunning c s i &&
    !(!c.loadAligner && s.idEx.multicycleLhLb && !memCancelEx c s && !s.exMem.eip) &&
    !idInsertBubble c s i

/-- What holds of the byte and half word loads, and of the shifts after them, in every state. -/
structure AlignInv (c : Config) (s : State) : Prop where
  eip : c.exceptions = false → s.exMem.eip = false
  load : s.idEx.multicycleLhLb = true → s.idEx.branchCycle = false ∧ s.idEx.branchLikely = false
  pass : s.exMem.multicycleLhLb = true →
    s.exMem.takeBranch = false ∧ s.exMem.branchLikely = false ∧ s.exMem.eip = false

/-- An instruction in the EX stage; it waits there with a changed condition at most. -/
structure InEx (d : IdEx) (s : State) : Prop where
  instr : ∃ r : IdEx, s.idEx =
    { d with
      bubble := r.bubble
      wait := r.wait
      cancelNext := r.cancelNext
      mulCompound := r.mulCompound }
  first : s.exMem.multicycleLhLb = false

theorem clkRun_of_memRunning (h : memRunning c s i = true) : clkRun c i = true := by
  simp only [memRunning, Bool.and_eq_true, Bool.or_eq_true] at h
  simp only [clkRun, Bool.or_eq_true]
  exact h.1.1.symm

theorem not_leave_of_bubble (h : exInsertBubble c s i = true) : exLeave c s i = false := by
  simp [exLeave, h]

/-- An instruction that leaves the EX stage is not cancelled, and no exception is under way. -/
theorem leave_quiet (hinv : AlignInv c s) (h : exLeave c s i = true) :
    memCancelEx c s = false ∧ s.exMem.eip = false ∧ memRunning c s i = true ∧
      exRunning c s i = true := by
  simp only [exLeave, exInsertBubble, Bool.and_eq_true, Bool.not_eq_true'] at h
  rcases h with ⟨⟨hbubble, hrun⟩, hex⟩
  simp only [hrun, hex, Bool.true_and, Bool.not_true, Bool.or_false, Bool.or_eq_false_iff]
    at hbubble
  refine ⟨hbubble.1, ?_, hrun, hex⟩
  cases hexc : c.exceptions with
  | false => exact hinv.eip hexc
  | true =>
      have := hbubble.2
      rwa [hexc, Bool.true_and] at this

/-- The fields of the MEM stage that cancel the instruction in the EX stage. -/
structure Cancels (r : ExMem) (multicycle take likely : Bool) : Prop where
  multicycleLhLb : r.multicycleLhLb = multicycle
  takeBranch : r.takeBranch = take
  branchLikely : r.branchLikely = likely

theorem exMemNext_bubble (h : exInsertBubble c s i = true) :
    Cancels (exMemNext c s i) s.exMem.multicycleLhLb false false ∧
      (s.exMem.eip = false → (exMemNext c s i).eip = false) := by
  have hclk : clkRun c i = true := by
    simp only [exInsertBubble, Bool.and_eq_true] at h
    exact clkRun_of_memRunning h.1
  simp only [exMemNext, hclk, h, if_true]
  constructor
  · constructor <;> split_ifs <;> rfl
  · intro heip
    split_ifs <;> simp [exMemBubble, heip]

theorem exMemNext_leaves (h : exLeave c s i = true) :
    Cancels (exMemNext c s i) (!c.loadAligner && s.idEx.multicycleLhLb)
        (exTakeBranch c s && !exException c s) (s.idEx.branchLikely && !exException c s) ∧
      (s.exMem.eip = false → (exMemNext c s i).eip = exException c s) := by
  have hsplit := h
  simp only [exLeave, Bool.and_eq_true, Bool.not_eq_true'] at hsplit
  rcases hsplit with ⟨⟨hbubble, hrun⟩, -⟩
  simp only [exMemNext, clkRun_of_memRunning hrun, hbubble, h, if_true, Bool.false_eq_true,
    if_false]
  constructor
  · constructor <;> split_ifs <;> rfl
  · intro heip
    split_ifs <;> simp [exMemLoad, heip]

theorem exMemNext_held (hbubble : exInsertBubble c s i = false) (hleave : exLeave c s i = false) :
    Cancels (exMemNext c s i) s.exMem.multicycleLhLb s.exMem.takeBranch s.exMem.branchLikely ∧
      (s.exMem.eip = false → (exMemNext c s i).eip = false) := by
  simp only [exMemNext, hbubble, hleave, Bool.false_eq_true, if_false]
  constructor
  · constructor <;> split_ifs <;> rfl
  · intro heip
    split_ifs <;> simp [heip]

/-- A load is not a branch. -/
theorem idExLoad_load (r : IdEx) (h : (idExLoad c s i r).multicycleLhLb = true) :
    (idExLoad c s i r).branchCycle = false ∧ (idExLoad c s i r).branchLikely = false := by
  simp only [idExLoad, Bool.and_eq_true] at h
  have hbranch : (idDecoded c s i).branchCycle = false := (idecode_access _ _ _ h.1.1.2).branch
  simp [idExLoad, hbranch]

/-- The instruction in the EX stage is no branch when it is a load or a shift after one. -/
def IdEx.LoadSound (r : IdEx) : Prop :=
  r.multicycleLhLb = true → r.branchCycle = false ∧ r.branchLikely = false

theorem idExNext_load (h : s.idEx.LoadSound) : (idExNext c s i).LoadSound := by
  have hreset : ∀ r : IdEx, r.LoadSound →
      (if s.rReset then { r with exception := true, bubble := false, wait := false }
        else r).LoadSound := by
    intro r hr
    split
    · exact hr
    · exact hr
  unfold idExNext
  split
  · apply hreset
    split
    · split
      · rename_i hload
        simp only [Bool.and_eq_true] at hload
        exact fun _ => h hload.1.1.2
      · split
        · exact nofun
        · exact idExLoad_load _
    · exact h
  · exact h

/-- Every clock keeps the invariant. -/
theorem AlignInv.step (h : AlignInv c s) : AlignInv c (step c s i) := by
  rcases h with ⟨heip, hload, hpass⟩
  constructor
  · intro hexc
    have hnone : exException c s = false := by simp [exException, hexc]
    change (exMemNext c s i).eip = false
    cases hbubble : exInsertBubble c s i with
    | true => exact (exMemNext_bubble hbubble).2 (heip hexc)
    | false =>
        cases hleave : exLeave c s i with
        | true => rw [(exMemNext_leaves hleave).2 (heip hexc), hnone]
        | false => exact (exMemNext_held hbubble hleave).2 (heip hexc)
  · exact idExNext_load hload
  · change (exMemNext c s i).multicycleLhLb = true → _
    intro hmulti
    cases hbubble : exInsertBubble c s i with
    | true =>
        rcases exMemNext_bubble hbubble with ⟨hcancel, hkeep⟩
        rw [hcancel.multicycleLhLb] at hmulti
        exact ⟨hcancel.takeBranch, hcancel.branchLikely, hkeep (hpass hmulti).2.2⟩
    | false =>
        cases hleave : exLeave c s i with
        | true =>
            rcases exMemNext_leaves hleave with ⟨hcancel, hkeep⟩
            rw [hcancel.multicycleLhLb, Bool.and_eq_true] at hmulti
            have hnone : exException c s = false := by simp [exException, hmulti.2]
            refine ⟨?_, ?_, ?_⟩
            · exact hcancel.takeBranch.trans (by simp [exTakeBranch, (hload hmulti.2).1])
            · exact hcancel.branchLikely.trans (by simp [(hload hmulti.2).2])
            · exact (hkeep (leave_quiet ⟨heip, hload, hpass⟩ hleave).2.1).trans hnone
        | false =>
            rcases exMemNext_held hbubble hleave with ⟨hcancel, hkeep⟩
            rw [hcancel.multicycleLhLb] at hmulti
            rcases hpass hmulti with ⟨htake, hlikely, heip'⟩
            exact ⟨hcancel.takeBranch.trans htake, hcancel.branchLikely.trans hlikely, hkeep heip'⟩

/-- A handed over instruction is in the EX stage, and no load is under way before it. -/
theorem inEx_of_issue (hinv : AlignInv c s) (hissue : idIssue c s i = true)
    (hreset : s.rReset = false) : InEx (idExLoad c s i s.idEx) (step c s i) := by
  simp only [idIssue, Bool.and_eq_true, Bool.not_eq_true'] at hissue
  rcases hissue with ⟨⟨⟨hclk, hex⟩, halign⟩, hload⟩
  constructor
  · refine ⟨idExNext c s i, ?_⟩
    simp [step, idExNext, hclk, hex, halign, hload, hreset, idExLoad]
  · change (exMemNext c s i).multicycleLhLb = false
    have hrun : memRunning c s i = true := by
      simp only [exRunning, Bool.and_eq_true] at hex
      exact hex.1.1
    cases hbubble : exInsertBubble c s i with
    | true =>
        rw [(exMemNext_bubble hbubble).1.multicycleLhLb]
        by_contra hmulti
        rcases hinv.pass (by simpa using hmulti) with ⟨htake, hlikely, heip⟩
        simp [exInsertBubble, memCancelEx, hex, htake, hlikely, heip] at hbubble
    | false =>
        have hleave : exLeave c s i = true := by simp [exLeave, hbubble, hrun, hex]
        rcases leave_quiet hinv hleave with ⟨hcancel, heip, -, -⟩
        rw [(exMemNext_leaves hleave).1.multicycleLhLb]
        simpa [hcancel, heip] using halign

/-- No exception is under way when an instruction is handed over. -/
theorem issue_no_exception (hissue : idIssue c s i = true) :
    (c.exceptions && s.exMem.eip) = false := by
  simp only [idIssue, idInsertBubble, Bool.and_eq_true, Bool.not_eq_true', Bool.or_eq_false_iff]
    at hissue
  exact hissue.2.2

/-- It stays there while the EX stage does not run. -/
theorem InEx.held {d : IdEx} (h : InEx d s) (hex : exRunning c s i = false)
    (hreset : s.rReset = false) : InEx d (step c s i) := by
  rcases h with ⟨⟨r, hinstr⟩, hfirst⟩
  constructor
  · cases hclk : clkRun c i with
    | false =>
        refine ⟨r, ?_⟩
        simp [step, idExNext, hclk, hinstr]
    | true =>
        refine ⟨idExNext c s i, ?_⟩
        simp [step, idExNext, hclk, hex, hreset, hinstr]
  · change (exMemNext c s i).multicycleLhLb = false
    cases hbubble : exInsertBubble c s i with
    | true => rw [(exMemNext_bubble hbubble).1.multicycleLhLb, hfirst]
    | false =>
        have hleave : exLeave c s i = false := by simp [exLeave, hex]
        rw [(exMemNext_held hbubble hleave).1.multicycleLhLb, hfirst]

end Step

section Run

variable {c : Config} {s : State} {inp : Nat → Input} {k n : Nat}

/-- Registers of the type `boolean` are false at power-up. -/
structure AlignPowerUp (s : State) : Prop where
  idEx : s.idEx.multicycleLhLb = false
  exMem : s.exMem.multicycleLhLb = false
  eip : s.exMem.eip = false

theorem alignInv_run (hpower : AlignPowerUp s) (n : Nat) :
    AlignInv c (stateAt (step c) s inp n) := by
  apply stateAt_invariant
  · exact ⟨fun _ => hpower.eip, by simp [hpower.idEx], by simp [hpower.exMem]⟩
  · exact fun s i h => h.step

/-- The run is out of reset from a clock on. -/
structure OutOfReset (c : Config) (s : State) (inp : Nat → Input) (k : Nat) : Prop where
  now : (stateAt (step c) s inp k).rReset = false
  later : ∀ t, k ≤ t → (inp t).reset = false

theorem OutOfReset.at (h : OutOfReset c s inp k) {t : Nat} (ht : k ≤ t) :
    (stateAt (step c) s inp t).rReset = false := by
  induction t, ht using Nat.le_induction with
  | base => exact h.now
  | succ t ht ih => simp [stateAt_succ, step, h.later t ht, ih]

theorem OutOfReset.mono (h : OutOfReset c s inp k) {t : Nat} (ht : k ≤ t) :
    OutOfReset c s inp t :=
  ⟨h.at ht, fun u hu => h.later u (by omega)⟩

/-- The instruction that the ID stage hands over in clock `k` leaves the EX stage in clock `n`. -/
structure Traverses (c : Config) (s : State) (inp : Nat → Input) (k n : Nat) : Prop where
  order : k < n
  issue : idIssue c (stateAt (step c) s inp k) (inp k) = true
  waits : ∀ t, k < t → t < n → exRunning c (stateAt (step c) s inp t) (inp t) = false
  leaves : exLeave c (stateAt (step c) s inp n) (inp n) = true

/-- The decoder's view of the instruction that is handed over in a clock. -/
def issued (c : Config) (s : State) (inp : Nat → Input) (k : Nat) : Decoded :=
  idDecoded c (stateAt (step c) s inp k) (inp k)

/-- The registers that it is handed over in. -/
def issuedEx (c : Config) (s : State) (inp : Nat → Input) (k : Nat) : IdEx :=
  idExLoad c (stateAt (step c) s inp k) (inp k) (stateAt (step c) s inp k).idEx

theorem Traverses.inEx (h : Traverses c s inp k n) (hpower : AlignPowerUp s)
    (hreset : OutOfReset c s inp k) : InEx (issuedEx c s inp k) (stateAt (step c) s inp n) := by
  have hwaits := h.waits
  have hall : ∀ t, k + 1 ≤ t → t ≤ n → InEx (issuedEx c s inp k) (stateAt (step c) s inp t) := by
    intro t ht
    induction t, ht using Nat.le_induction with
    | base => exact fun _ => inEx_of_issue (alignInv_run hpower k) h.issue hreset.now
    | succ t ht ih =>
        exact fun hle => (ih (by omega)).held (hwaits t (by omega) (by omega))
          (hreset.at (by omega))
  exact hall n h.order (Nat.le_refl n)

end Run

end Core
end F32c
