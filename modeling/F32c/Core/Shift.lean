import F32c.Core.Datapath
import F32c.Core.Issue

/-!
# The iterative shifter

Without `C_full_shifter` the EX stage shifts by 16 and 8 and the MEM stage by one bit in a clock.
The instruction is held in the MEM stage while `EX_MEM_shift_blocked` is set, which it is until the
amount that is left is one; a last bit, if any, is shifted in the clock in which it leaves.
-/

namespace F32c
namespace Core

open Clocked

section Amount

/-- What a shift instruction computes. -/
def shiftBy (fn : ShiftFn) (w : Word) (n : Nat) : Word :=
  match fn with
  | .ll => w <<< n
  | .rl => w >>> n
  | .ra => w.sshiftRight n
  | .bypass => w

theorem shiftStage_eq (k : Nat) (fn : ShiftFn) (b : Bool) (w : Word) :
    shiftStage k fn b w = shiftBy fn w (k * b.toNat) := by
  cases fn with
  | ll => exact shiftStage_ll k b w
  | bypass => cases b <;> rfl
  | rl => exact shiftStage_rl k b w
  | ra => exact shiftStage_ra k b w

theorem shiftBy_shiftBy (fn : ShiftFn) (w : Word) (m n : Nat) :
    shiftBy fn (shiftBy fn w m) n = shiftBy fn w (m + n) := by
  cases fn with
  | ll => exact (BitVec.shiftLeft_add w m n).symm
  | bypass => rfl
  | rl => exact (BitVec.shiftRight_add w m n).symm
  | ra => exact BitVec.sshiftRight_add.symm

/-- The stages of the MEM stage shift by the low part of an amount. -/
theorem lowStages_eq (fn : ShiftFn) (n : BitVec 3) (w : Word) :
    shiftStage 4 fn (n.getLsbD 2) (shiftStage 2 fn (n.getLsbD 1) (shiftStage 1 fn (n.getLsbD 0) w)) =
      shiftBy fn w n.toNat := by
  have hsum : 1 * (n.getLsbD 0).toNat + 2 * (n.getLsbD 1).toNat + 4 * (n.getLsbD 2).toNat =
      n.toNat := by
    revert n
    decide
  simp only [shiftStage_eq, shiftBy_shiftBy, hsum]

/-- The stages of the EX stage leave the low part of the amount to be shifted by. -/
theorem highStages_eq (fn : ShiftFn) (n : BitVec 5) (w : Word) :
    shiftBy fn (shiftStage 16 fn (n.getLsbD 4) (shiftStage 8 fn (n.getLsbD 3) w))
      (n.extractLsb 2 0).toNat = shiftBy fn w n.toNat := by
  have hsum : 8 * (n.getLsbD 3).toNat + 16 * (n.getLsbD 4).toNat + (n.extractLsb 2 0).toNat =
      n.toNat := by
    revert n
    decide
  simp only [shiftStage_eq, shiftBy_shiftBy, hsum]

end Amount

section Stage

variable {c : Config} {s : State} {i : Input}

/-- A shift in the MEM stage, with its result: the amount that is left is one at most unless the
stage is blocked. -/
structure ShiftInMem (c : Config) (result : Word) (s : State) : Prop where
  quiet : s.exMem.memCycle = false
  align : c.loadAligner = true ∨ s.memWb.multicycleLhLb = false
  blocked : s.exMem.shiftBlocked = true ↔ 2 ≤ s.exMem.shamt.toNat
  result : shiftBy s.exMem.shiftFunct s.exMem.memDataOut s.exMem.shamt.toNat = result

theorem memFromShift_eq (halign : c.loadAligner = true ∨ s.memWb.multicycleLhLb = false) :
    memFromShift c s =
      shiftBy s.exMem.shiftFunct s.exMem.memDataOut (memShamt c s).toNat := by
  have hcond : (!c.loadAligner && s.memWb.multicycleLhLb) = false := by
    rcases halign with h | h <;> simp [h]
  rw [memFromShift, hcond]
  exact lowStages_eq _ _ _

/-- A shift leaves the MEM stage in a clock in which the stage is not blocked. -/
theorem ShiftInMem.running (h : ShiftInMem c r s) (hfull : c.fullShifter = false) :
    memRunning c s i = (clkRun c i && !s.exMem.shiftBlocked) := by
  simp [memRunning, clkRun, h.quiet, hfull, Bool.or_comm]

/-- Then the last stage gives the result. -/
theorem ShiftInMem.leaves (h : ShiftInMem c r s) (hfull : c.fullShifter = false)
    (hblocked : s.exMem.shiftBlocked = false) :
    memFromShift c s = r := by
  have hle : s.exMem.shamt.toNat < 2 := by
    by_contra hge
    have := h.blocked.2 (by omega)
    rw [hblocked] at this
    cases this
  have hshamt : (memShamt c s).toNat = s.exMem.shamt.toNat := by
    rw [memShamt, hfull, hblocked]
    generalize s.exMem.shamt = n at hle
    revert n
    decide
  rw [memFromShift_eq h.align, hshamt, h.result]

/-- What a clock in which the stage is blocked does. -/
theorem exMemNext_blocked (hfull : c.fullShifter = false) (hclk : clkRun c i = true)
    (hblocked : s.exMem.shiftBlocked = true) :
    (exMemNext c s i).shiftBlocked = (s.exMem.shamt != 0b010#3) ∧
      (exMemNext c s i).memDataOut = memFromShift c s ∧
      (exMemNext c s i).shamt = s.exMem.shamt - 1 ∧
      (exMemNext c s i).shiftFunct = s.exMem.shiftFunct ∧
      (s.exMem.memCycle = false → (exMemNext c s i).memCycle = false) := by
  have hrun : memRunning c s i = false := by simp [memRunning, hfull, hblocked]
  have hbubble : exInsertBubble c s i = false := by simp [exInsertBubble, hrun]
  have hleave : exLeave c s i = false := by simp [exLeave, hrun]
  simp only [exMemNext, hclk, hfull, hblocked, hbubble, hleave, if_true, Bool.not_false,
    Bool.true_and, Bool.false_eq_true, if_false]
  cases s.rReset with
  | false =>
      refine ⟨rfl, rfl, rfl, rfl, ?_⟩
      intro h
      simp [h]
  | true => exact ⟨rfl, rfl, rfl, rfl, fun _ => rfl⟩

/-- The stage before the write back keeps its registers while the MEM stage does not run. -/
theorem memWbNext_blocked (hrun : memRunning c s i = false) :
    (memWbNext c s i).multicycleLhLb = s.memWb.multicycleLhLb := by
  simp only [memWbNext, hrun, Bool.false_eq_true, if_false]
  split_ifs <;> rfl

/-- A clock in which the stage is blocked shifts by one bit, and leaves one less to be shifted. -/
theorem ShiftInMem.step_blocked (h : ShiftInMem c r s) (hfull : c.fullShifter = false)
    (hclk : clkRun c i = true) (hblocked : s.exMem.shiftBlocked = true) :
    ShiftInMem c r (step c s i) ∧
      (step c s i).exMem.shamt.toNat + 1 = s.exMem.shamt.toNat := by
  have hrun : memRunning c s i = false := by simp [memRunning, hfull, hblocked]
  rcases exMemNext_blocked (s := s) hfull hclk hblocked with ⟨hb, hdata, hshamt, hfn, hmem⟩
  have hge := h.blocked.1 hblocked
  have hone : (memShamt c s).toNat = 1 := by
    rw [memShamt, hfull, hblocked]
    rfl
  have hless : (s.exMem.shamt - 1).toNat + 1 = s.exMem.shamt.toNat := by
    generalize s.exMem.shamt = n at hge
    revert n
    decide
  have hlast : (s.exMem.shamt != 0b010#3) = true ↔ 2 ≤ (s.exMem.shamt - 1).toNat := by
    generalize s.exMem.shamt = n at hge
    revert n
    decide
  constructor
  · constructor
    · exact hmem h.quiet
    · rcases h.align with halign | halign
      · exact Or.inl halign
      · exact Or.inr ((memWbNext_blocked hrun).trans halign)
    · change (exMemNext c s i).shiftBlocked = true ↔ 2 ≤ (exMemNext c s i).shamt.toNat
      rw [hb, hshamt]
      exact hlast
    · change shiftBy (exMemNext c s i).shiftFunct (exMemNext c s i).memDataOut
        (exMemNext c s i).shamt.toNat = r
      rw [hfn, hdata, hshamt, memFromShift_eq h.align, hone, shiftBy_shiftBy, ← h.result]
      congr 1
      omega
  · change (exMemNext c s i).shamt.toNat + 1 = s.exMem.shamt.toNat
    rw [hshamt]
    exact hless

/-- A clock that a wait of the cache holds changes nothing. -/
theorem ShiftInMem.step_held (h : ShiftInMem c r s) (hclk : clkRun c i = false) :
    ShiftInMem c r (step c s i) ∧ (step c s i).exMem = s.exMem := by
  have hmem : (step c s i).exMem = s.exMem := by
    simp [step, exMemNext, hclk]
  have hwb : (step c s i).memWb.multicycleLhLb = s.memWb.multicycleLhLb := by
    simp [step, memWbNext, hclk]
  refine ⟨?_, hmem⟩
  rcases h with ⟨hquiet, halign, hblocked, hresult⟩
  constructor
  · rw [hmem]
    exact hquiet
  · rw [hwb]
    exact halign
  · rw [hmem]
    exact hblocked
  · rw [hmem]
    exact hresult

/-- An instruction that leaves the EX stage takes its shifted data and what is left of the
amount with it. -/
theorem exMemNext_leave (hleave : exLeave c s i = true) :
    (exMemNext c s i).memDataOut = exFromShift c s i ∧
      (exMemNext c s i).shamt = (exShamt c s i).extractLsb 2 0 ∧
      (exMemNext c s i).shiftFunct = s.idEx.shiftFunct ∧
      (exMemNext c s i).shiftBlocked = (!c.fullShifter && s.idEx.opMajor == .shift &&
        (exShamt c s i).extractLsb 2 1 != 0b00#2) ∧
      (s.idEx.memCycle = false → (exMemNext c s i).memCycle = false) := by
  have hsplit := hleave
  simp only [exLeave, Bool.and_eq_true, Bool.not_eq_true'] at hsplit
  rcases hsplit with ⟨⟨hbubble, hmem⟩, -⟩
  simp only [exMemNext, clkRun_of_memRunning hmem, hbubble, hleave, if_true, Bool.false_eq_true,
    if_false]
  cases s.rReset with
  | false =>
      refine ⟨rfl, rfl, rfl, rfl, ?_⟩
      intro h
      simp [exMemLoad, h]
  | true => exact ⟨rfl, rfl, rfl, rfl, fun _ => rfl⟩

theorem memWbNext_running (hrun : memRunning c s i = true) :
    (memWbNext c s i).multicycleLhLb = (!c.loadAligner && s.exMem.multicycleLhLb) := by
  simp only [memWbNext, hrun, clkRun_of_memRunning hrun, if_true]

/-- A shift that leaves the EX stage is in the MEM stage with the rest of its amount. -/
theorem shiftInMem_of_leave (hfull : c.fullShifter = false) (hleave : exLeave c s i = true)
    (hshift : s.idEx.opMajor = .shift) (hquiet : s.idEx.memCycle = false)
    (halign : c.loadAligner = true ∨ s.exMem.multicycleLhLb = false) :
    ShiftInMem c (shiftBy s.idEx.shiftFunct (exEffReg2 c s) (exShamt c s i).toNat)
      (step c s i) := by
  rcases exMemNext_leave hleave with ⟨hdata, hshamt, hfn, hb, hmem⟩
  have hrun : memRunning c s i = true := by
    simp only [exLeave, Bool.and_eq_true] at hleave
    exact hleave.1.2
  constructor
  · exact hmem hquiet
  · right
    change (memWbNext c s i).multicycleLhLb = false
    rw [memWbNext_running hrun]
    rcases halign with h | h <;> simp [h]
  · change (exMemNext c s i).shiftBlocked = true ↔ 2 ≤ (exMemNext c s i).shamt.toNat
    rw [hb, hshamt, hfull, hshift]
    generalize exShamt c s i = n
    revert n
    decide
  · change shiftBy (exMemNext c s i).shiftFunct (exMemNext c s i).memDataOut
      (exMemNext c s i).shamt.toNat = _
    rw [hfn, hdata, hshamt]
    exact highStages_eq _ _ _

end Stage

section Run

variable {c : Config} {s : State} {inp : Nat → Input} {r : Word}

/-- The clock in which a shift leaves the MEM stage, with its result. -/
structure LeavesWith (c : Config) (r : Word) (s : State) (inp : Nat → Input) (n t : Nat) :
    Prop where
  after : n ≤ t
  held : ∀ k, n ≤ k → k < t → memRunning c (stateAt (step c) s inp k) (inp k) = false
  runs : memRunning c (stateAt (step c) s inp t) (inp t) = true
  open_ : (stateAt (step c) s inp t).exMem.shiftBlocked = false
  result : memFromShift c (stateAt (step c) s inp t) = r

/-- A shift that has been in the MEM stage since clock `n`, shifted by `k` bits. -/
structure Waits (c : Config) (r : Word) (s : State) (inp : Nat → Input) (n t k : Nat) : Prop where
  after : n ≤ t
  held : ∀ j, n ≤ j → j < t → memRunning c (stateAt (step c) s inp j) (inp j) = false
  shift : ShiftInMem c r (stateAt (step c) s inp t)
  count : (stateAt (step c) s inp t).exMem.shamt.toNat + k =
    (stateAt (step c) s inp n).exMem.shamt.toNat

/-- A clock in which the shift does not leave. -/
theorem Waits.next {n t k k' : Nat} (h : Waits c r s inp n t k)
    (hrun : memRunning c (stateAt (step c) s inp t) (inp t) = false)
    (hshift : ShiftInMem c r (stateAt (step c) s inp (t + 1)))
    (hcount : (stateAt (step c) s inp (t + 1)).exMem.shamt.toNat + k' =
      (stateAt (step c) s inp t).exMem.shamt.toNat + k) :
    Waits c r s inp n (t + 1) k' := by
  rcases h with ⟨hn, hheld, -, hk⟩
  refine ⟨by omega, ?_, hshift, by omega⟩
  intro j hj hlt
  rcases Nat.lt_or_eq_of_le (Nat.le_of_lt_succ hlt) with hlt | rfl
  · exact hheld j hj hlt
  · exact hrun

/-- A shift in the MEM stage leaves it. -/
theorem shift_leaves (hfull : c.fullShifter = false)
    (hfair : ∀ n, ∃ m, n ≤ m ∧ clkRun c (inp m) = true) {n : Nat}
    (h : ShiftInMem c r (stateAt (step c) s inp n)) :
    ∃ t, LeavesWith c r s inp n t := by
  have hwait : ∀ t k, Waits c r s inp n t k → ¬clkRun c (inp t) = true →
      Waits c r s inp n (t + 1) k := by
    intro t k hw hclk
    have hclk : clkRun c (inp t) = false := by simpa using hclk
    rcases hw.shift.step_held hclk with ⟨hshift, hmem⟩
    have hrun : memRunning c (stateAt (step c) s inp t) (inp t) = false := by
      rw [hw.shift.running hfull, hclk, Bool.false_and]
    refine hw.next hrun hshift ?_
    rw [stateAt_succ, hmem]
  have hstep : ∀ t k, Waits c r s inp n t k → clkRun c (inp t) = true →
      (∃ u, LeavesWith c r s inp n u) ∨ Waits c r s inp n (t + 1) (k + 1) := by
    intro t k hw hclk
    have hrun := hw.shift.running (i := inp t) hfull
    cases hblocked : (stateAt (step c) s inp t).exMem.shiftBlocked with
    | false =>
        left
        rw [hclk, hblocked] at hrun
        exact ⟨t, hw.after, hw.held, hrun, hblocked, hw.shift.leaves hfull hblocked⟩
    | true =>
        right
        rw [hblocked, Bool.not_true, Bool.and_false] at hrun
        rcases hw.shift.step_blocked hfull hclk hblocked with ⟨hshift, hless⟩
        refine hw.next hrun hshift ?_
        rw [stateAt_succ]
        omega
  have hbound : ∀ t k, Waits c r s inp n t k →
      k ≤ (stateAt (step c) s inp n).exMem.shamt.toNat := by
    intro t k hw
    have := hw.count
    omega
  have hstart : Waits c r s inp n n 0 := ⟨le_refl n, fun j hj hlt => by omega, h, rfl⟩
  rcases @exists_of_steps (Waits c r s inp n) (fun _ => ∃ u, LeavesWith c r s inp n u)
    (fun t => clkRun c (inp t) = true) _ hwait hstep hbound hfair n 0 hstart with ⟨t, -, hleaves⟩
  exact hleaves

/-- The core with the full shifter instead. -/
def Config.withFullShifter (c : Config) : Config := { c with fullShifter := true }

theorem exLeave_withFullShifter {i : Input} (hleave : exLeave c s i = true) :
    exLeave c.withFullShifter s i = true := by
  have hblocked : (!c.fullShifter && s.exMem.shiftBlocked) = false := by
    simp only [exLeave, memRunning, Bool.and_eq_true, Bool.not_eq_true'] at hleave
    exact hleave.1.2.2
  have hrun : memRunning c.withFullShifter s i = memRunning c s i := by
    simp [memRunning, Config.withFullShifter, hblocked]
  have hex : exRunning c.withFullShifter s i = exRunning c s i := by
    simp only [exRunning, hrun]
    rfl
  simp only [exLeave, exInsertBubble, hrun, hex] at hleave ⊢
  exact hleave

/-- With the full shifter a shift is done when it leaves the EX stage. -/
theorem fullShifter_value {i : Input} (hleave : exLeave c s i = true)
    (halign : s.exMem.multicycleLhLb = false) :
    memFromShift c.withFullShifter (step c.withFullShifter s i) =
      shiftBy s.idEx.shiftFunct (exEffReg2 c s) (exShamt c s i).toNat := by
  have hleave' := exLeave_withFullShifter hleave
  rcases exMemNext_leave hleave' with ⟨hdata, hshamt, hfn, -, -⟩
  have hrun : memRunning c.withFullShifter s i = true := by
    simp only [exLeave, Bool.and_eq_true] at hleave'
    exact hleave'.1.2
  have halign' : c.withFullShifter.loadAligner = true ∨
      (step c.withFullShifter s i).memWb.multicycleLhLb = false := by
    right
    change (memWbNext c.withFullShifter s i).multicycleLhLb = false
    rw [memWbNext_running hrun, halign, Bool.and_false]
  rw [memFromShift_eq halign']
  change shiftBy (exMemNext c.withFullShifter s i).shiftFunct
    (exMemNext c.withFullShifter s i).memDataOut
    (exMemNext c.withFullShifter s i).shamt.toNat = _
  rw [hfn, hdata, hshamt]
  exact highStages_eq _ _ _

/-- The amount by which an instruction shifts. -/
def shiftAmountOf (c : Config) (d : Decoded) (s : State) : BitVec 5 :=
  if d.shiftVariable then (exEffReg1 c s).extractLsb 4 0 else d.shiftAmount

/-- Without the full shifter a shift instruction leaves the MEM stage, not blocked any more, with
the value that the full shifter gives, which is the shifted operand. -/
theorem iterative_shift {k n : Nat} (hfull : c.fullShifter = false) (hpower : AlignPowerUp s)
    (hreset : OutOfReset c s inp k) (hex : Traverses c s inp k n)
    (hshift : (issued c s inp k).opMajor = .shift)
    (hfair : ∀ n, ∃ m, n ≤ m ∧ clkRun c (inp m) = true) :
    ∃ r : Word,
      r = shiftBy (issued c s inp k).shiftFn (exEffReg2 c (stateAt (step c) s inp n))
        (shiftAmountOf c (issued c s inp k) (stateAt (step c) s inp n)).toNat ∧
      memFromShift c.withFullShifter
        (step c.withFullShifter (stateAt (step c) s inp n) (inp n)) = r ∧
      ∃ t, LeavesWith c r s inp (n + 1) t := by
  rcases hex.inEx hpower hreset with ⟨⟨q, hinstr⟩, hfirst⟩
  have hleave := hex.leaves
  have hmajor : (stateAt (step c) s inp n).idEx.opMajor = .shift := by
    rw [hinstr]
    exact hshift
  have hquiet : (stateAt (step c) s inp n).idEx.memCycle = false := by
    rw [hinstr]
    change (issued c s inp k).memCycle = false
    by_contra hmem
    rw [Bool.not_eq_false] at hmem
    have halu : (issued c s inp k).opMajor = .alu := (idecode_access _ _ _ hmem).opMajor
    rw [hshift] at halu
    cases halu
  have hfn : (stateAt (step c) s inp n).idEx.shiftFunct = (issued c s inp k).shiftFn := by
    rw [hinstr]
    rfl
  have hamount : exShamt c (stateAt (step c) s inp n) (inp n) =
      shiftAmountOf c (issued c s inp k) (stateAt (step c) s inp n) := by
    rw [exShamt, hquiet, shiftAmountOf, hinstr]
    rfl
  rw [← hfn, ← hamount]
  refine ⟨_, rfl, fullShifter_value hleave hfirst, ?_⟩
  exact shift_leaves hfull hfair (shiftInMem_of_leave hfull hleave hmajor hquiet (.inr hfirst))

/-- `sra $2, $3, 13` in the ID stage of a core without the full shifter. -/
def sraConfig : Config :=
  { arch := .mi32
    bigEndian := false
    multEnable := false
    branchLikely := true
    signExtend := true
    fullShifter := false }

def sraState : State :=
  { (default : State) with
    ifId := { (default : IfId) with instruction := 0x00031343#32 }
    mR := fun _ => 0x80000001#32 }

def sraInput : Input := { (default : Input) with imemDataReady := true }

/-- It leaves the MEM stage with the shifted register. -/
theorem iterative_shift_sra :
    ∃ t, LeavesWith sraConfig 0xfffc0000#32 sraState (fun _ => sraInput) 2 t := by
  have hex : Traverses sraConfig sraState (fun _ => sraInput) 0 1 :=
    ⟨by decide, by decide +kernel, fun t h0 h1 => by omega, by decide +kernel⟩
  rcases iterative_shift (k := 0) (n := 1) rfl ⟨rfl, rfl, rfl⟩ ⟨rfl, fun _ _ => rfl⟩ hex
    (by decide +kernel) (fun n => ⟨n, Nat.le_refl n, rfl⟩) with ⟨r, hr, -, hleaves⟩
  have hvalue : r = 0xfffc0000#32 := by
    rw [hr]
    decide +kernel
  rwa [hvalue] at hleaves

end Run

end Core
end F32c
