import F32c.Sdram.Control

/-!
# Command protocol at the chip

The chip keeps one open row per bank.  ACTIVE opens a row, PRECHARGE with A10
high closes every bank, and the other commands leave the rows alone.  This
module follows the commands the controller drives through that model of the
chip and proves that each of them is legal: READ and WRITE address the bank and
row of the last ACTIVE, and ACTIVE and REFRESH meet a chip with every bank
precharged.

Row reuse is decided by `R_can_back_to_back`, which compares the row of a new
request with the registers of the previous one.  Those registers describe the
open row only in some states, and `RowInv` says in which.
-/

namespace F32c
namespace Sdram

/-- The rows of the chip. -/
structure Chip where
  /-- the open row of each bank -/
  rows : BitVec 2 → Option (BitVec 13)
  /-- bank and row of the last ACTIVE with no PRECHARGE since -/
  opened : Option (BitVec 2 × BitVec 13)

/-- Every bank is precharged. -/
def Chip.Precharged (ch : Chip) : Prop :=
  (∀ b, ch.rows b = none) ∧ ch.opened = none

/-- The chip samples the pins. -/
def Chip.clock (ch : Chip) (pins : State) : Chip :=
  match pins.iobCommand with
  | .active =>
      { rows := Function.update ch.rows pins.iobBank (some pins.iobAddress)
        opened := some (pins.iobBank, pins.iobAddress) }
  | .precharge =>
      { rows := fun b =>
          if pins.iobAddress.getLsbD 10 || b == pins.iobBank then none else ch.rows b
        opened := none }
  | _ => ch

/--
The command on the pins is legal; `row` is the row of the address being
accessed, which READ and WRITE do not carry.
-/
def Chip.Legal (ch : Chip) (pins : State) (row : BitVec 13) : Prop :=
  match pins.iobCommand with
  | .read | .write =>
      ch.opened = some (pins.iobBank, row) ∧ ch.rows pins.iobBank = some row
  | .active | .refresh => ch.Precharged
  | _ => True

/-- The open row is the one the controller holds for its transaction. -/
def Chip.OpenAt (ch : Chip) (s : State) : Prop :=
  ch.opened = some (s.saveBank, s.saveRow) ∧ ch.rows s.saveBank = some s.saveRow

/-- States in which every bank is precharged. -/
def rowsClosed (st : FsmState) : Bool :=
  st == .idleIn6 || st == .idleIn5 || st == .idleIn4 || st == .idleIn3 || st == .idleIn2 ||
    st == .idleIn1 || st == .idle

/-- The open row is the one of the registers `R_save_row` and `R_save_bank`. -/
def rowHeld (s : State) : Bool :=
  if s.state = .read3 then s.canBackToBack
  else if s.state = .write2 ∨ s.state = .write3 then s.readyForNew || s.canBackToBack
  else s.state == .openIn2 || s.state == .openIn1 || s.state == .read1 || s.state == .read2 ||
    s.state == .write1

/-- Which rows are open in which state. -/
structure RowInv (s : State) (ch : Chip) : Prop where
  closed : rowsClosed s.state = true → ch.Precharged
  held : rowHeld s = true → ch.OpenAt s

/-- The controller and the chip it drives. -/
structure System where
  ctrl : State
  chip : Chip

/-- One clock: the controller advances and the chip samples the new pins. -/
def System.step (c : Config) (y : System) (i : Input) : System :=
  { ctrl := Sdram.step c y.ctrl i
    chip := y.chip.clock (Sdram.step c y.ctrl i) }

section Step

variable {c : Config} {s : State} {i : Input} {ch : Chip}

theorem sameRow_iff (a : BitVec 30) :
    sameRow c s a = true ↔ s.saveBank = addrBank c a ∧ s.saveRow = addrRow c a := by
  simp [sameRow]

/-- From the idle state a row is opened for the request at hand, or a refresh starts. -/
theorem rowInv_step_idle (hs : s.state = .idle) (hch : ch.Precharged) (hr : i.reset = false) :
    RowInv (step c s i) (ch.clock (step c s i)) ∧
      ch.Legal (step c s i) s.saveRow := by
  have hcmd : step c s i = fsmIdle c s i (capture c s i (defaults c s i)) := by
    simp [step, syncReset, hr, fsm, hs]
  rw [hcmd]
  by_cases hp : (pendingRefresh s || forcingRefresh s) = true
  · refine ⟨⟨fun _ => ?_, ?_⟩, ?_⟩
    · simpa [fsmIdle, hp, Chip.clock] using hch
    · simp [rowHeld, fsmIdle, hp]
    · simpa [Chip.Legal, fsmIdle, hp] using hch
  · by_cases hopen : (acceptingNew s i || !s.readyForNew) = true
    · refine ⟨⟨?_, fun _ => ?_⟩, ?_⟩
      · rcases c.ras_range with hras | hras <;> simp [rowsClosed, fsmIdle, hp, hopen, hras]
      · cases hacc : acceptingNew s i with
        | true => simp [fsmIdle, hp, hacc, Chip.clock, Chip.OpenAt, capture, defaults]
        | false =>
            have hready : s.readyForNew = false := by simpa [hacc] using hopen
            simp [fsmIdle, hp, hacc, hready, Chip.clock, Chip.OpenAt, capture, defaults]
      · simpa [Chip.Legal, fsmIdle, hp, hopen] using hch
    · obtain ⟨hacc, hready⟩ : acceptingNew s i = false ∧ s.readyForNew = true := by
        simpa using hopen
      refine ⟨⟨fun _ => ?_, ?_⟩, ?_⟩
      · simpa [fsmIdle, hp, hacc, hready, Chip.clock, capture, defaults] using hch
      · simp [rowHeld, fsmIdle, hp, hacc, hready, capture, defaults, hs]
      · simp [Chip.Legal, fsmIdle, hp, hacc, hready, capture, defaults]

/-- PRECHARGE is driven with A10 high and closes every bank. -/
theorem rowInv_step_precharge (hs : s.state = .precharge) (hr : i.reset = false) :
    RowInv (step c s i) (ch.clock (step c s i)) ∧
      ch.Legal (step c s i) s.saveRow := by
  have hcmd : step c s i = fsmPrecharge c (capture c s i (defaults c s i)) := by
    simp [step, syncReset, hr, fsm, hs]
  have hA10 : ∀ a : BitVec 13, (setA10 a true).getLsbD 10 = true := by
    intro a
    simp [setA10]
  rw [hcmd]
  refine ⟨⟨fun _ => ?_, ?_⟩, ?_⟩
  · simp [fsmPrecharge, Chip.clock, hA10, Chip.Precharged]
  · rcases c.pre_range with hpre | hpre <;> simp [rowHeld, fsmPrecharge, hpre]
  · simp [Chip.Legal, fsmPrecharge]

/-- Outside of start-up, idle and precharge the only commands are READ and WRITE. -/
theorem step_iobCommand (h1 : s.state ≠ .startup) (h2 : s.state ≠ .idle)
    (h3 : s.state ≠ .precharge) :
    (step c s i).iobCommand =
        (if s.state = .read1 then .read else if s.state = .write1 then .write else .nop) ∧
      (s.state = .read1 ∨ s.state = .write1 → (step c s i).iobBank = s.saveBank) := by
  cases hs : s.state <;>
    simp [step, syncReset, fsm, capture, hs, fsmOpenIn1, fsmRead1, fsmRead2, fsmRead3,
      fsmWrite1, fsmWrite2, fsmWrite3, defaults, apply_ite State.iobCommand,
      apply_ite State.iobBank] <;> contradiction

/-- From the other states no state with closed rows is entered. -/
theorem rowsClosed_step (h1 : s.state ≠ .startup) (h3 : s.state ≠ .precharge)
    (hr : i.reset = false)
    (hc : rowsClosed (step c s i).state = true) : rowsClosed s.state = true := by
  revert hc
  cases hs : s.state <;>
    simp [rowsClosed, step, syncReset, fsm, capture, hs, hr, fsmOpenIn1, fsmRead1, fsmRead2,
      fsmRead3, fsmWrite1, fsmWrite2, fsmWrite3, defaults, apply_ite State.state] <;>
    grind -ring -linarith -order

/--
A row held after a clock was held before it, and the registers still name it:
they change only when a request is captured, and then `R_can_back_to_back`
records whether they name the open row.
-/
theorem rowHeld_step (h : Control c s) (h2 : s.state ≠ .idle) (hr : i.reset = false)
    (hheld : rowHeld (step c s i) = true) :
    rowHeld s = true ∧ (step c s i).saveBank = s.saveBank ∧
      (step c s i).saveRow = s.saveRow := by
  have h1 := h.running
  have hopen := h.opening
  have hread := h.reading
  have hcross := h.crossing
  have hwrite := h.writing
  have hready : acceptingNew s i = true → s.readyForNew = true := fun ha =>
    (ready_of_acceptingNew ha).1
  have hnone : s.state = .read1 ∨ s.state = .read2 → acceptingNew s i = false :=
    not_acceptingNew_of_read h
  have hsame := sameRow_iff (c := c) (s := s) (curReq s i).addr
  have hpre := c.pre_range
  revert hheld
  cases hs : s.state <;>
    simp [rowHeld, step, syncReset, fsm, capture, hs, hr, fsmOpenIn1, fsmRead1, fsmRead2,
      fsmRead3, fsmWrite1, fsmWrite2, fsmWrite3, fsmPrecharge, defaults,
      apply_ite State.readyForNew, apply_ite State.state, apply_ite State.saveRow,
      apply_ite State.saveBank, apply_ite State.canBackToBack] <;> grind -ring -linarith -order

theorem rowInv_step (h : Control c s) (hrow : RowInv s ch) (hr : i.reset = false) :
    RowInv (step c s i) (ch.clock (step c s i)) ∧
      ch.Legal (step c s i) s.saveRow := by
  by_cases hidle : s.state = .idle
  · exact rowInv_step_idle hidle (hrow.closed (by simp [rowsClosed, hidle])) hr
  by_cases hpre : s.state = .precharge
  · exact rowInv_step_precharge hpre hr
  obtain ⟨hcmd, hbank⟩ := step_iobCommand (c := c) (i := i) h.running hidle hpre
  have hclock : ch.clock (step c s i) = ch := by
    unfold Chip.clock
    rw [hcmd]
    grind -ring -linarith -order
  rw [hclock]
  refine ⟨⟨fun hc => hrow.closed (rowsClosed_step h.running hpre hr hc), ?_⟩, ?_⟩
  · intro hheld
    obtain ⟨hheld', hb, hro⟩ := rowHeld_step h hidle hr hheld
    simpa [Chip.OpenAt, hb, hro] using hrow.held hheld'
  · unfold Chip.Legal
    rw [hcmd]
    by_cases h1 : s.state = .read1
    · have hopen : ch.OpenAt s := hrow.held (by simp [rowHeld, h1])
      simpa [h1, hbank, Chip.OpenAt] using hopen
    · by_cases h2 : s.state = .write1
      · have hopen : ch.OpenAt s := hrow.held (by simp [rowHeld, h2])
        simpa [h2, hbank, Chip.OpenAt] using hopen
      · simp [h1, h2]

end Step

/-- The invariant of the controller together with its chip. -/
def System.Inv (c : Config) (y : System) : Prop :=
  Control c y.ctrl ∧ RowInv y.ctrl y.chip

theorem System.inv_step {c : Config} {y : System} {i : Input}
    (h : y.Inv c) (hr : i.reset = false) : (y.step c i).Inv c :=
  ⟨control_step h.1 hr, (rowInv_step h.1 h.2 hr).1⟩

theorem System.inv_of_started {c : Config} {y : System}
    (hs : Started c y.ctrl) (hch : y.chip.Precharged) : y.Inv c :=
  ⟨control_of_started hs, ⟨fun _ => hch, by simp [rowHeld, hs.idle]⟩⟩

theorem System.inv_run {c : Config} {y : System} {inp : Nat → Input}
    (hs : Started c y.ctrl) (hch : y.chip.Precharged) (hr : ∀ n, (inp n).reset = false)
    (n : Nat) : (Clocked.stateAt (System.step c) y inp n).Inv c :=
  Clocked.stateAt_invariant_of (fun _ i => i.reset = false)
    (System.inv_of_started hs hch) (fun _ _ hr h => System.inv_step h hr) hr n

/--
Every command driven after start-up is legal, for every sequence of requests on
any number of ports and every phase of the refresh counter: READ and WRITE go
to the bank and row of the last ACTIVE, with no PRECHARGE since, and ACTIVE and
REFRESH find every bank precharged.
-/
theorem commands_legal
    (c : Config) (y : System) (inp : Nat → Input)
    (hs : Started c y.ctrl) (hch : y.chip.Precharged)
    (hr : ∀ n, (inp n).reset = false) (n : Nat) :
    (Clocked.stateAt (System.step c) y inp n).chip.Legal
      (Clocked.stateAt (System.step c) y inp (n + 1)).ctrl
      (Clocked.stateAt (System.step c) y inp n).ctrl.saveRow :=
  (rowInv_step (System.inv_run hs hch hr n).1 (System.inv_run hs hch hr n).2 (hr n)).2

/-- A chip with every row closed. -/
def closedChip : Chip where
  rows := fun _ => none
  opened := none

theorem commands_legal_writing :
    (Clocked.stateAt (System.step glueSdramMin) ⟨afterStartup glueSdramMin, closedChip⟩
        (fun _ => writingPorts) 3).chip.Legal
      (Clocked.stateAt (System.step glueSdramMin) ⟨afterStartup glueSdramMin, closedChip⟩
        (fun _ => writingPorts) 4).ctrl
      (Clocked.stateAt (System.step glueSdramMin) ⟨afterStartup glueSdramMin, closedChip⟩
        (fun _ => writingPorts) 3).ctrl.saveRow :=
  commands_legal glueSdramMin ⟨afterStartup glueSdramMin, closedChip⟩ (fun _ => writingPorts)
    (started_afterStartup glueSdramMin) ⟨fun _ => rfl, rfl⟩ (fun _ => rfl) 3

end Sdram
end F32c
