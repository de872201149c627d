import F32c.Sdram.Protocol

/-!
# Start-up

The start-up counter runs from `C_startup_cycles` below its largest value up to
zero.  On the way the controller closes every row of the chip, and no request is
accepted, so the response registers drain.  The controller then enters the state
that the results on commands and answers start from.
-/

namespace F32c
namespace Sdram

/-- The registers at power-up or after a reset, whatever the others hold. -/
structure PowerUp (c : Config) (s : State) : Prop where
  startup : s.state = .startup
  readyForNew : s.readyForNew = false
  count : s.startupRefreshCount = startupCount c
  readyLen : s.dataReadyDelay.length = c.delayHigh + 1
  lastLen : s.dataLastDelay.length = c.delayHigh + 1
  curPort : s.curPort < c.ports
  nextPort : s.nextPort < c.ports

/-- A response register from which `k` clocks have shifted everything out. -/
def Drained (c : Config) (k : Nat) (d : List Bool) : Prop :=
  ∃ rest, d = rest ++ List.replicate (min k (c.delayHigh + 1)) false ∧
    d.length = c.delayHigh + 1

/-- The system `k` clocks into start-up. -/
structure Starting (c : Config) (k : Nat) (y : System) : Prop where
  startup : y.ctrl.state = .startup
  readyForNew : y.ctrl.readyForNew = false
  count : y.ctrl.startupRefreshCount = startupCount c + BitVec.ofNat 14 k
  readyDelay : Drained c k y.ctrl.dataReadyDelay
  lastDelay : Drained c k y.ctrl.dataLastDelay
  curPort : y.ctrl.curPort < c.ports
  nextPort : y.ctrl.nextPort < c.ports
  closed : c.startupCycles < k + 31 → y.chip.Precharged

section Startup

variable {c : Config} {y : System} {i : Input} {k : Nat}

theorem drained_shiftDown {d : List Bool} (h : Drained c k d) :
    Drained c (k + 1) (shiftDown d false) := by
  obtain ⟨rest, hd, hlen⟩ := h
  have hlen' : (shiftDown d false).length = c.delayHigh + 1 := length_shiftDown hlen false
  by_cases hk : k < c.delayHigh + 1
  · refine ⟨rest.tail, ?_, hlen'⟩
    have hne : rest ≠ [] := by
      rintro rfl
      rw [hd] at hlen
      simp at hlen
      omega
    rw [hd, shiftDown, List.tail_append_of_ne_nil hne, List.append_assoc,
      ← List.replicate_succ', Nat.min_eq_left (by omega), Nat.min_eq_left (by omega)]
  · have hmin : min k (c.delayHigh + 1) = c.delayHigh + 1 := by omega
    have hrest : rest = [] := by
      rw [hd, hmin] at hlen
      simpa using hlen
    refine ⟨[], ?_, hlen'⟩
    rw [hd, hrest, hmin, Nat.min_eq_right (by omega), List.nil_append, shiftDown,
      List.tail_replicate, ← List.replicate_succ']
    rfl

theorem eq_replicate_of_drained {d : List Bool} (h : Drained c k d) (hk : c.delayHigh < k) :
    d = List.replicate (c.delayHigh + 1) false := by
  obtain ⟨rest, hd, hlen⟩ := h
  rw [Nat.min_eq_right (by omega)] at hd
  rw [hd] at hlen
  have hrest : rest = [] := by simpa using hlen
  simpa [hrest] using hd

theorem starting_of_powerUp (h : PowerUp c y.ctrl) (hc : 31 ≤ c.startupCycles) :
    Starting c 0 y where
  startup := h.startup
  readyForNew := h.readyForNew
  count := by simp [h.count]
  readyDelay := ⟨y.ctrl.dataReadyDelay, by simp, h.readyLen⟩
  lastDelay := ⟨y.ctrl.dataLastDelay, by simp, h.lastLen⟩
  curPort := h.curPort
  nextPort := h.nextPort
  closed := by omega

/-- The value of the start-up counter after `k` clocks. -/
theorem toNat_startupCount (hc : c.startupCycles < 2 ^ 14 - 1) (hk : k ≤ c.startupCycles) :
    (startupCount c + BitVec.ofNat 14 k).toNat = 2 ^ 14 - 1 - c.startupCycles + k := by
  simp only [startupCount, BitVec.toNat_add, BitVec.toNat_sub, BitVec.toNat_allOnes,
    BitVec.toNat_ofNat]
  omega

/-- No request is accepted during start-up. -/
theorem step_startup (hs : y.ctrl.state = .startup) (hready : y.ctrl.readyForNew = false)
    (hr : i.reset = false) :
    step c y.ctrl i = fsmStartup c y.ctrl (defaults c y.ctrl i) := by
  have ha : acceptingNew y.ctrl i = false := by simp [acceptingNew, hready]
  simp [step, syncReset, hr, fsm, hs, capture, ha]

/-- PRECHARGE closes every row, and the other commands of start-up open none. -/
theorem starting_closed (h : Starting c k y) (hr : i.reset = false)
    (hc : c.startupCycles < 2 ^ 14 - 1) (hk : k ≤ c.startupCycles) :
    c.startupCycles < k + 1 + 31 → (y.step c i).chip.Precharged := by
  have hcount := toNat_startupCount hc hk
  rw [← h.count] at hcount
  have hclosed := h.closed
  simp only [System.step, step_startup h.startup h.readyForNew hr]
  intro hlt
  by_cases hpre : y.ctrl.startupRefreshCount = BitVec.allOnes 14 - 31
  · simp [fsmStartup, hpre, Chip.clock, Chip.Precharged, setA10]
  · have hle : c.startupCycles < k + 31 := by
      by_contra hge
      apply hpre
      apply BitVec.eq_of_toNat_eq
      rw [hcount]
      simp
      omega
    have hch := hclosed hle
    simp [fsmStartup, Chip.clock, apply_ite State.iobCommand, defaults]
    grind -ring -linarith -order

/-- A clock of start-up, before the counter reaches zero. -/
theorem starting_step (h : Starting c k y) (hr : i.reset = false)
    (hc : c.startupCycles < 2 ^ 14 - 1) (hk : k ≤ c.startupCycles) :
    Starting c (k + 1) (y.step c i) := by
  have hcount := toNat_startupCount hc hk
  rw [← h.count] at hcount
  have hne : y.ctrl.startupRefreshCount ≠ 0#14 := by
    intro hz
    rw [hz] at hcount
    simp only [BitVec.toNat_ofNat] at hcount
    omega
  have hclosed := starting_closed h hr hc hk
  have hstep := step_startup (c := c) h.startup h.readyForNew hr
  refine ⟨?_, ?_, ?_, ?_, ?_, ?_, ?_, hclosed⟩ <;>
    simp only [System.step, hstep, fsmStartup, defaults, BitVec.ofNat_eq_ofNat, if_neg hne,
      apply_ite State.state, apply_ite State.readyForNew, apply_ite State.startupRefreshCount,
      apply_ite State.dataReadyDelay, apply_ite State.dataLastDelay, apply_ite State.curPort,
      apply_ite State.nextPort, ite_self]
  · exact h.startup
  · exact h.readyForNew
  · rw [h.count, BitVec.ofNat_add, BitVec.add_assoc]
  · exact drained_shiftDown h.readyDelay
  · exact drained_shiftDown h.lastDelay
  · exact h.curPort
  · exact arbiter_lt h.curPort

/-- The clock that leaves start-up. -/
theorem started_step (h : Starting c (c.startupCycles + 1) y) (hr : i.reset = false)
    (hc : c.delayHigh ≤ c.startupCycles) :
    Started c (y.step c i).ctrl ∧ (y.step c i).chip.Precharged := by
  have hzero : y.ctrl.startupRefreshCount = 0#14 := by
    rw [h.count, startupCount]
    apply BitVec.eq_of_toNat_eq
    simp only [BitVec.toNat_add, BitVec.toNat_sub, BitVec.toNat_allOnes, BitVec.toNat_ofNat]
    omega
  have hready := eq_replicate_of_drained h.readyDelay (by omega)
  have hlast := eq_replicate_of_drained h.lastDelay (by omega)
  have hstep := step_startup (c := c) h.startup h.readyForNew hr
  have hchip := h.closed (by omega)
  have hshift : shiftDown (List.replicate (c.delayHigh + 1) false) false =
      List.replicate (c.delayHigh + 1) false := by
    rw [shiftDown, List.tail_replicate, Nat.add_sub_cancel, ← List.replicate_succ']
  refine ⟨⟨?_, ?_, ?_, ?_, ?_, ?_, ?_, ?_, ?_, ?_⟩, ?_⟩ <;>
    simp [System.step, hstep, fsmStartup, defaults, hzero, hready, hlast, hshift, Chip.clock,
      List.head?_replicate]
  · exact h.curPort
  · exact arbiter_lt h.curPort
  · exact hchip

theorem starting_run {inp : Nat → Input} (h : PowerUp c y.ctrl)
    (hr : ∀ n, (inp n).reset = false)
    (hc : 31 ≤ c.startupCycles ∧ c.startupCycles < 2 ^ 14 - 1)
    (k : Nat) (hk : k ≤ c.startupCycles + 1) :
    Starting c k (Clocked.stateAt (System.step c) y inp k) := by
  induction k with
  | zero =>
      exact starting_of_powerUp h hc.1
  | succ k ih =>
      exact starting_step (ih (by omega)) (hr k) hc.2 (by omega)

/--
From power-up or a reset, `C_startup_cycles` and two clocks later the controller
is ready for requests and every row of the chip is closed.
-/
theorem started_run {inp : Nat → Input} (h : PowerUp c y.ctrl)
    (hr : ∀ n, (inp n).reset = false)
    (hc : 31 ≤ c.startupCycles ∧ c.startupCycles < 2 ^ 14 - 1) :
    Started c (Clocked.stateAt (System.step c) y inp (c.startupCycles + 2)).ctrl ∧
      (Clocked.stateAt (System.step c) y inp (c.startupCycles + 2)).chip.Precharged := by
  have hdelay : c.delayHigh ≤ c.startupCycles := by
    have h1 := c.cas_range
    have h2 := c.clockRange_range
    unfold Config.delayHigh
    omega
  exact started_step (starting_run h hr hc _ (Nat.le_refl _)) (hr _) hdelay

end Startup

end Sdram
end F32c
