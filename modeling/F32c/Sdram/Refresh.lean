import F32c.Sdram.Agreement
import F32c.Sdram.Startup

/-!
# Refresh debt

`R_startup_refresh_count` goes up by one with every clock and down by
`C_cycles_per_refresh` with every REFRESH command, so it holds the clocks not
yet paid for by a refresh.  Refreshes are issued in the idle state only, while
requests for the open row may keep the controller away from it.  Bit 12 of the
counter ends this: with it set no transaction follows another one directly, and
the rest of the current one takes `idleWait` clocks at most.
-/

namespace F32c
namespace Sdram

/-- Clocks until the idle state, at most, by state and words left, while a refresh is forced. -/
def idleWaitOf (st : FsmState) (burst : Nat) : Nat :=
  match st with
  | .startup => 0
  | .idle => 0
  | .idleIn1 => 1
  | .idleIn2 => 2
  | .idleIn3 => 3
  | .idleIn4 => 4
  | .idleIn5 => 5
  | .idleIn6 => 6
  | .precharge => 4
  | .read4 | .write3 => 5
  | .read3 | .write2 => 6
  | .write1 => 7
  | .read2 => 7 + 2 * burst
  | .read1 => 8 + 2 * burst
  | .openIn1 => 9 + 2 * burst
  | .openIn2 => 10 + 2 * burst

def idleWait (s : State) : Nat :=
  idleWaitOf s.state s.saveBurstLen.toNat

/-- REFRESH commands put on the pins by the first `n` clocks. -/
def refreshes (c : Config) (s : State) (inp : Nat → Input) : Nat → Nat
  | 0 => 0
  | n + 1 =>
      refreshes c s inp n +
        if (Clocked.stateAt (step c) s inp (n + 1)).iobCommand = .refresh then 1 else 0

/-- The refresh debt next to the clocks the controller may still stay out of the idle state. -/
structure RefreshInv (c : Config) (s : State) : Prop where
  control : Control c s
  pos : 0 < s.startupRefreshCount.toNat
  bounded : s.startupRefreshCount.toNat + idleWait s ≤ 4616

section Refresh

variable {c : Config} {s : State} {i : Input}

theorem idleWait_le (s : State) : idleWait s ≤ 520 := by
  have hn := s.saveBurstLen.isLt
  unfold idleWait
  cases s.state <;> simp only [idleWaitOf] <;> omega

theorem forcingRefresh_iff (hn : s.startupRefreshCount.toNat < 2 ^ 13) :
    forcingRefresh s = true ↔ 2 ^ 12 ≤ s.startupRefreshCount.toNat := by
  unfold forcingRefresh
  rw [BitVec.getLsbD, Nat.testBit_eq_decide_div_mod_eq]
  simp only [decide_eq_true_eq]
  omega

/-- While a refresh is forced, every clock brings the idle state closer. -/
theorem idleWait_step (h : Control c s) (hr : i.reset = false)
    (hf : forcingRefresh s = true) (hidle : s.state ≠ .idle) :
    idleWait (step c s i) + 1 ≤ idleWait s := by
  have h1 := h.running
  have h2 := h.opening
  have h3 : s.state = .read1 ∨ s.state = .read2 → acceptingNew s i = false :=
    not_acceptingNew_of_read h
  have h4 : acceptingNew s i = true → s.readyForNew = true := fun ha =>
    (ready_of_acceptingNew ha).1
  have h5 : s.saveBurstLen ≠ 0#8 → (s.saveBurstLen - 1).toNat + 1 = s.saveBurstLen.toNat :=
    toNat_sub_one
  have hpre := c.pre_range
  have hcas := c.cas_range
  unfold idleWait
  cases hs : s.state <;>
    simp [step, syncReset, fsm, capture, hs, hr, hf, fsmOpenIn1, fsmRead1, fsmRead2,
      fsmRead3, fsmWrite1, fsmWrite2, fsmWrite3, fsmPrecharge, defaults,
      apply_ite State.state, apply_ite State.saveBurstLen] <;>
    grind -ring -linarith -order [idleWaitOf]

/-- In the idle state a refresh has priority over any request. -/
theorem step_refresh (hidle : s.state = .idle) (hr : i.reset = false)
    (href : pendingRefresh s = true ∨ forcingRefresh s = true) :
    (step c s i).state = .idleIn6 ∧ (step c s i).iobCommand = .refresh ∧
      (step c s i).startupRefreshCount =
        s.startupRefreshCount - BitVec.ofNat 14 c.cyclesPerRefresh + 1 := by
  simp [step, syncReset, hr, fsm, hidle, fsmIdle, href]

/-- Any other clock adds one to the debt. -/
theorem step_no_refresh (hrun : s.state ≠ .startup) (hr : i.reset = false)
    (hno : ¬(s.state = .idle ∧ (pendingRefresh s = true ∨ forcingRefresh s = true))) :
    (step c s i).iobCommand ≠ .refresh ∧
      (step c s i).startupRefreshCount = s.startupRefreshCount + 1 := by
  cases hs : s.state <;>
    simp [step, syncReset, fsm, capture, hs, hr, fsmIdle, fsmOpenIn1, fsmRead1, fsmRead2,
      fsmRead3, fsmWrite1, fsmWrite2, fsmWrite3, fsmPrecharge, defaults,
      apply_ite State.iobCommand, apply_ite State.startupRefreshCount] <;>
    grind -ring -linarith -order

/-- A refresh pays for `C_cycles_per_refresh` clocks, its own clock included. -/
theorem refresh_paid (href : pendingRefresh s = true ∨ forcingRefresh s = true)
    (hc : 16 ≤ c.cyclesPerRefresh ∧ c.cyclesPerRefresh ≤ 2048) :
    0 < (s.startupRefreshCount - BitVec.ofNat 14 c.cyclesPerRefresh + 1).toNat ∧
      c.cyclesPerRefresh +
        (s.startupRefreshCount - BitVec.ofNat 14 c.cyclesPerRefresh + 1).toNat =
          s.startupRefreshCount.toNat + 1 := by
  have hge : 2 ^ 11 ≤ s.startupRefreshCount.toNat := by
    rcases href with href | href
    · exact Nat.ge_two_pow_of_testBit href
    · have := Nat.ge_two_pow_of_testBit href
      omega
  have hlt := s.startupRefreshCount.isLt
  rw [BitVec.toNat_add, BitVec.toNat_sub, BitVec.toNat_ofNat]
  simp only [BitVec.toNat_ofNat, BitVec.ofNat_eq_ofNat]
  omega

theorem toNat_count_succ (hn : s.startupRefreshCount.toNat < 2 ^ 13) :
    (s.startupRefreshCount + 1).toNat = s.startupRefreshCount.toNat + 1 := by
  rw [BitVec.toNat_add]
  simp only [BitVec.toNat_ofNat, BitVec.ofNat_eq_ofNat]
  omega

/-- A clock adds one to the debt, and a REFRESH command takes its period off. -/
theorem debt_step (h : RefreshInv c s) (hr : i.reset = false)
    (hc : 16 ≤ c.cyclesPerRefresh ∧ c.cyclesPerRefresh ≤ 2048) :
    c.cyclesPerRefresh * (if (step c s i).iobCommand = .refresh then 1 else 0) +
        (step c s i).startupRefreshCount.toNat = s.startupRefreshCount.toNat + 1 := by
  have hbound := h.bounded
  by_cases href : s.state = .idle ∧ (pendingRefresh s = true ∨ forcingRefresh s = true)
  · obtain ⟨-, hcmd, hcount⟩ := step_refresh (c := c) href.1 hr href.2
    rw [hcmd, hcount, if_pos rfl, Nat.mul_one]
    exact (refresh_paid href.2 hc).2
  · obtain ⟨hcmd, hcount⟩ := step_no_refresh (c := c) h.control.running hr href
    rw [if_neg hcmd, hcount, Nat.mul_zero, Nat.zero_add]
    exact toNat_count_succ (by omega)

/--
The debt stays bounded: below 4096 it may grow with any transaction, and from
there on each clock outside the idle state brings the idle state closer.
-/
theorem refreshInv_step (h : RefreshInv c s) (hr : i.reset = false)
    (hc : 16 ≤ c.cyclesPerRefresh ∧ c.cyclesPerRefresh ≤ 2048) :
    RefreshInv c (step c s i) := by
  have hpos := h.pos
  have hbound := h.bounded
  have hlt : s.startupRefreshCount.toNat < 2 ^ 13 := by omega
  have hwait := idleWait_le (step c s i)
  have hcontrol := control_step h.control hr
  by_cases href : s.state = .idle ∧ (pendingRefresh s = true ∨ forcingRefresh s = true)
  · obtain ⟨hst, -, hcount⟩ := step_refresh (c := c) href.1 hr href.2
    have hpaid := refresh_paid href.2 hc
    have hsix : idleWait (step c s i) = 6 := by rw [idleWait, hst, idleWaitOf]
    refine ⟨hcontrol, ?_, ?_⟩
    · rw [hcount]
      exact hpaid.1
    · rw [hcount, hsix]
      omega
  · obtain ⟨-, hcount⟩ := step_no_refresh (c := c) h.control.running hr href
    have hsucc : (step c s i).startupRefreshCount.toNat = s.startupRefreshCount.toNat + 1 := by
      rw [hcount, toNat_count_succ hlt]
    refine ⟨hcontrol, by omega, ?_⟩
    by_cases hforce : forcingRefresh s = true
    · have hidle : s.state ≠ .idle := fun hs => href ⟨hs, Or.inr hforce⟩
      have hcloser := idleWait_step h.control hr hforce hidle
      omega
    · have hlow : s.startupRefreshCount.toNat < 2 ^ 12 := by
        rw [forcingRefresh_iff hlt] at hforce
        omega
      omega

/-- The counter at the end of start-up: the first refresh is due after one period. -/
theorem toNat_firstRefresh
    (hc : 16 ≤ c.cyclesPerRefresh ∧ c.cyclesPerRefresh ≤ 2048) :
    (BitVec.ofInt 14 (2048 - (c.cyclesPerRefresh : Int) + 1)).toNat =
      2049 - c.cyclesPerRefresh := by
  rw [BitVec.toNat_ofInt]
  omega

theorem refreshInv_of_started (h : Started c s)
    (hn : s.startupRefreshCount = BitVec.ofInt 14 (2048 - (c.cyclesPerRefresh : Int) + 1))
    (hc : 16 ≤ c.cyclesPerRefresh ∧ c.cyclesPerRefresh ≤ 2048) :
    RefreshInv c s := by
  have hcount := toNat_firstRefresh hc
  rw [← hn] at hcount
  have hwait : idleWait s = 0 := by rw [idleWait, h.idle, idleWaitOf]
  exact ⟨control_of_started h, by omega, by omega⟩

/-- The counter when start-up ends, whatever the request registers hold. -/
theorem step_startup_ends (hs : s.state = .startup) (hr : i.reset = false)
    (hend : (step c s i).state ≠ .startup) :
    (step c s i).startupRefreshCount =
      BitVec.ofInt 14 (2048 - (c.cyclesPerRefresh : Int) + 1) := by
  revert hend
  by_cases hz : s.startupRefreshCount = 0#14 <;>
    simp [step, syncReset, fsm, capture, hs, hr, hz, fsmStartup, defaults,
      apply_ite State.state, apply_ite State.startupRefreshCount]

end Refresh

section Run

variable {c : Config} {s : State} {inp : Nat → Input}

/-- From power-up or a reset, start-up ends with the first refresh due after one period. -/
theorem started_refreshCount {y : System} (h : PowerUp c y.ctrl)
    (hr : ∀ n, (inp n).reset = false)
    (hc : 31 ≤ c.startupCycles ∧ c.startupCycles < 2 ^ 14 - 1) :
    (Clocked.stateAt (System.step c) y inp (c.startupCycles + 2)).ctrl.startupRefreshCount =
      BitVec.ofInt 14 (2048 - (c.cyclesPerRefresh : Int) + 1) := by
  have hend := (started_run h hr hc).1.idle
  have hstart := (starting_run h hr hc (c.startupCycles + 1) (Nat.le_refl _)).startup
  exact step_startup_ends hstart (hr _) (ne_of_eq_of_ne hend (by decide))

theorem refreshInv_run (h : RefreshInv c s) (hr : ∀ n, (inp n).reset = false)
    (hc : 16 ≤ c.cyclesPerRefresh ∧ c.cyclesPerRefresh ≤ 2048) (n : Nat) :
    RefreshInv c (Clocked.stateAt (step c) s inp n) :=
  Clocked.stateAt_invariant_of (fun _ i => i.reset = false)
    h (fun _ _ hr h => refreshInv_step h hr hc) hr n

/-- The period times the REFRESH commands, next to the clocks of the run. -/
theorem debt_run (h : RefreshInv c s) (hr : ∀ n, (inp n).reset = false)
    (hc : 16 ≤ c.cyclesPerRefresh ∧ c.cyclesPerRefresh ≤ 2048) (n : Nat) :
    c.cyclesPerRefresh * refreshes c s inp n +
        (Clocked.stateAt (step c) s inp n).startupRefreshCount.toNat =
      n + s.startupRefreshCount.toNat := by
  induction n with
  | zero =>
      simp [refreshes]
  | succ n ih =>
      have hstep := debt_step (refreshInv_run h hr hc n) (hr n) hc
      rw [← Clocked.stateAt_succ (step c) s inp n] at hstep
      rw [refreshes, Nat.mul_add]
      omega

/--
From the end of start-up on, the refresh counter stays above zero and below
2^13, and `C_cycles_per_refresh` times the REFRESH commands issued makes up for
the clocks it does not hold.  So the commands never cease, whatever the ports
ask for.
-/
theorem refresh_debt
    (c : Config) (hc : 16 ≤ c.cyclesPerRefresh ∧ c.cyclesPerRefresh ≤ 2048)
    (s : State) (h : Started c s)
    (hn : s.startupRefreshCount = BitVec.ofInt 14 (2048 - (c.cyclesPerRefresh : Int) + 1))
    (inp : Nat → Input) (hr : ∀ n, (inp n).reset = false) :
    (∀ n,
      0 < (Clocked.stateAt (step c) s inp n).startupRefreshCount.toNat ∧
      (Clocked.stateAt (step c) s inp n).startupRefreshCount.toNat < 2 ^ 13 ∧
      c.cyclesPerRefresh * refreshes c s inp n +
          (Clocked.stateAt (step c) s inp n).startupRefreshCount.toNat =
        n + (2049 - c.cyclesPerRefresh)) ∧
    ∀ k, ∃ n, k ≤ refreshes c s inp n := by
  have hinv := refreshInv_of_started h hn hc
  have hbound := fun n => (refreshInv_run hinv hr hc n).bounded
  have hdebt : ∀ n, c.cyclesPerRefresh * refreshes c s inp n +
      (Clocked.stateAt (step c) s inp n).startupRefreshCount.toNat =
        n + (2049 - c.cyclesPerRefresh) := by
    intro n
    rw [debt_run hinv hr hc n, hn, toNat_firstRefresh hc]
  refine ⟨?_, ?_⟩
  · intro n
    have hn := hbound n
    exact ⟨(refreshInv_run hinv hr hc n).pos, by omega, hdebt n⟩
  · intro k
    -- the counter never holds more than 2^13 of the clocks
    refine ⟨c.cyclesPerRefresh * k + 2 ^ 13, ?_⟩
    have hn := hbound (c.cyclesPerRefresh * k + 2 ^ 13)
    have heq := hdebt (c.cyclesPerRefresh * k + 2 ^ 13)
    exact Nat.le_of_mul_le_mul_left (by omega) (by omega : 0 < c.cyclesPerRefresh)

theorem refresh_debt_writing :
    (∀ n,
      0 < (Clocked.stateAt (step glueSdramMin) (afterStartup glueSdramMin)
        (fun _ => writingPorts) n).startupRefreshCount.toNat ∧
      (Clocked.stateAt (step glueSdramMin) (afterStartup glueSdramMin)
        (fun _ => writingPorts) n).startupRefreshCount.toNat < 2 ^ 13 ∧
      1524 * refreshes glueSdramMin (afterStartup glueSdramMin) (fun _ => writingPorts) n +
          (Clocked.stateAt (step glueSdramMin) (afterStartup glueSdramMin)
            (fun _ => writingPorts) n).startupRefreshCount.toNat =
        n + 525) ∧
    ∀ k, ∃ n,
      k ≤ refreshes glueSdramMin (afterStartup glueSdramMin) (fun _ => writingPorts) n :=
  refresh_debt glueSdramMin (by decide) (afterStartup glueSdramMin)
    (started_afterStartup glueSdramMin) rfl (fun _ => writingPorts) (fun _ => rfl)

end Run

end Sdram
end F32c
