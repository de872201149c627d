import F32c.Sdram.Response

/-!
# Request and response agreement

The logs of the observer against the requests accepted: the accesses performed
are a prefix of those asked for, in the order of acceptance, and so are the
pulses.  Each missing access is on the pins or pending, each missing pulse is on
the response ports, in flight or owed.  No access waits for ever: `rank` counts
down to the clock that issues the next command, through the refreshes that may
come first.
-/

namespace F32c
namespace Sdram

/-- The registers behind the pins and the response ports. -/
structure Ports (c : Config) (s : State) : Prop where
  curPort : s.curPort < c.ports
  nextPort : s.nextPort < c.ports
  driving : s.state = .write1 ∨ s.state = .write2 ∨ s.state = .write3 → s.iobDqHiz = false
  writing : s.iobCommand = .write → s.state = .write2

section Ports

variable {c : Config} {s : State} {i : Input}

theorem step_curPort :
    (step c s i).curPort = if acceptingNew s i then s.nextPort else s.curPort := by
  cases hs : s.state <;>
    simp [step, syncReset, fsm, capture, hs, fsmStartup, fsmIdle, fsmOpenIn1, fsmRead1, fsmRead2,
      fsmRead3, fsmWrite1, fsmWrite2, fsmWrite3, fsmPrecharge, defaults,
      apply_ite State.curPort]

theorem step_nextPort : (step c s i).nextPort = arbiter c s i := by
  cases hs : s.state <;>
    simp [step, syncReset, fsm, capture, hs, fsmStartup, fsmIdle, fsmOpenIn1, fsmRead1, fsmRead2,
      fsmRead3, fsmWrite1, fsmWrite2, fsmWrite3, fsmPrecharge, defaults,
      apply_ite State.nextPort]

theorem step_driving (h : Control c s) (hp : Ports c s) :
    (step c s i).state = .write1 ∨ (step c s i).state = .write2 ∨ (step c s i).state = .write3 →
      (step c s i).iobDqHiz = false := by
  have h1 := h.running
  have h2 := hp.driving
  cases hs : s.state <;>
    simp [step, syncReset, fsm, capture, hs, fsmIdle, fsmOpenIn1, fsmRead1, fsmRead2,
      fsmRead3, fsmWrite1, fsmWrite2, fsmWrite3, fsmPrecharge, defaults,
      apply_ite State.state, apply_ite State.iobDqHiz] <;> grind -ring -linarith -order

theorem step_write_command (h : Control c s) (hr : i.reset = false) :
    (step c s i).iobCommand = .write → (step c s i).state = .write2 := by
  have h1 := h.running
  cases hs : s.state <;>
    simp [step, syncReset, fsm, capture, hs, hr, fsmIdle, fsmOpenIn1, fsmRead1, fsmRead2,
      fsmRead3, fsmWrite1, fsmWrite2, fsmWrite3, fsmPrecharge, defaults,
      apply_ite State.state, apply_ite State.iobCommand] <;> grind -ring -linarith -order

theorem ports_step (h : Control c s) (hp : Ports c s) (hr : i.reset = false) :
    Ports c (step c s i) where
  curPort := by
    rw [step_curPort]
    split
    · exact hp.nextPort
    · exact hp.curPort
  nextPort := by
    rw [step_nextPort]
    exact arbiter_lt hp.curPort
  driving := step_driving h hp
  writing := step_write_command h hr

theorem ports_of_started (h : Started c s) : Ports c s where
  curPort := h.curPort
  nextPort := h.nextPort
  driving := by simp [h.idle]
  writing := by simp [h.command]

end Ports

/-- The access on the pins, with the second beat as the registers hold it. -/
def onPins (ch : Chip) (s : State) : List Access :=
  let row := (ch.rows s.iobBank).getD 0
  match s.iobCommand with
  | .read => [.read ⟨row, s.iobBank, s.iobAddress⟩]
  | .write =>
      [.write ⟨row, s.iobBank, s.iobAddress⟩ (beat s)
        (some (s.iobDataNext, ~~~(s.dqmSr.extractLsb' 0 2)))]
  | _ => []

section Pins

variable {c : Config} {s : State} {i : Input} {ch : Chip}

/-- The second beat of a WRITE follows one clock after the command. -/
theorem beat_step_write2 (hs : s.state = .write2) (hz : s.iobDqHiz = false) :
    beat (step c s i) = some (s.iobDataNext, ~~~(s.dqmSr.extractLsb' 0 2)) := by
  simp [beat, step, syncReset, fsm, hs, fsmWrite2, capture, defaults, hz,
    apply_ite State.iobDqHiz, apply_ite State.iobData, apply_ite State.iobDqm]

theorem accessOn_eq (ch : Chip) (hp : Ports c s) :
    accessOn ch s (step c s i) = onPins ch s := by
  have hw : s.iobCommand = .write →
      beat (step c s i) = some (s.iobDataNext, ~~~(s.dqmSr.extractLsb' 0 2)) := fun h =>
    beat_step_write2 (hp.writing h) (hp.driving (Or.inr (Or.inl (hp.writing h))))
  unfold accessOn onPins
  cases hc : s.iobCommand <;> simp [hc] at hw ⊢
  exact hw

theorem setA10_of_lt {a : BitVec 13} (h : a.toNat < 2 ^ 10) : setA10 a false = a := by
  have h1 := clear_carry (x := a) (n := 10) (by omega) (by omega)
  apply BitVec.eq_of_toNat_eq
  simp only [setA10, Bool.false_eq_true, if_false]
  rw [h1, Nat.mod_eq_of_lt h]

/-- The command scheduled by a clock is on the pins after it. -/
theorem onPins_step (h : Control c s) (hp : Ports c s) (hrow : RowInv s ch)
    (hr : i.reset = false)
    (hcol : s.state = .read1 ∨ s.state = .write1 → s.saveCol.toNat < 2 ^ 10) :
    onPins (ch.clock (step c s i)) (step c s i) = issued s := by
  have h1 := h.running
  have h2 := hp.driving
  have h3 : s.state = .read1 ∨ s.state = .write1 → setA10 s.saveCol false = s.saveCol :=
    fun hs => setA10_of_lt (hcol hs)
  have h4 : s.state = .read1 ∨ s.state = .write1 → ch.rows s.saveBank = some s.saveRow := by
    rintro (hs | hs)
    · exact (hrow.held (by simp [rowHeld, hs])).2
    · exact (hrow.held (by simp [rowHeld, hs])).2
  cases hs : s.state <;>
    simp [onPins, issued, saveLoc, saveWrite, beat, Chip.clock, step, syncReset, fsm, capture, hs,
      hr, fsmIdle, fsmOpenIn1, fsmRead1, fsmRead2,
      fsmRead3, fsmWrite1, fsmWrite2, fsmWrite3, fsmPrecharge, defaults,
      apply_ite State.iobCommand, apply_ite State.iobAddress, apply_ite State.iobBank,
      apply_ite State.iobData, apply_ite State.iobDqm, apply_ite State.iobDqHiz,
      apply_ite State.iobDataNext, apply_ite State.dqmSr] <;> grind -ring -linarith -order

end Pins

section Pulses

variable {c : Config} {s : State} {i : Input}

theorem filter_range_eq {n p : Nat} (h : p < n) :
    (List.range n).filter (fun q => q == p) = [p] := by
  rw [List.filter_beq, List.count_eq_one_of_mem List.nodup_range (List.mem_range.mpr h)]
  rfl

/-- Answers still to be given for the request held by the controller. -/
def owed (s : State) : List (Nat × Bool) :=
  (inflight s ++ lastFlags (pendingReads s)).map (fun l => (s.curPort, l))

theorem step_readyOut (p : Nat) :
    (step c s i).readyOut p =
      ((acceptingNew s i && (curReq s i).write && p == s.nextPort) ||
        (p == s.curPort && s.dataReadyDelay.headD false)) := by
  have hfsm : (step c s i).readyOut = (capture c s i (defaults c s i)).readyOut := by
    cases hs : s.state <;>
      simp [step, syncReset, fsm, hs, fsmStartup, fsmIdle, fsmOpenIn1, fsmRead1, fsmRead2,
        fsmRead3, fsmWrite1, fsmWrite2, fsmWrite3, fsmPrecharge, apply_ite State.readyOut]
  rw [hfsm]
  by_cases hp : p = s.nextPort <;> cases ha : acceptingNew s i <;>
    cases hw : (curReq s i).write <;> simp [capture, defaults, ha, hw, hp]

theorem step_lastOut (p : Nat) :
    (step c s i).lastOut p =
      ((acceptingNew s i && (curReq s i).write && p == s.nextPort) ||
        (p == s.curPort && s.dataLastDelay.headD false)) := by
  have hfsm : (step c s i).lastOut = (capture c s i (defaults c s i)).lastOut := by
    cases hs : s.state <;>
      simp [step, syncReset, fsm, hs, fsmStartup, fsmIdle, fsmOpenIn1, fsmRead1, fsmRead2,
        fsmRead3, fsmWrite1, fsmWrite2, fsmWrite3, fsmPrecharge, apply_ite State.lastOut]
  rw [hfsm]
  by_cases hp : p = s.nextPort <;> cases ha : acceptingNew s i <;>
    cases hw : (curReq s i).write <;> simp [capture, defaults, ha, hw, hp]

/-- Without a new request the ports show the answer that leaves the shift registers. -/
theorem pulsesOn_step_none (hp : Ports c s) (ha : acceptingNew s i = false) :
    pulsesOn c (step c s i) = (leaving s).map (fun l => (s.curPort, l)) := by
  unfold pulsesOn
  have hready : (step c s i).readyOut =
      fun p => p == s.curPort && s.dataReadyDelay.headD false := by
    funext p
    rw [step_readyOut, ha]
    simp
  cases hd : s.dataReadyDelay.headD false with
  | false => simp only [hready, hd, leaving, Bool.and_false, List.filter_false, List.map_nil,
      Bool.false_eq_true, if_false]
  | true =>
      simp only [hready, hd, Bool.and_true, filter_range_eq hp.curPort, leaving, if_true,
        List.map_cons, List.map_nil, step_lastOut, ha, Bool.false_and, Bool.false_or,
        beq_self_eq_true, Bool.true_and]

theorem head_of_inflight_nil (h : Control c s) (hi : inflight s = []) :
    s.dataReadyDelay.headD false = false ∧ leaving s = [] := by
  have h1 := h.readyLen
  have h2 := h.lastLen
  cases hr : s.dataReadyDelay with
  | nil => simp [leaving, hr]
  | cons r ready =>
      cases hl : s.dataLastDelay with
      | nil => simp [hl] at h2
      | cons l last =>
          rw [inflight, hr, hl, flags_cons] at hi
          cases r with
          | false => simp [leaving, hr]
          | true => simp at hi

/-- A request is accepted with no answer owed, and then owes its own answers. -/
theorem pulses_step_accept (h : Control c s) (hp : Ports c s) (hr : i.reset = false)
    (ha : acceptingNew s i = true) :
    owed s = [] ∧
      pulsesOn c (step c s i) ++ owed (step c s i) =
        expectedPulses s.nextPort (curReq s i) := by
  have hdone := (ready_of_acceptingNew ha).2.1
  have ho := h.outstanding
  simp only [hdone, if_true] at ho
  have hissue : issuingRead s = false := by
    by_contra hi
    simp [issuingRead] at hi
    simp [pendingReads, hi] at ho
  obtain ⟨hhead, hleave⟩ := head_of_inflight_nil h ho.1
  have hin := leaving_append_inflight_step (i := i) h
  have hpend := pendingReads_step h hr
  simp only [hissue, hleave, ho.1, Bool.false_eq_true, if_false, List.nil_append] at hin
  simp only [hissue, ho.2, Bool.false_eq_true, if_false, Nat.zero_add] at hpend
  refine ⟨by simp [owed, ho.1, ho.2, lastFlags], ?_⟩
  have hready : (step c s i).readyOut = fun p => (curReq s i).write && p == s.nextPort := by
    funext p
    rw [step_readyOut, ha, hhead]
    simp
  unfold pulsesOn owed expectedPulses
  rw [hin, ← hpend, hready, step_curPort, ha]
  cases hw : (curReq s i).write with
  | true =>
      simp [filter_range_eq hp.nextPort, step_lastOut, ha, hw, acceptingRead, lastFlags]
  | false =>
      simp [acceptingRead, ha, hw]

end Pulses

/-- The logs of the observer, with what is still to come, spell the accepted requests. -/
structure Observed.Inv (c : Config) (o : Observed) : Prop where
  control : Control c o.sys.ctrl
  rows : RowInv o.sys.ctrl o.sys.chip
  ports : Ports c o.sys.ctrl
  accesses : o.accesses ++ (onPins o.sys.chip o.sys.ctrl ++ pending c o.sys.ctrl) =
    o.accepted.flatMap (fun a => expectedAccesses c a.2)
  pulses : o.pulses ++ (pulsesOn c o.sys.ctrl ++ owed o.sys.ctrl) =
    o.accepted.flatMap (fun a => expectedPulses a.1 a.2)

section Observed

variable {c : Config} {o : Observed} {i : Input}

theorem access_col_lt {r : Req} {a : Access} (hc : c.columnBits ≤ 10)
    (ha : a ∈ expectedAccesses c r) {l : Loc}
    (hl : a = .read l ∨ ∃ d e, a = .write l d e) : l.col.toNat < 2 ^ 10 := by
  have hlt : ∀ w, (location c w).col.toNat < 2 ^ 10 := by
    intro w
    have h1 := Nat.mod_lt w (rowWords_pos c)
    have h2 := two_rowWords c
    have h3 : 2 ^ c.columnBits ≤ 2 ^ 10 := Nat.pow_le_pow_right (by omega) hc
    rw [toNat_col]
    omega
  unfold expectedAccesses at ha
  split at ha
  · simp at ha
    subst ha
    obtain hl | ⟨d, e, hl⟩ := hl
    · cases hl
    · injection hl with hl
      rw [← hl]
      exact hlt _
  · simp at ha
    obtain ⟨k, -, rfl⟩ := ha
    obtain hl | ⟨d, e, hl⟩ := hl
    · injection hl with hl
      rw [← hl]
      exact hlt _
    · cases hl

/-- The column of a command to be issued is that of an accepted request. -/
theorem Observed.Inv.col_lt (h : o.Inv c) (hc : c.columnBits ≤ 10)
    (hs : o.sys.ctrl.state = .read1 ∨ o.sys.ctrl.state = .write1) :
    o.sys.ctrl.saveCol.toNat < 2 ^ 10 := by
  have hmem : ∀ a ∈ pending c o.sys.ctrl, ∃ r, a ∈ expectedAccesses c r := by
    intro a ha
    have : a ∈ o.accepted.flatMap (fun a => expectedAccesses c a.2) := by
      rw [← h.accesses]
      simp [ha]
    obtain ⟨p, -, hp⟩ := List.mem_flatMap.mp this
    exact ⟨p.2, hp⟩
  rcases hs with hs | hs
  · obtain ⟨r, hr⟩ := hmem (.read (saveLoc o.sys.ctrl)) (by simp [pending, hs, readsFrom])
    exact access_col_lt hc hr (l := saveLoc o.sys.ctrl) (Or.inl rfl)
  · obtain ⟨r, hr⟩ := hmem (saveWrite o.sys.ctrl) (by simp [pending, hs])
    exact access_col_lt hc hr (l := saveLoc o.sys.ctrl) (Or.inr ⟨_, _, rfl⟩)

theorem Observed.step_accesses (h : o.Inv c) (hc : c.columnBits ≤ 10) (hr : i.reset = false) :
    (o.step c i).accesses ++
        (onPins (o.step c i).sys.chip (o.step c i).sys.ctrl ++ pending c (o.step c i).sys.ctrl) =
      (o.step c i).accepted.flatMap (fun a => expectedAccesses c a.2) := by
  have h1 := onPins_step h.control h.ports h.rows hr (h.col_lt hc)
  have h2 := pending_step h.control hr
  have h3 := accessOn_eq (i := i) o.sys.chip h.ports
  simp only [Observed.step, System.step]
  rw [h1, h3, List.flatMap_append, ← h.accesses, ← h2]
  cases acceptingNew o.sys.ctrl i <;> simp

theorem Observed.step_pulses (h : o.Inv c) (hr : i.reset = false) :
    (o.step c i).pulses ++ (pulsesOn c (o.step c i).sys.ctrl ++ owed (o.step c i).sys.ctrl) =
      (o.step c i).accepted.flatMap (fun a => expectedPulses a.1 a.2) := by
  simp only [Observed.step, System.step]
  rw [List.flatMap_append, ← h.pulses]
  cases ha : acceptingNew o.sys.ctrl i with
  | true =>
      obtain ⟨h1, h2⟩ := pulses_step_accept h.control h.ports hr ha
      rw [h1, h2]
      simp
  | false =>
      have h1 := pulsesOn_step_none h.ports ha
      have h2 := owed_step h.control hr (by simp [acceptingRead, ha])
      have h3 : pulsesOn c (Sdram.step c o.sys.ctrl i) ++ owed (Sdram.step c o.sys.ctrl i) =
          owed o.sys.ctrl := by
        unfold owed
        rw [h1, step_curPort, ha, ← h2]
        simp
      rw [h3]
      simp

theorem Observed.inv_step (h : o.Inv c) (hc : c.columnBits ≤ 10) (hr : i.reset = false) :
    (o.step c i).Inv c where
  control := control_step h.control hr
  rows := (rowInv_step h.control h.rows hr).1
  ports := ports_step h.control h.ports hr
  accesses := Observed.step_accesses h hc hr
  pulses := Observed.step_pulses h hr

/-- An observer that starts with the controller has empty logs. -/
structure Observed.Init (c : Config) (o : Observed) : Prop where
  started : Started c o.sys.ctrl
  precharged : o.sys.chip.Precharged
  accepted : o.accepted = []
  accesses : o.accesses = []
  pulses : o.pulses = []

theorem Observed.inv_of_init (h : o.Init c) : o.Inv c where
  control := control_of_started h.started
  rows := ⟨fun _ => h.precharged, by simp [rowHeld, h.started.idle]⟩
  ports := ports_of_started h.started
  accesses := by
    simp [h.accesses, h.accepted, onPins, h.started.command, pending, h.started.idle,
      h.started.readyForNew]
  pulses := by
    simp [h.pulses, h.accepted, pulsesOn, h.started.quiet, owed, inflight, h.started.readyDelay,
      flags_replicate_false, pendingReads, h.started.idle, h.started.readyForNew, lastFlags]

theorem Observed.inv_run {inp : Nat → Input} (h : o.Init c) (hc : c.columnBits ≤ 10)
    (hr : ∀ n, (inp n).reset = false) (n : Nat) :
    (Clocked.stateAt (Observed.step c) o inp n).Inv c :=
  Clocked.stateAt_invariant_of (fun _ i => i.reset = false)
    (Observed.inv_of_init h) (fun _ _ hr h => Observed.inv_step h hc hr) hr n

end Observed

/-- Clocks until the next READ or WRITE command, at most, by state and refresh counter. -/
def rankOf (st : FsmState) (count : Nat) : Nat :=
  match st with
  | .startup => 0
  | .read1 | .write1 => 0
  | .openIn1 => 1
  | .openIn2 => 2
  | .idle => 3 + 8 * count
  | .idleIn1 => 3 + 8 * (count + 1) + 1
  | .idleIn2 => 3 + 8 * (count + 2) + 2
  | .idleIn3 => 3 + 8 * (count + 3) + 3
  | .idleIn4 => 3 + 8 * (count + 4) + 4
  | .idleIn5 => 3 + 8 * (count + 5) + 5
  | .idleIn6 => 3 + 8 * (count + 6) + 6
  | .precharge => 8 * 2 ^ 14 + 100
  | .read4 => 8 * 2 ^ 14 + 101
  | .read3 | .write3 => 8 * 2 ^ 14 + 102
  | .read2 | .write2 => 8 * 2 ^ 14 + 103

def rank (s : State) : Nat :=
  rankOf s.state s.startupRefreshCount.toNat

section Rank

variable {c : Config} {s : State} {i : Input}

theorem toNat_succ_le (n : BitVec 14) : (n + 1).toNat ≤ n.toNat + 1 := by
  rw [BitVec.toNat_add]
  exact Nat.mod_le _ _

/-- A refresh takes the counter down by its period, and never below zero. -/
theorem refresh_toNat (hr : pendingRefresh s = true ∨ forcingRefresh s = true)
    (hc : 8 ≤ c.cyclesPerRefresh ∧ c.cyclesPerRefresh ≤ 2049) :
    (s.startupRefreshCount - BitVec.ofNat 14 c.cyclesPerRefresh + 1).toNat + 7 ≤
      s.startupRefreshCount.toNat := by
  have hge : 2 ^ 11 ≤ s.startupRefreshCount.toNat := by
    rcases hr with hr | hr
    · exact Nat.ge_two_pow_of_testBit hr
    · have := Nat.ge_two_pow_of_testBit hr
      omega
  have hlt := s.startupRefreshCount.isLt
  rw [BitVec.toNat_add, BitVec.toNat_sub, BitVec.toNat_ofNat]
  simp only [BitVec.toNat_ofNat, BitVec.ofNat_eq_ofNat]
  omega

theorem step_count (hs : s.state ≠ .startup) (hi : s.state ≠ .idle) (hr : i.reset = false) :
    (step c s i).startupRefreshCount = s.startupRefreshCount + 1 := by
  cases h : s.state <;>
    simp [step, syncReset, fsm, capture, h, hr, fsmOpenIn1, fsmRead1, fsmRead2,
      fsmRead3, fsmWrite1, fsmWrite2, fsmWrite3, fsmPrecharge, defaults,
      apply_ite State.startupRefreshCount] <;> contradiction

/-- With an access pending, each clock comes closer to its command. -/
theorem rank_step (h : Control c s) (hr : i.reset = false)
    (hc : 8 ≤ c.cyclesPerRefresh ∧ c.cyclesPerRefresh ≤ 2049)
    (hp : pending c s ≠ []) (hs : s.state ≠ .read1 ∧ s.state ≠ .write1) :
    rank (step c s i) < rank s := by
  have h1 := h.running
  have h2 := h.reading
  have h3 : acceptingNew s i = true → s.readyForNew = true := fun ha =>
    (ready_of_acceptingNew ha).1
  have hready : s.state ≠ .read2 → s.readyForNew = false := by
    intro h2
    by_contra hn
    simp [pending, hs, h2, hn] at hp
  have hburst : s.state = .read2 → s.saveBurstLen ≠ 0#8 := by
    intro h2 hb
    simp [pending, h2, hb, readsFrom] at hp
  have hlt := s.startupRefreshCount.isLt
  have hle := toNat_succ_le s.startupRefreshCount
  have hcount := step_count (c := c) (s := s) (i := i) h1
  have hras := c.ras_range
  have hpre := c.pre_range
  have hcas := c.cas_range
  unfold rank
  by_cases hidle : s.state = .idle
  · by_cases href : pendingRefresh s = true ∨ forcingRefresh s = true
    · have hdrop := refresh_toNat href hc
      have hst : (step c s i).state = .idleIn6 := by
        simp [step, syncReset, hr, fsm, hidle, fsmIdle, href]
      have hn : (step c s i).startupRefreshCount =
          s.startupRefreshCount - BitVec.ofNat 14 c.cyclesPerRefresh + 1 := by
        simp [step, syncReset, hr, fsm, hidle, fsmIdle, href]
      rw [hst, hn, hidle]
      simp only [rankOf]
      omega
    · have hst : (step c s i).state = .openIn1 ∨ (step c s i).state = .openIn2 := by
        simp [step, syncReset, hr, fsm, hidle, fsmIdle, href, hready]
        grind -ring -linarith -order
      rcases hst with hst | hst <;> rw [hst, hidle] <;> simp only [rankOf] <;> omega
  · rw [hcount hidle hr]
    generalize (s.startupRefreshCount + 1).toNat = m at hle ⊢
    cases hst : s.state <;>
      simp [step, syncReset, fsm, capture, hst, hr, fsmOpenIn1, fsmRead1, fsmRead2,
        fsmRead3, fsmWrite1, fsmWrite2, fsmWrite3, fsmPrecharge, defaults,
        apply_ite State.state] <;> grind -ring -linarith -order [rankOf]

/-- An access stays pending until its command is issued. -/
theorem pending_ne_nil_step (h : Control c s) (hr : i.reset = false)
    (hp : pending c s ≠ []) (hs : s.state ≠ .read1 ∧ s.state ≠ .write1) :
    pending c (step c s i) ≠ [] := by
  have hstep := pending_step h hr
  rw [issued, if_neg hs.1, if_neg hs.2, List.nil_append] at hstep
  rw [← hstep]
  simp [hp]

theorem readsFrom_eq_nil {k : Nat} {l : Loc} : readsFrom c k l = [] ↔ k = 0 := by
  cases k <;> simp [readsFrom]

theorem pending_ne_nil_of_pendingReads (hp : pendingReads s ≠ 0) : pending c s ≠ [] := by
  unfold pendingReads at hp
  unfold pending
  grind -ring -linarith -order [readsFrom_eq_nil]

theorem mem_ready_of_inflight (h : inflight s ≠ []) : true ∈ s.dataReadyDelay := by
  obtain ⟨l, hl⟩ := List.exists_mem_of_ne_nil _ h
  simp only [inflight, flags, List.mem_map, List.mem_filter] at hl
  obtain ⟨p, ⟨hp, htrue⟩, -⟩ := hl
  rw [← htrue]
  exact (List.of_mem_zip hp).1

/-- The oldest answer moves one position down the shift register. -/
theorem idxOf_shiftDown {d : List Bool} {b : Bool} (hd : true ∈ d)
    (hhead : d.headD false = false) :
    (shiftDown d b).idxOf true < d.idxOf true := by
  cases d with
  | nil => simp at hd
  | cons x d =>
      simp only [List.headD_cons] at hhead
      subst hhead
      have hmem : true ∈ d := by simpa using hd
      rw [shiftDown, List.tail_cons, List.idxOf_append_of_mem hmem, List.idxOf_cons_ne _ (by simp)]
      exact Nat.lt_succ_self _

/-- A bound on the clocks until the next answer leaves the shift registers. -/
def answerRank (c : Config) (s : State) : Nat :=
  if inflight s = [] then c.delayHigh + 2 + rank s else s.dataReadyDelay.idxOf true

theorem answerRank_step (h : Control c s) (hr : i.reset = false)
    (hc : 8 ≤ c.cyclesPerRefresh ∧ c.cyclesPerRefresh ≤ 2049)
    (ho : owed s ≠ []) (hl : leaving s = []) :
    owed (step c s i) ≠ [] ∧ answerRank c (step c s i) < answerRank c s := by
  have hdone : s.readDone = false := by
    by_contra hd
    have hout := h.outstanding
    rw [if_pos (by simpa using hd)] at hout
    exact ho (by simp [owed, hout.1, hout.2, lastFlags])
  have ha : acceptingNew s i = false := by
    by_contra hacc
    have := (ready_of_acceptingNew (by simpa using hacc)).2.1
    simp [hdone] at this
  have hsame := owed_step h hr (by simp [acceptingRead, ha])
  have hflight := leaving_append_inflight_step (i := i) h
  rw [hl, List.nil_append] at hsame hflight
  refine ⟨?_, ?_⟩
  · rw [owed, hsame]
    simpa [owed] using ho
  · unfold answerRank
    by_cases hin : inflight s = []
    · by_cases hs : s.state = .read1
      · -- the READ enters the shift register at the top
        have hne : inflight (step c s i) ≠ [] := by
          rw [hflight]
          simp [issuingRead, hs]
        have hmem := List.idxOf_lt_length_of_mem (mem_ready_of_inflight hne)
        have hlen := (control_step h hr).readyLen
        rw [if_neg hne, if_pos hin]
        omega
      · have hpr : pendingReads s ≠ 0 := by
          intro hz
          exact ho (by simp [owed, hin, hz, lastFlags])
        have hw : s.state ≠ .write1 := by
          intro hw
          simp [pendingReads, hw] at hpr
        have hlt := rank_step h hr hc (pending_ne_nil_of_pendingReads hpr) ⟨hs, hw⟩
        rw [if_pos hin, hflight, hin, if_pos (by simp [issuingRead, hs])]
        omega
    · have hne : inflight (step c s i) ≠ [] := by
        rw [hflight]
        simp [hin]
      have hhead : s.dataReadyDelay.headD false = false := by
        by_contra hd
        simp only [Bool.not_eq_false] at hd
        rw [leaving, hd] at hl
        simp at hl
      rw [if_neg hne, if_neg hin, step_dataReadyDelay]
      exact idxOf_shiftDown (mem_ready_of_inflight hin) hhead

end Rank

section Agreement

variable {c : Config} {o : Observed} {inp : Nat → Input}

/-- The run seen by an observer. -/
def Observed.run (c : Config) (o : Observed) (inp : Nat → Input) (n : Nat) : Observed :=
  Clocked.stateAt (Observed.step c) o inp n

/-- The accesses the accepted requests ask for, in the order of acceptance. -/
def Observed.expectedAccesses (c : Config) (o : Observed) : List Access :=
  o.accepted.flatMap (fun a => Sdram.expectedAccesses c a.2)

/-- The pulses that answer the accepted requests, in the order of acceptance. -/
def Observed.expectedPulses (o : Observed) : List (Nat × Bool) :=
  o.accepted.flatMap (fun a => Sdram.expectedPulses a.1 a.2)

theorem Observed.accepted_mono (c : Config) (o : Observed) (inp : Nat → Input) {n m : Nat}
    (h : n ≤ m) :
    (o.run c inp n).accepted <+: (o.run c inp m).accepted := by
  induction m, h using Nat.le_induction with
  | base => exact List.prefix_refl _
  | succ m _ ih => exact ih.trans (List.prefix_append _ _)

theorem Observed.accesses_mono (c : Config) (o : Observed) (inp : Nat → Input) {n m : Nat}
    (h : n ≤ m) :
    (o.run c inp n).accesses <+: (o.run c inp m).accesses := by
  induction m, h using Nat.le_induction with
  | base => exact List.prefix_refl _
  | succ m _ ih => exact ih.trans (List.prefix_append _ _)

theorem Observed.pulses_mono (c : Config) (o : Observed) (inp : Nat → Input) {n m : Nat}
    (h : n ≤ m) :
    (o.run c inp n).pulses <+: (o.run c inp m).pulses := by
  induction m, h using Nat.le_induction with
  | base => exact List.prefix_refl _
  | succ m _ ih => exact ih.trans (List.prefix_append _ _)

/-- What is missing from the log of accesses is on the pins within two clocks of its turn. -/
theorem Observed.accesses_add_two (hinv : ∀ k, (o.run c inp k).Inv c) (hcol : c.columnBits ≤ 10)
    (hr : ∀ n, (inp n).reset = false) (n : Nat) :
    (o.run c inp (n + 2)).accesses = (o.run c inp n).accesses ++
      (onPins (o.run c inp n).sys.chip (o.run c inp n).sys.ctrl ++
        issued (o.run c inp n).sys.ctrl) := by
  have hpins := onPins_step (hinv n).control (hinv n).ports (hinv n).rows (hr n)
    ((hinv n).col_lt hcol)
  rw [← hpins, ← accessOn_eq (i := inp n) _ (hinv n).ports, ← List.append_assoc]
  change _ = (o.run c inp (n + 1)).accesses ++
    onPins (o.run c inp (n + 1)).sys.chip (o.run c inp (n + 1)).sys.ctrl
  rw [← accessOn_eq (i := inp (n + 1)) _ (hinv (n + 1)).ports]
  rfl

theorem Observed.accesses_grow (hinv : ∀ k, (o.run c inp k).Inv c) (hcol : c.columnBits ≤ 10)
    (hr : ∀ n, (inp n).reset = false)
    (hc : 8 ≤ c.cyclesPerRefresh ∧ c.cyclesPerRefresh ≤ 2049) (n : Nat)
    (hn : (o.run c inp n).accesses.length < ((o.run c inp n).expectedAccesses c).length) :
    ∃ m, n ≤ m ∧ (o.run c inp n).accesses.length < (o.run c inp m).accesses.length := by
  have hlen : ∀ k, (o.run c inp (k + 2)).accesses.length = (o.run c inp k).accesses.length +
      (onPins (o.run c inp k).sys.chip (o.run c inp k).sys.ctrl ++
        issued (o.run c inp k).sys.ctrl).length := by
    intro k
    rw [Observed.accesses_add_two hinv hcol hr, List.length_append]
  by_cases hp : onPins (o.run c inp n).sys.chip (o.run c inp n).sys.ctrl = []
  · have hwait : pending c (o.run c inp n).sys.ctrl ≠ [] := by
      intro hnil
      have := (hinv n).accesses
      rw [hp, hnil] at this
      rw [Observed.expectedAccesses, ← this] at hn
      simp at hn
    obtain ⟨m, hm, -, hgoal⟩ := Clocked.stateAt_progress
      (fun o : Observed => pending c o.sys.ctrl ≠ [])
      (fun o => o.sys.ctrl.state = .read1 ∨ o.sys.ctrl.state = .write1)
      (fun o => rank o.sys.ctrl)
      (fun k hk hg => ⟨pending_ne_nil_step (hinv k).control (hr k) hk (not_or.mp hg),
        rank_step (hinv k).control (hr k) hc hk (not_or.mp hg)⟩) hwait
    have hissued : issued (o.run c inp m).sys.ctrl ≠ [] := by
      change issued (Clocked.stateAt (Observed.step c) o inp m).sys.ctrl ≠ []
      rcases hgoal with hs | hs <;> simp [issued, hs]
    have hmono := (Observed.accesses_mono c o inp hm).length_le
    have hpos := List.length_pos_iff.mpr hissued
    have := hlen m
    rw [List.length_append] at this
    exact ⟨m + 2, by omega, by omega⟩
  · have hpos := List.length_pos_iff.mpr hp
    have := hlen n
    rw [List.length_append] at this
    exact ⟨n + 2, by omega, by omega⟩

theorem Observed.pulses_grow (hinv : ∀ k, (o.run c inp k).Inv c)
    (hr : ∀ n, (inp n).reset = false)
    (hc : 8 ≤ c.cyclesPerRefresh ∧ c.cyclesPerRefresh ≤ 2049) (n : Nat)
    (hn : (o.run c inp n).pulses.length < (o.run c inp n).expectedPulses.length) :
    ∃ m, n ≤ m ∧ (o.run c inp n).pulses.length < (o.run c inp m).pulses.length := by
  have hlen : ∀ k, (o.run c inp (k + 1)).pulses.length = (o.run c inp k).pulses.length +
      (pulsesOn c (o.run c inp k).sys.ctrl).length := fun k => List.length_append
  by_cases hp : pulsesOn c (o.run c inp n).sys.ctrl = []
  · have hwait : owed (o.run c inp n).sys.ctrl ≠ [] := by
      intro hnil
      have := (hinv n).pulses
      rw [hp, hnil] at this
      rw [Observed.expectedPulses, ← this] at hn
      simp at hn
    obtain ⟨m, hm, howed, hgoal⟩ := Clocked.stateAt_progress
      (fun o : Observed => owed o.sys.ctrl ≠ [])
      (fun o => leaving o.sys.ctrl ≠ []) (fun o => answerRank c o.sys.ctrl)
      (fun k hk hg => answerRank_step (hinv k).control (hr k) hc hk (not_not.mp hg)) hwait
    have ha : acceptingNew (o.run c inp m).sys.ctrl (inp m) = false := by
      by_contra hacc
      exact howed (pulses_step_accept (hinv m).control (hinv m).ports (hr m) (by simpa using hacc)).1
    have hpulse : pulsesOn c (o.run c inp (m + 1)).sys.ctrl ≠ [] := by
      change pulsesOn c (Sdram.step c (o.run c inp m).sys.ctrl (inp m)) ≠ []
      rw [pulsesOn_step_none (hinv m).ports ha]
      exact fun hnil => hgoal (List.map_eq_nil_iff.mp hnil)
    have hmono := (Observed.pulses_mono c o inp
      (show n ≤ m + 1 by omega)).length_le
    have hpos := List.length_pos_iff.mpr hpulse
    have := hlen (m + 1)
    exact ⟨m + 1 + 1, by omega, by omega⟩
  · have hpos := List.length_pos_iff.mpr hp
    have := hlen n
    exact ⟨n + 1, by omega, by omega⟩

theorem Observed.expectedAccesses_mono {n m : Nat} (h : n ≤ m) :
    (o.run c inp n).expectedAccesses c <+: (o.run c inp m).expectedAccesses c := by
  obtain ⟨l, hl⟩ := Observed.accepted_mono c o inp h
  simp only [Observed.expectedAccesses, ← hl, List.flatMap_append]
  exact List.prefix_append _ _

theorem Observed.expectedPulses_mono {n m : Nat} (h : n ≤ m) :
    (o.run c inp n).expectedPulses <+: (o.run c inp m).expectedPulses := by
  obtain ⟨l, hl⟩ := Observed.accepted_mono c o inp h
  simp only [Observed.expectedPulses, ← hl, List.flatMap_append]
  exact List.prefix_append _ _

/-- Nothing observed yet, next to a controller that has just started. -/
def observedStart : Observed where
  sys := ⟨afterStartup glueSdramMin, closedChip⟩
  accepted := []
  accesses := []
  pulses := []

end Agreement

end Sdram
end F32c
