import F32c.Sdram.Controller

/-!
# Control invariant of the SDRAM controller

Which requests may be pending in which state of the controller.

A read occupies the controller until its last word is answered: `R_read_done`
is false from its acceptance on, and no request is accepted meanwhile.  The
invariant below counts the READ commands still to be issued
(`pendingReads`) and the answers travelling through the two response shift
registers (`inflight`).  Together they always spell the `last` flags the
accepted read still owes, so `R_read_done` rises exactly with the final one.
-/

namespace F32c
namespace Sdram

/-- The registers right after start-up, whatever the last transaction left behind. -/
structure Started (c : Config) (s : State) : Prop where
  idle : s.state = .idle
  readyForNew : s.readyForNew = true
  readDone : s.readDone = true
  burst : s.saveBurstLen = 0#8
  readyDelay : s.dataReadyDelay = List.replicate (c.delayHigh + 1) false
  lastDelay : s.dataLastDelay = List.replicate (c.delayHigh + 1) false
  quiet : s.readyOut = fun _ => false
  command : s.iobCommand = .nop
  curPort : s.curPort < c.ports
  nextPort : s.nextPort < c.ports

/-- The generics `glue_sdram_min` passes for one processor. -/
def glueSdramMin : Config where
  ports := 2
  ras := 2
  cas := 2
  pre := 2
  clockRange := 2
  addressWidth := 24
  columnBits := 9
  startupCycles := 10100
  cyclesPerRefresh := 1524
  ports_pos := by decide
  ras_range := by decide
  cas_range := by decide
  pre_range := by decide
  clockRange_range := by decide
  columnBits_range := by decide
  addressWidth_range := by decide

/-- Registers after start-up, the others at their initial values. -/
def afterStartup (c : Config) : State where
  state := .idle
  startupRefreshCount := BitVec.ofInt 14 (2048 - (c.cyclesPerRefresh : Int) + 1)
  iobCommand := .nop
  iobAddress := 0
  iobBank := 0
  iobData := 0
  iobDataNext := 0
  iobDqm := 0b11
  iobCke := true
  iobDqHiz := true
  dqmSr := 0b1111
  saveWr := false
  saveRow := 0
  saveBank := 0
  saveCol := 0
  saveDataIn := 0
  saveByteEnable := 0
  saveBurstLen := 0
  readyForNew := true
  canBackToBack := false
  readDone := true
  dataReadyDelay := List.replicate (c.delayHigh + 1) false
  dataLastDelay := List.replicate (c.delayHigh + 1) false
  readyOut := fun _ => false
  lastOut := fun _ => false
  curPort := 0
  nextPort := 0

theorem started_afterStartup (c : Config) : Started c (afterStartup c) :=
  ⟨rfl, rfl, rfl, rfl, rfl, rfl, rfl, rfl, c.ports_pos, c.ports_pos⟩

/-- Every port writes the word at its own number, all the time. -/
def writingPorts : Input where
  req := fun p =>
    { addr := BitVec.ofNat 30 p, dataIn := 0x12345678, byteSel := 0b0011, burstLen := 0,
      write := true, strobe := true }
  reset := false

/-- `last` flags of the answers travelling through two aligned shift registers. -/
def flags (ready last : List Bool) : List Bool :=
  ((ready.zip last).filter (fun p => p.1)).map (fun p => p.2)

/-- `last` flags of the answers in flight, oldest first. -/
def inflight (s : State) : List Bool :=
  flags s.dataReadyDelay s.dataLastDelay

/-- The `last` flags of a burst of `k` words. -/
def lastFlags : Nat → List Bool
  | 0 => []
  | k + 1 => List.replicate k false ++ [true]

/-- READ commands still to be issued for the request held by the controller. -/
def pendingReads (s : State) : Nat :=
  if s.state = .read1 then s.saveBurstLen.toNat + 1
  else if s.state = .read2 then s.saveBurstLen.toNat
  else if s.state = .write1 || s.readyForNew || s.saveWr then 0
  else s.saveBurstLen.toNat + 1

/-- A request is captured by this clock and it is a read. -/
def acceptingRead (s : State) (i : Input) : Bool :=
  acceptingNew s i && !(curReq s i).write

/-- This clock schedules a READ command. -/
def issuingRead (s : State) : Bool :=
  decide (s.state = .read1)

theorem setHigh_shiftDown (d : List Bool) :
    setHigh (shiftDown d false) = shiftDown d true := by
  simp [setHigh, shiftDown]

/-- A shift register advances by one position, a READ entering at the top. -/
theorem step_dataReadyDelay
    (c : Config) (s : State) (i : Input) :
    (step c s i).dataReadyDelay =
      shiftDown s.dataReadyDelay (issuingRead s) := by
  simp only [step, syncReset, fsm, capture, apply_ite State.dataReadyDelay]
  cases hs : s.state <;>
    simp [issuingRead, hs, fsmStartup, fsmIdle, fsmOpenIn1, fsmRead1, fsmRead2,
      fsmRead3, fsmWrite1, fsmWrite2, fsmWrite3, fsmPrecharge, defaults,
      apply_ite State.dataReadyDelay, setHigh_shiftDown]

theorem step_dataLastDelay
    (c : Config) (s : State) (i : Input) :
    (step c s i).dataLastDelay =
      shiftDown s.dataLastDelay (issuingRead s && s.saveBurstLen == 0#8) := by
  simp only [step, syncReset, fsm, capture, apply_ite State.dataLastDelay]
  have hb : (s.saveBurstLen == 0#8) = decide (s.saveBurstLen = 0#8) := by
    simp [BEq.beq]
  by_cases h : s.saveBurstLen = 0#8 <;> cases hs : s.state <;>
    simp [issuingRead, hs, hb, h, fsmStartup, fsmIdle, fsmOpenIn1, fsmRead1, fsmRead2,
      fsmRead3, fsmWrite1, fsmWrite2, fsmWrite3, fsmPrecharge, defaults,
      apply_ite State.dataLastDelay, setHigh_shiftDown]

/-- The word counters of the controller after a clock. -/
theorem step_readDone
    (c : Config) (s : State) (i : Input) (hs : s.state ≠ .startup) :
    (step c s i).readDone =
      (!acceptingRead s i &&
        if lastInSight s then s.saveBurstLen == 0#8 else s.readDone) := by
  simp only [step, syncReset, fsm, capture, apply_ite State.readDone, acceptingRead]
  cases h : s.state <;>
    simp [fsmIdle, fsmOpenIn1, fsmRead1, fsmRead2,
      fsmRead3, fsmWrite1, fsmWrite2, fsmWrite3, fsmPrecharge, defaults,
      apply_ite State.readDone] <;> try contradiction
  all_goals
    cases acceptingNew s i <;> cases (curReq s i).write <;> simp

/-- Which requests may be pending in which state. -/
structure Control (c : Config) (s : State) : Prop where
  running : s.state ≠ .startup
  readyLen : s.dataReadyDelay.length = c.delayHigh + 1
  lastLen : s.dataLastDelay.length = c.delayHigh + 1
  lastReady : ∀ p ∈ s.dataReadyDelay.zip s.dataLastDelay, p.2 = true → p.1 = true
  opening : s.state = .openIn2 ∨ s.state = .openIn1 → s.readyForNew = false
  writing : s.state = .write1 → s.readyForNew = true ∧ s.saveWr = true
  reading : s.state = .read1 ∨ s.state = .read2 →
    s.saveWr = false ∧ (s.readyForNew = true ↔ s.saveBurstLen = 0#8)
  crossing : s.state = .read3 → s.readyForNew = false →
    s.saveWr = false ∧ s.canBackToBack = false
  busy : s.state = .read2 → s.readDone = false
  burst : s.readyForNew = true ∨ s.saveWr = true → s.saveBurstLen = 0#8
  outstanding :
    if s.readDone then inflight s = [] ∧ pendingReads s = 0
    else ∃ k, inflight s ++ lastFlags (pendingReads s) = lastFlags (k + 1)

section Step

variable {c : Config} {s : State} {i : Input}

theorem step_running (h : Control c s) (hr : i.reset = false) :
    (step c s i).state ≠ .startup := by
  have h1 := h.running
  simp only [step, syncReset, fsm, capture, apply_ite State.state, hr]
  cases hs : s.state <;>
    simp [fsmIdle, fsmOpenIn1, fsmRead1, fsmRead2,
      fsmRead3, fsmWrite1, fsmWrite2, fsmWrite3, fsmPrecharge, defaults,
      apply_ite State.state] <;> grind -ring -linarith -order

theorem step_opening (h : Control c s) :
    (step c s i).state = .openIn2 ∨ (step c s i).state = .openIn1 →
      (step c s i).readyForNew = false := by
  have h1 := h.running
  have h2 := h.opening
  simp only [step, syncReset, fsm, capture, apply_ite State.state, apply_ite State.readyForNew]
  cases hs : s.state <;>
    simp [fsmIdle, fsmOpenIn1, fsmRead1, fsmRead2,
      fsmRead3, fsmWrite1, fsmWrite2, fsmWrite3, fsmPrecharge, defaults,
      apply_ite State.readyForNew, apply_ite State.state] <;> grind -ring -linarith -order

theorem step_writing (h : Control c s) :
    (step c s i).state = .write1 →
      (step c s i).readyForNew = true ∧ (step c s i).saveWr = true := by
  have h1 := h.running
  have h2 := h.opening
  simp only [step, syncReset, fsm, capture, apply_ite State.state, apply_ite State.readyForNew,
    apply_ite State.saveWr, acceptingNew]
  cases hs : s.state <;>
    simp [fsmIdle, fsmOpenIn1, fsmRead1, fsmRead2,
      fsmRead3, fsmWrite1, fsmWrite2, fsmWrite3, fsmPrecharge, defaults,
      apply_ite State.readyForNew, apply_ite State.state, apply_ite State.saveWr,
      acceptingNew] <;> grind -ring -linarith -order

theorem ready_of_acceptingNew (ha : acceptingNew s i = true) :
    s.readyForNew = true ∧ s.readDone = true ∧ s.readyOut s.nextPort = false := by
  simp [acceptingNew] at ha
  exact ⟨ha.1.1.1, ha.1.2, ha.2⟩

theorem readDone_of_pendingReads (h : Control c s) (hp : pendingReads s ≠ 0) :
    s.readDone = false := by
  have ho := h.outstanding
  cases hd : s.readDone with
  | false => rfl
  | true => simp [hd, hp] at ho

/-- No request is captured while a READ command is being issued. -/
theorem not_acceptingNew_of_read (h : Control c s)
    (hs : s.state = .read1 ∨ s.state = .read2) :
    acceptingNew s i = false := by
  have hd : s.readDone = false := by
    rcases hs with hs | hs
    · exact readDone_of_pendingReads h (by simp [pendingReads, hs])
    · exact h.busy hs
  simp [acceptingNew, hd]

theorem step_reading (h : Control c s) :
    (step c s i).state = .read1 ∨ (step c s i).state = .read2 →
      (step c s i).saveWr = false ∧
        ((step c s i).readyForNew = true ↔ (step c s i).saveBurstLen = 0#8) := by
  have h1 := h.running
  have h2 := h.opening
  have h3 := h.reading
  have h4 := h.burst
  have h5 : s.state = .read1 → acceptingNew s i = false := fun hs =>
    not_acceptingNew_of_read h (Or.inl hs)
  have h6 : acceptingNew s i = true → s.readyForNew = true := fun ha =>
    (ready_of_acceptingNew ha).1
  simp only [step, syncReset, fsm, capture, apply_ite State.state, apply_ite State.readyForNew,
    apply_ite State.saveWr, apply_ite State.saveBurstLen]
  cases hs : s.state <;>
    simp [fsmIdle, fsmOpenIn1, fsmRead1, fsmRead2,
      fsmRead3, fsmWrite1, fsmWrite2, fsmWrite3, fsmPrecharge, defaults,
      apply_ite State.readyForNew, apply_ite State.state, apply_ite State.saveWr,
      apply_ite State.saveBurstLen] <;> grind -ring -linarith -order

theorem step_crossing (h : Control c s) :
    (step c s i).state = .read3 → (step c s i).readyForNew = false →
      (step c s i).saveWr = false ∧ (step c s i).canBackToBack = false := by
  have h1 := h.running
  have h2 := h.reading
  have h3 := h.crossing
  have h5 : s.state = .read2 → acceptingNew s i = false := fun hs =>
    not_acceptingNew_of_read h (Or.inr hs)
  have h6 : acceptingNew s i = true → s.readyForNew = true := fun ha =>
    (ready_of_acceptingNew ha).1
  simp only [step, syncReset, fsm, capture, apply_ite State.state, apply_ite State.readyForNew,
    apply_ite State.saveWr, apply_ite State.canBackToBack]
  cases hs : s.state <;>
    simp [fsmIdle, fsmOpenIn1, fsmRead1, fsmRead2,
      fsmRead3, fsmWrite1, fsmWrite2, fsmWrite3, fsmPrecharge, defaults,
      apply_ite State.readyForNew, apply_ite State.state, apply_ite State.saveWr,
      apply_ite State.canBackToBack] <;> grind -ring -linarith -order

theorem step_burst (h : Control c s) :
    (step c s i).readyForNew = true ∨ (step c s i).saveWr = true →
      (step c s i).saveBurstLen = 0#8 := by
  have h0 := h.opening
  have h1 := h.running
  have h2 := h.reading
  have h4 := h.burst
  have h6 : acceptingNew s i = true → s.readyForNew = true := fun ha =>
    (ready_of_acceptingNew ha).1
  simp only [step, syncReset, fsm, capture, apply_ite State.readyForNew,
    apply_ite State.saveWr, apply_ite State.saveBurstLen]
  cases hs : s.state <;>
    simp [fsmIdle, fsmOpenIn1, fsmRead1, fsmRead2,
      fsmRead3, fsmWrite1, fsmWrite2, fsmWrite3, fsmPrecharge, defaults,
      apply_ite State.readyForNew, apply_ite State.saveWr,
      apply_ite State.saveBurstLen] <;> grind -ring -linarith -order

theorem toNat_sub_one {b : BitVec 8} (hb : b ≠ 0#8) :
    (b - 1).toNat + 1 = b.toNat := by
  have h1 : b.toNat ≠ 0 := fun h => hb (BitVec.eq_of_toNat_eq (by simpa using h))
  have h2 : (b - 1#8).toNat = b.toNat - 1 := by
    have := b.isLt
    simp only [BitVec.toNat_sub, BitVec.toNat_ofNat]
    omega
  change (b - 1#8).toNat + 1 = b.toNat
  omega

/--
READ commands are owed from the acceptance of a read until they are issued:
none is forgotten and none is issued twice.
-/
theorem pendingReads_step (h : Control c s) (hr : i.reset = false) :
    pendingReads s + (if acceptingRead s i then (curReq s i).burstLen.toNat + 1 else 0) =
      (if issuingRead s then 1 else 0) + pendingReads (step c s i) := by
  have h0 := h.opening
  have h1 := h.running
  have h2 := h.reading
  have h3 := h.crossing
  have h4 := h.burst
  have h5 := h.writing
  have h6 : acceptingNew s i = true → s.readyForNew = true := fun ha =>
    (ready_of_acceptingNew ha).1
  have h7 : s.state = .read1 ∨ s.state = .read2 → acceptingNew s i = false :=
    not_acceptingNew_of_read h
  have h8 : s.saveBurstLen ≠ 0#8 → (s.saveBurstLen - 1).toNat + 1 = s.saveBurstLen.toNat :=
    toNat_sub_one
  have h9 : (0#8).toNat = 0 := rfl
  cases hs : s.state <;>
    simp [pendingReads, acceptingRead, issuingRead, step, syncReset, fsm, capture, hr, hs,
      fsmIdle, fsmOpenIn1, fsmRead1, fsmRead2,
      fsmRead3, fsmWrite1, fsmWrite2, fsmWrite3, fsmPrecharge, defaults,
      apply_ite State.readyForNew, apply_ite State.state, apply_ite State.saveWr,
      apply_ite State.saveBurstLen] <;> grind -ring -linarith -order

theorem flags_cons (r l : Bool) (ready last : List Bool) :
    flags (r :: ready) (l :: last) = (if r then [l] else []) ++ flags ready last := by
  cases r <;> simp [flags]

theorem flags_concat {ready last : List Bool} (h : ready.length = last.length) (r l : Bool) :
    flags (ready ++ [r]) (last ++ [l]) = flags ready last ++ (if r then [l] else []) := by
  unfold flags
  rw [List.zip_append h]
  cases r <;> simp

/-- The answer leaving the shift registers with this clock, if any. -/
def leaving (s : State) : List Bool :=
  if s.dataReadyDelay.headD false then [s.dataLastDelay.headD false] else []

/-- Answers in flight leave at the bottom and enter at the top. -/
theorem leaving_append_inflight_step (h : Control c s) :
    leaving s ++ inflight (step c s i) =
      inflight s ++ (if issuingRead s then [s.saveBurstLen == 0#8] else []) := by
  have h1 := h.readyLen
  have h2 := h.lastLen
  cases hr : s.dataReadyDelay with
  | nil => simp [hr] at h1
  | cons r ready =>
      cases hl : s.dataLastDelay with
      | nil => simp [hl] at h2
      | cons l last =>
          have hlen : ready.length = last.length := by
            rw [hr] at h1
            rw [hl] at h2
            simp at h1 h2
            omega
          simp only [inflight, leaving, step_dataReadyDelay, step_dataLastDelay, hr, hl,
            shiftDown, List.tail_cons, List.headD_cons, flags_cons, flags_concat hlen]
          cases issuingRead s <;> simp

theorem length_shiftDown {d : List Bool} {n : Nat} (h : d.length = n + 1) (b : Bool) :
    (shiftDown d b).length = n + 1 := by
  simp [shiftDown, h]

theorem step_lastReady (h : Control c s) :
    ∀ p ∈ (step c s i).dataReadyDelay.zip (step c s i).dataLastDelay,
      p.2 = true → p.1 = true := by
  have h1 := h.readyLen
  have h2 := h.lastLen
  have h3 := h.lastReady
  rw [step_dataReadyDelay, step_dataLastDelay]
  intro p hp
  have hlen : s.dataReadyDelay.tail.length = s.dataLastDelay.tail.length := by
    simp [h1, h2]
  rw [shiftDown, shiftDown, List.zip_append hlen, List.mem_append] at hp
  rcases hp with hp | hp
  · apply h3
    cases hr : s.dataReadyDelay with
    | nil => simp [hr] at h1
    | cons r ready =>
        cases hl : s.dataLastDelay with
        | nil => simp [hl] at h2
        | cons l last =>
            rw [hr, hl] at hp
            exact List.mem_cons_of_mem _ hp
  · simp at hp
    subst hp
    simp
    intro hi _
    exact hi

/-- With the head of the `last` register set, that answer is the only one in flight. -/
theorem inflight_of_lastHead (h : Control c s)
    (hd : s.dataLastDelay.headD false = true) :
    inflight s = [true] ∧ pendingReads s = 0 ∧ s.readDone = false := by
  have h1 := h.readyLen
  have h3 := h.lastReady
  have ho := h.outstanding
  cases hl : s.dataLastDelay with
  | nil => simp [hl] at hd
  | cons l last =>
      cases hr : s.dataReadyDelay with
      | nil => simp [hr] at h1
      | cons r ready =>
          simp [hl] at hd
          subst hd
          have hr1 : r = true := by
            refine h3 (r, true) ?_ rfl
            rw [hr, hl]
            simp
          subst hr1
          have hf : inflight s = true :: flags ready last := by
            simp [inflight, hr, hl, flags_cons]
          cases hdone : s.readDone with
          | true => simp [hdone, hf] at ho
          | false =>
              simp only [hdone, Bool.false_eq_true, if_false] at ho
              obtain ⟨k, hk⟩ := ho
              cases k with
              | zero =>
                  rw [hf] at hk
                  simp [lastFlags] at hk
                  refine ⟨by rw [hf, hk.1], ?_, rfl⟩
                  cases hp : pendingReads s with
                  | zero => rfl
                  | succ m => simp [hp] at hk
              | succ k =>
                  rw [hf] at hk
                  simp [lastFlags, List.replicate_succ] at hk

theorem two_le_delayHigh (c : Config) : 2 ≤ c.delayHigh := by
  have h := c.cas_range
  unfold Config.delayHigh
  omega

theorem lastInSight_eq_head (h : Control c s) :
    lastInSight s = s.dataLastDelay.headD false := by
  cases hd : s.dataLastDelay.headD false with
  | false =>
      cases hl : s.dataLastDelay with
      | nil => simp [lastInSight, hl]
      | cons l last =>
          simp [hl] at hd
          simp [lastInSight, hl, hd]
  | true =>
      obtain ⟨hf, -, -⟩ := inflight_of_lastHead h hd
      have h1 := h.readyLen
      have h2 := h.lastLen
      have h3 := h.lastReady
      have hc := two_le_delayHigh c
      -- no other answer is in flight, so no other bit of either register is set
      rcases hr : s.dataReadyDelay with _ | ⟨r, _ | ⟨r1, _ | ⟨r2, ready⟩⟩⟩ <;>
        rw [hr] at h1 <;> simp at h1 <;> try omega
      rcases hl : s.dataLastDelay with _ | ⟨l, _ | ⟨l1, _ | ⟨l2, last⟩⟩⟩ <;>
        rw [hl] at h2 <;> simp at h2 <;> try omega
      rw [hr, hl] at h3
      simp at h3
      simp [hl] at hd
      subst hd
      simp [inflight, hr, hl, flags_cons] at hf
      simp [lastInSight, hl]
      obtain ⟨hr0, hr1, hr2, -⟩ := h3
      cases r1 <;> cases r2 <;> simp_all

theorem lastFlags_succ (n : Nat) : lastFlags (n + 1) = (n == 0) :: lastFlags n := by
  cases n with
  | zero => rfl
  | succ n => simp [lastFlags, List.replicate_succ]

theorem burst_of_no_pendingReads (h : Control c s) (hp : pendingReads s = 0) :
    s.saveBurstLen = 0#8 := by
  have h1 := h.burst
  have h2 := h.writing
  unfold pendingReads at hp
  split_ifs at hp with _ _ h3
  · exact BitVec.eq_of_toNat_eq (by simpa using hp)
  · apply h1
    grind -ring -linarith -order

/-- The answers still owed by the accepted read, before and after a clock. -/
theorem owed_step (h : Control c s) (hr : i.reset = false)
    (ha : acceptingRead s i = false) :
    leaving s ++ (inflight (step c s i) ++ lastFlags (pendingReads (step c s i))) =
      inflight s ++ lastFlags (pendingReads s) := by
  have hp := pendingReads_step h hr
  rw [← List.append_assoc, leaving_append_inflight_step h]
  rw [ha] at hp
  cases hi : issuingRead s with
  | false =>
      simp only [hi, Bool.false_eq_true, if_false, Nat.add_zero, Nat.zero_add] at hp
      simp [hp]
  | true =>
      have hs : s.state = .read1 := by simpa [issuingRead] using hi
      have hb : pendingReads s = s.saveBurstLen.toNat + 1 := by simp [pendingReads, hs]
      simp only [hi, Bool.false_eq_true, if_false, if_true] at hp
      have hp' : pendingReads (step c s i) = s.saveBurstLen.toNat := by omega
      have hz : (s.saveBurstLen == 0#8) = (s.saveBurstLen.toNat == 0) := by
        rw [Bool.eq_iff_iff]
        simp [BitVec.toNat_eq]
      rw [hb, hp', lastFlags_succ, hz]
      simp

theorem step_outstanding (h : Control c s) (hr : i.reset = false) :
    if (step c s i).readDone then
      inflight (step c s i) = [] ∧ pendingReads (step c s i) = 0
    else ∃ k, inflight (step c s i) ++ lastFlags (pendingReads (step c s i)) =
      lastFlags (k + 1) := by
  have ho := h.outstanding
  have hp := pendingReads_step h hr
  rw [step_readDone c s i h.running, lastInSight_eq_head h]
  cases hdone : s.readDone with
  | true =>
      -- nothing is owed: only a newly accepted read can owe an answer
      simp only [hdone, if_true] at ho
      have hhead : s.dataLastDelay.headD false = false := by
        by_contra hd
        simp only [Bool.not_eq_false] at hd
        have := (inflight_of_lastHead h hd).2.2
        simp [hdone] at this
      have hi : issuingRead s = false := by
        by_contra hi
        simp [issuingRead] at hi
        simp [pendingReads, hi] at ho
      have hl := leaving_append_inflight_step (i := i) h
      simp only [ho.1, hi, Bool.false_eq_true, if_false, List.append_nil, List.append_eq_nil_iff] at hl
      simp only [hi, ho.2, Bool.false_eq_true, if_false, Nat.zero_add] at hp
      cases ha : acceptingRead s i with
      | false => simp_all
      | true =>
          simp only [ha, if_true] at hp
          simp only [Bool.not_true, Bool.false_and, Bool.false_eq_true, if_false]
          exact ⟨_, by rw [hl.2, ← hp, List.nil_append]⟩
  | false =>
      have ha : acceptingRead s i = false := by
        simp [acceptingRead, acceptingNew, hdone]
      simp only [hdone, Bool.false_eq_true, if_false] at ho
      obtain ⟨k, hk⟩ := ho
      have hw := owed_step h hr ha
      rw [hk] at hw
      cases hhead : s.dataLastDelay.headD false with
      | true =>
          obtain ⟨hf, hp0, -⟩ := inflight_of_lastHead h hhead
          have hb := burst_of_no_pendingReads h hp0
          have hrd : s.dataReadyDelay.headD false = true := by
            have h3 := h.lastReady
            have h1 := h.readyLen
            cases hx : s.dataReadyDelay with
            | nil => simp [hx] at h1
            | cons r ready =>
                cases hy : s.dataLastDelay with
                | nil => simp [hy] at hhead
                | cons l last =>
                    simp [hy] at hhead
                    subst hhead
                    exact h3 (r, true) (by rw [hx, hy]; simp) rfl
          rw [hf, hp0] at hk
          simp only [leaving, hrd, hhead, if_true] at hw
          rw [← hk] at hw
          simp [lastFlags] at hw
          have hz : pendingReads (step c s i) = 0 := by
            cases hq : pendingReads (step c s i) with
            | zero => rfl
            | succ m => simp [hq] at hw
          simp [ha, hb, hw.1, hz]
      | false =>
          simp only [ha, Bool.not_false, Bool.true_and, Bool.false_eq_true, if_false]
          unfold leaving at hw
          rw [hhead] at hw
          cases hrd : s.dataReadyDelay.headD false with
          | false =>
              rw [hrd] at hw
              exact ⟨k, by simpa using hw⟩
          | true =>
              rw [hrd] at hw
              rw [lastFlags_succ] at hw
              cases k with
              | zero => simp at hw
              | succ k =>
                  refine ⟨k, ?_⟩
                  simpa using hw

theorem step_busy (h : Control c s) :
    (step c s i).state = .read2 → (step c s i).readDone = false := by
  intro hs
  have hread : s.state = .read1 := by
    revert hs
    have h1 := h.running
    simp only [step, syncReset, fsm, capture, apply_ite State.state]
    cases hs : s.state <;>
      simp [fsmIdle, fsmOpenIn1, fsmRead1, fsmRead2,
        fsmRead3, fsmWrite1, fsmWrite2, fsmWrite3, fsmPrecharge, defaults,
        apply_ite State.state] <;> grind -ring -linarith -order
  have hp : pendingReads s ≠ 0 := by simp [pendingReads, hread]
  have hd := readDone_of_pendingReads h hp
  have hhead : s.dataLastDelay.headD false = false := by
    by_contra hd
    simp only [Bool.not_eq_false] at hd
    exact hp (inflight_of_lastHead h hd).2.1
  rw [step_readDone c s i h.running, lastInSight_eq_head h, hhead]
  simp [hd]

/-- The control invariant is preserved by every clock without reset. -/
theorem control_step (h : Control c s) (hr : i.reset = false) :
    Control c (step c s i) where
  running := step_running h hr
  readyLen := by rw [step_dataReadyDelay]; exact length_shiftDown h.readyLen _
  lastLen := by rw [step_dataLastDelay]; exact length_shiftDown h.lastLen _
  lastReady := step_lastReady h
  opening := step_opening h
  writing := step_writing h
  reading := step_reading h
  crossing := step_crossing h
  busy := step_busy h
  burst := step_burst h
  outstanding := step_outstanding h hr

end Step

theorem arbiter_lt {c : Config} {s : State} {i : Input}
    (h : s.curPort < c.ports) : arbiter c s i < c.ports := by
  unfold arbiter
  cases hf : ((List.range c.ports).map (fun k => (s.curPort + (k + 1)) % c.ports)).find?
      (fun n => (i.req n).strobe) with
  | none => exact h
  | some n =>
      obtain ⟨k, -, rfl⟩ := List.mem_map.mp (List.mem_of_find?_eq_some hf)
      exact Nat.mod_lt _ c.ports_pos

theorem flags_replicate_false (m : Nat) (last : List Bool) :
    flags (List.replicate m false) last = [] := by
  simp only [flags, List.map_eq_nil_iff, List.filter_eq_nil_iff]
  intro p hp
  have := (List.of_mem_zip hp).1
  simp [List.mem_replicate] at this
  simp [this.2]

theorem control_of_started {c : Config} {s : State} (h : Started c s) :
    Control c s where
  running := by simp [h.idle]
  readyLen := by simp [h.readyDelay]
  lastLen := by simp [h.lastDelay]
  lastReady := by
    intro p hp hl
    rw [h.lastDelay] at hp
    have := (List.of_mem_zip hp).2
    simp [List.mem_replicate, hl] at this
  opening := by simp [h.idle]
  writing := by simp [h.idle]
  reading := by simp [h.idle]
  crossing := by simp [h.idle]
  busy := by simp [h.idle]
  burst := by simp [h.burst]
  outstanding := by
    simp [h.readDone, inflight, h.readyDelay, flags_replicate_false, pendingReads, h.idle,
      h.readyForNew]

end Sdram
end F32c
