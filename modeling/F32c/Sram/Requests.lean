import F32c.Sram.Fairness

/-!
# Requests and their acknowledgements

The results of this module are about every run of the controller and the chip that
begins with an idle controller, for any number of ports that hold their requests.
Whatever the requests are, an acknowledgement belongs to the request of its port, a read
returns the words of all earlier writes, and a write is seen by the snooping ports once.
That every request is acknowledged needs ports that do not write to upper halves alone:
two ports show how such a port keeps another one waiting for ever.
-/

namespace F32c
namespace Sram

variable {n : Nat}

section Statements

variable (c : Config n) (y : System n) (inp : Nat → Input n)

/-- What holds in every run, whether or not all requests are served. -/
structure Sound : Prop where
  phase : ∀ t, (systemAt c y inp t).ctl.phase ≤ c.readTerminate
  request : ∀ t p, ready c y inp t p = true → ((inp t).bus p).addrStrobe = true
  once : ∀ t p, ready c y inp t p = true → ready c y inp (t + 1) p = false
  read : ∀ t p, ready c y inp t p = true → ((inp t).bus p).write = false →
    (systemAt c y inp t).ctl.busOut = accepted c y inp t ((inp t).bus p).word
  snoop : ∀ t, (systemAt c y inp t).ctl.snoopCycle = true ↔
    ∃ p, ready c y inp t p = true ∧ ((inp t).bus p).write = true
  written : ∀ t p, ready c y inp t p = true → ((inp t).bus p).write = true →
    (systemAt c y inp t).ctl.snoopAddr = ((inp t).bus p).word ∧
      accepted c y inp (t + 1) = writeWord (accepted c y inp t) ((inp t).bus p)
  contents : ∀ t, (systemAt c y inp t).ctl.phase = 0 ∨
      (systemAt c y inp t).ctl.writeCycle = false →
    words (systemAt c y inp t).mem = accepted c y inp (t + 1)

/-- Every request is acknowledged at some clock, and not before it. -/
def Served : Prop :=
  ∀ t p, ((inp t).bus p).addrStrobe = true →
    ∃ u, t ≤ u ∧ ready c y inp u p = true ∧ ((inp u).bus p) = (inp t).bus p ∧
      ∀ v, t ≤ v → v < u → ready c y inp v p = false

end Statements

section Run

variable {c : Config n} {y : System n} {inp : Nat → Input n}

/-- A port that is acknowledged in this clock is not acknowledged in the next one. -/
theorem ready_once (hwait : 3 ≤ c.waitCycles) {t : Nat} {p : Fin n}
    (hquiet : (ctlAt c y inp t).phase = c.waitCycles * 2 - 1 → ∀ p, ready c y inp t p = false)
    (h : ready c y inp t p = true) : ready c y inp (t + 1) p = false := by
  have hphase : (ctlAt c y inp t).phase ≠ c.waitCycles * 2 - 1 := by
    intro hend
    rw [hquiet hend p] at h
    simp at h
  cases hstart : startsAt c y inp t with
  | false =>
      exact noAck_of_phase hstart hphase p
  | true =>
      rw [Bool.eq_false_iff]
      intro hack
      rcases ((ctl_of_startsAt hwait hstart).2.2.2 p).1 hack with ⟨-, hend⟩ | ⟨hnext, -⟩
      · exact hphase hend
      · have hidle : ready c y inp t (ctlAt c y inp t).nextPort = false := by
          simp only [startsAt, starts, Bool.and_eq_true, Bool.or_eq_true, beq_iff_eq,
            Bool.not_eq_true'] at hstart
          exact (hstart.2.resolve_right fun hend => hphase hend.1.1).2
        rw [← hnext, h] at hidle
        simp at hidle

/-- While no write is going on, nothing is on its way to the chip. -/
theorem Mode.words_eq {s : State n} {mem : Mem} {w : Words} {bus : Fin n → Req}
    (h : Mode c s mem w bus) (hwait : 3 ≤ c.waitCycles)
    (hs : s.phase = 0 ∨ s.writeCycle = false) : words mem = w := by
  cases h with
  | idle _ _ hmem => exact hmem
  | read _ _ _ _ _ hmem => exact hmem
  | writeLo _ hphase hcycle =>
      rw [hcycle] at hs
      rcases hs with hzero | hread
      · omega
      · simp at hread
  | writeMid _ hphase hcycle =>
      rw [hcycle] at hs
      rcases hs with hzero | hread
      · omega
      · simp at hread
  | writeHi _ hphase hcycle =>
      rw [hcycle] at hs
      rcases hs with hzero | hread
      · omega
      · simp at hread

theorem Mode.phase_le {s : State n} {mem : Mem} {w : Words} {bus : Fin n → Req}
    (h : Mode c s mem w bus) (hwait : 3 ≤ c.waitCycles) : s.phase ≤ c.waitCycles * 2 - 1 := by
  cases h <;> omega

/-- The port whose write is acknowledged is the one that the invariant names. -/
theorem Acks.eq_accepted {s : State n} {w : Words} {bus : Fin n → Req} {fin acc : Option (Fin n)}
    {p : Fin n} (h : Acks s w bus fin acc) (hack : s.ackBitmap p = true)
    (hwrite : (bus p).write = true) : acc = some p := by
  rcases (h.ack p).1 hack with hfin | hacc
  · rw [(h.finished p hfin).2.1] at hwrite
    simp at hwrite
  · exact hacc

theorem Acks.eq_finished {s : State n} {w : Words} {bus : Fin n → Req} {fin acc : Option (Fin n)}
    {p : Fin n} (h : Acks s w bus fin acc) (hack : s.ackBitmap p = true)
    (hwrite : (bus p).write = false) : fin = some p := by
  rcases (h.ack p).1 hack with hfin | hacc
  · exact hfin
  · rw [(h.written p hacc).2.1] at hwrite
    simp at hwrite

theorem sound_of_inv (hwait : 3 ≤ c.waitCycles)
    (hinv : ∀ t, Inv c (ctlAt c y inp t) (systemAt c y inp t).mem (accepted c y inp t)
      (inp t).bus) : Sound c y inp where
  phase t := (hinv t).mode.phase_le hwait
  request t p hack := by
    obtain ⟨fin, acc, hacks⟩ := (hinv t).acks
    rcases (hacks.ack p).1 hack with hfin | hacc
    · exact (hacks.finished p hfin).1
    · exact (hacks.written p hacc).1
  once t p hack := ready_once hwait (hinv t).quiet hack
  read t p hack hwrite := by
    obtain ⟨fin, acc, hacks⟩ := (hinv t).acks
    exact (hacks.finished p (hacks.eq_finished hack hwrite)).2.2
  snoop t := by
    obtain ⟨fin, acc, hacks⟩ := (hinv t).acks
    constructor
    · intro hsnoop
      cases hacc : acc with
      | none =>
          rw [hacks.snoop hacc] at hsnoop
          simp at hsnoop
      | some p =>
          exact ⟨p, (hacks.ack p).2 (.inr hacc), (hacks.written p hacc).2.1⟩
    · rintro ⟨p, hack, hwrite⟩
      exact (hacks.written p (hacks.eq_accepted hack hwrite)).2.2.1
  written t p hack hwrite := by
    obtain ⟨fin, acc, hacks⟩ := (hinv t).acks
    obtain rfl := hacks.eq_accepted hack hwrite
    exact ⟨(hacks.written p rfl).2.2.2, hacks.acceptWrites_some⟩
  contents t := (hinv t).mode.words_eq hwait

/-- A request that is held is acknowledged, unless its port waits for ever. -/
theorem served_of_not_waits (hholds : HoldsRequests c y inp)
    (hnot : ∀ q t, ¬Waits c y inp q t) : Served c y inp := by
  intro t p hstrobe
  have hheld : ∀ d, (∀ v, t ≤ v → v < t + d → ready c y inp v p = false) →
      (inp (t + d)).bus p = (inp t).bus p := by
    intro d
    induction d with
    | zero =>
        intro _
        rfl
    | succ d ih =>
        intro hquiet
        have hprev := ih fun v hv hlt => hquiet v hv (by omega)
        rw [← hprev]
        exact hholds (t + d) p (by rw [hprev]; exact hstrobe) (hquiet _ (by omega) (by omega))
  have hready : ∃ d, ready c y inp (t + d) p = true := by
    by_contra hnever
    simp only [not_exists, Bool.not_eq_true] at hnever
    refine hnot p t fun v hv => ?_
    obtain ⟨d, rfl⟩ := Nat.exists_eq_add_of_le hv
    refine ⟨?_, hnever d⟩
    rw [hheld d fun w hw _ => ?_]
    · exact hstrobe
    · obtain ⟨e, rfl⟩ := Nat.exists_eq_add_of_le hw
      exact hnever e
  have hfirst : ∀ v, t ≤ v → v < t + Nat.find hready → ready c y inp v p = false := by
    intro v hv hlt
    obtain ⟨e, rfl⟩ := Nat.exists_eq_add_of_le hv
    rw [Bool.eq_false_iff]
    exact Nat.find_min hready (by omega)
  exact ⟨t + Nat.find hready, Nat.le_add_right _ _, Nat.find_spec hready, hheld _ hfirst, hfirst⟩

end Run

section TwoPorts

/-- Two ports of the same rank. -/
def twoPorts : Config 2 := ⟨none, 3⟩

/-- The controller after the FPGA is configured, with cleared memory. -/
def powerUp : System 2 where
  ctl :=
    { a := 0#19
      d := none
      wel := true
      lbl := true
      ubl := true
      writeCycle := false
      byteSelHi := 0#2
      outWord := 0#32
      busOut := 0#32
      phase := 0
      curPort := 0
      nextPort := 0
      lastPort := 0
      prioPending := false
      ackBitmap := fun _ => false
      snoopCycle := false
      snoopAddr := 0#18 }
  mem := fun _ => 0#16

theorem powerUp_idle : Idle powerUp.ctl :=
  ⟨rfl, rfl, fun _ => rfl, rfl⟩

/-- Port 0 writes whole words, and port 1 reads. -/
def wordInput (_ : Nat) : Input 2 :=
  ⟨fun p => ⟨0#28, 0#32, 0b1111#4, true, p == 0⟩, 0#16⟩

/--
In every run that begins with an idle controller the acknowledgements are right, and
every request is served if no port of the round writes to upper halves alone.
-/
theorem requests_served (c : Config n) (y : System n) (inp : Nat → Input n)
    (hwait : 3 ≤ c.waitCycles) (hidle : Idle y.ctl) (hholds : HoldsRequests c y inp) :
    Sound c y inp ∧ (RoundWritesLower c inp → Served c y inp) := by
  have hinv := inv_at hwait hidle hholds
  have hrange : ∀ t, (ctlAt c y inp t).phase ≤ c.waitCycles * 2 - 1 :=
    fun t => (hinv t).mode.phase_le hwait
  refine ⟨sound_of_inv hwait hinv, fun hlower => served_of_not_waits hholds ?_⟩
  intro q t
  by_cases hq : c.prioPort = some q
  · exact not_waits_prio hwait hrange hholds hq
  · exact not_waits_round hwait hrange hholds hlower (Ne.symm hq)

/-- Two ports that ask all the time are served in turn. -/
theorem requests_served_twoPorts :
    Sound twoPorts powerUp wordInput ∧ Served twoPorts powerUp wordInput := by
  have h := requests_served twoPorts powerUp wordInput (by decide) powerUp_idle
    (fun _ _ _ _ => rfl)
  refine ⟨h.1, h.2 ?_⟩
  intro t p _ _
  simp [wordInput, Req.upperOnly]

end TwoPorts

section UpperHalves

/-- Port 0 writes the upper half of a word again and again, and port 1 reads. -/
def upperBus : Fin 2 → Req
  | 0 => ⟨0#28, 0#32, 0b1100#4, true, true⟩
  | 1 => ⟨1#28, 0#32, 0b1111#4, true, false⟩

def upperInput (_ : Nat) : Input 2 := ⟨upperBus, 0#16⟩

/-- The arbiter keeps selecting port 0, since its writes have no phase 1. -/
structure Stuck (t : Nat) : Prop where
  lastPort : (ctlAt twoPorts powerUp upperInput t).lastPort = 1
  nextPort : (ctlAt twoPorts powerUp upperInput t).nextPort = 0
  curPort : (ctlAt twoPorts powerUp upperInput t).curPort = 0
  prioPending : (ctlAt twoPorts powerUp upperInput t).prioPending = false
  phase : (ctlAt twoPorts powerUp upperInput t).phase ≠ 1
  ready : ready twoPorts powerUp upperInput t 1 = false
  cycle : (ctlAt twoPorts powerUp upperInput t).phase = 0 ∨
    (ctlAt twoPorts powerUp upperInput t).writeCycle = true

theorem Stuck.next {t : Nat} (h : Stuck t) : Stuck (t + 1) := by
  obtain ⟨hnext, hlast, hprio⟩ := @arbiter_succ 2 twoPorts powerUp upperInput t
  have hround : Sram.nextPort twoPorts (ctlAt twoPorts powerUp upperInput t) upperBus = 0 := by
    rw [Sram.nextPort, if_neg (by simp [h.prioPending]), roundRobin, h.lastPort]
    decide
  have hlast' : (ctlAt twoPorts powerUp upperInput (t + 1)).lastPort = 1 := by
    rw [hlast, if_neg (by simp [h.phase]), h.lastPort]
  cases hstart : startsAt twoPorts powerUp upperInput t with
  | true =>
      obtain ⟨hcur, hphase, hcycle, hack⟩ := ctl_of_startsAt (by decide) hstart
      rw [h.nextPort] at hcur hphase hcycle hack
      refine ⟨hlast', hnext.trans hround, hcur, hprio, ?_, ?_, .inr hcycle⟩
      · rw [hphase]
        change (if (upperBus 0).upperOnly = true then twoPorts.waitCycles else 1) ≠ 1
        decide
      · rw [Bool.eq_false_iff]
        intro hready
        rcases (hack 1).1 hready with ⟨hone, -⟩ | ⟨hone, -⟩
        · rw [h.curPort] at hone
          simp at hone
        · simp at hone
  | false =>
      obtain ⟨hcur, hphase, hcycle, hack⟩ := ctl_of_not_startsAt hstart
      refine ⟨hlast', hnext.trans hround, hcur.trans h.curPort, hprio, ?_, ?_, ?_⟩
      · omega
      · rw [Bool.eq_false_iff]
        intro hready
        have hone := ((hack 1).1 hready).1
        rw [h.curPort] at hone
        simp at hone
      · rcases hphase with ⟨hzero, -⟩ | ⟨hbusy, -⟩
        · exact .inl hzero
        · exact .inr ((hcycle hbusy).trans (h.cycle.resolve_left hbusy))

theorem stuck_first : Stuck 11 :=
  ⟨rfl, rfl, rfl, rfl, by decide, rfl, .inr rfl⟩

theorem stuck_later (d : Nat) : Stuck (11 + d) := by
  induction d with
  | zero =>
      exact stuck_first
  | succ d ih =>
      exact ih.next

theorem upperInput_holds : HoldsRequests twoPorts powerUp upperInput :=
  fun _ _ _ _ => rfl

/-- Port 1 is acknowledged once, and never again. -/
theorem upperHalves_not_served :
    3 ≤ twoPorts.waitCycles ∧ Idle powerUp.ctl ∧ HoldsRequests twoPorts powerUp upperInput ∧
      ¬Served twoPorts powerUp upperInput := by
  refine ⟨by decide, powerUp_idle, upperInput_holds, ?_⟩
  intro hserved
  obtain ⟨u, hu, hready, -, -⟩ := hserved 11 1 rfl
  obtain ⟨d, rfl⟩ := Nat.exists_eq_add_of_le hu
  rw [(stuck_later d).ready] at hready
  simp at hready

end UpperHalves

end Sram
end F32c
