import F32c.Sram.Invariant

/-!
# Every request is served

The round-robin selection begins behind `R_last_port`, and `R_last_port` is updated in
phase 1 of a transaction.  A write to the upper half alone has no phase 1, so a port that
writes only upper halves can be selected again and again while another one waits.
Without such writes every request is acknowledged: a waiting port comes closer to its
turn with each transaction of another port, and the priority port has at most every
second transaction.
-/

namespace F32c
namespace Sram

variable {n : Nat} {c : Config n}

section Control

variable {s : State n} {mem : Mem} {bus : Fin n → Req} {float : BitVec 16}

/-- A transaction starts in this clock. -/
def starts (c : Config n) (s : State n) (bus : Fin n → Req) : Bool :=
  (bus s.nextPort).addrStrobe &&
    (s.phase == 0 && !s.ackBitmap s.nextPort ||
      s.phase == c.waitCycles * 2 - 1 && !s.writeCycle && s.curPort != s.nextPort)

theorem startTransaction_arbiter (r : State n) :
    (startTransaction c s bus r).nextPort = r.nextPort ∧
      (startTransaction c s bus r).lastPort = r.lastPort ∧
      (startTransaction c s bus r).prioPending = r.prioPending := by
  unfold startTransaction
  dsimp only
  split <;> exact ⟨rfl, rfl, rfl⟩

theorem writeStep_arbiter (r : State n) :
    (writeStep c s r).nextPort = r.nextPort ∧ (writeStep c s r).lastPort = r.lastPort ∧
      (writeStep c s r).prioPending = r.prioPending := by
  unfold writeStep terminateWrite
  split_ifs <;> exact ⟨rfl, rfl, rfl⟩

theorem readStep_arbiter (r : State n) :
    (readStep c s bus r).nextPort = r.nextPort ∧ (readStep c s bus r).lastPort = r.lastPort ∧
      (readStep c s bus r).prioPending = r.prioPending := by
  unfold readStep
  split_ifs
  · exact ⟨rfl, rfl, rfl⟩
  · exact startTransaction_arbiter _
  · exact ⟨rfl, rfl, rfl⟩
  · exact ⟨rfl, rfl, rfl⟩

theorem idleStep_arbiter (r : State n) :
    (idleStep c s bus r).nextPort = r.nextPort ∧ (idleStep c s bus r).lastPort = r.lastPort ∧
      (idleStep c s bus r).prioPending = r.prioPending := by
  unfold idleStep
  split_ifs
  · exact ⟨rfl, rfl, rfl⟩
  · exact startTransaction_arbiter _

/-- The arbiter registers do not depend on the state machine. -/
theorem next_arbiter :
    (next c s mem bus float).nextPort = nextPort c s bus ∧
      (next c s mem bus float).lastPort =
        (if s.phase == 1 && some s.curPort != c.prioPort then s.curPort else s.lastPort) ∧
      (next c s mem bus float).prioPending = prioPendingNext c s bus := by
  rw [next, step]
  split
  · exact idleStep_arbiter _
  · split
    · exact writeStep_arbiter _
    · exact readStep_arbiter _

theorem startTransaction_port {r : State n} (hcycle : r.writeCycle = false) :
    (startTransaction c s bus r).curPort = s.nextPort ∧
      (startTransaction c s bus r).phase =
        (if (bus s.nextPort).upperOnly then c.waitCycles else 1) ∧
      (startTransaction c s bus r).writeCycle = (bus s.nextPort).write ∧
      ∀ p, (startTransaction c s bus r).ackBitmap p = true ↔
        r.ackBitmap p = true ∨ p = s.nextPort ∧ (bus s.nextPort).write = true := by
  cases hwrite : (bus s.nextPort).write with
  | false =>
      simp [startTransaction_read hwrite, hcycle, Req.upperOnly, hwrite]
  | true =>
      rw [startTransaction_write hwrite]
      refine ⟨rfl, rfl, rfl, ?_⟩
      intro p
      by_cases hp : p = s.nextPort
      · simp [hp]
      · simp [hp]

/-- A clock that starts a transaction acknowledges a write, and a read that ends. -/
theorem next_of_starts (hwait : 3 ≤ c.waitCycles) (h : starts c s bus = true) :
    (next c s mem bus float).curPort = s.nextPort ∧
      (next c s mem bus float).phase =
        (if (bus s.nextPort).upperOnly then c.waitCycles else 1) ∧
      (next c s mem bus float).writeCycle = (bus s.nextPort).write ∧
      ∀ p, (next c s mem bus float).ackBitmap p = true ↔
        (p = s.curPort ∧ s.phase = c.waitCycles * 2 - 1) ∨
          p = s.nextPort ∧ (bus s.nextPort).write = true := by
  simp only [starts, Bool.and_eq_true, Bool.or_eq_true, beq_iff_eq, Bool.not_eq_true',
    bne_iff_ne] at h
  obtain ⟨hstrobe, ⟨hphase, hack⟩ | ⟨⟨hphase, hcycle⟩, hne⟩⟩ := h
  · have hgo : (s.ackBitmap s.nextPort || !(bus s.nextPort).addrStrobe) = false := by
      simp [hack, hstrobe]
    have hend : s.phase ≠ c.waitCycles * 2 - 1 := by omega
    rw [next, step, if_pos hphase, idleStep, if_neg (by simp [hgo])]
    obtain ⟨hcur, hnext, hwrite, hacks⟩ := @startTransaction_port n c s bus
      { defaults c s bus (sramD s mem float) with
        writeCycle := false, wel := true, ubl := false, lbl := false, d := none } rfl
    refine ⟨hcur, hnext, hwrite, fun p => (hacks p).trans ?_⟩
    simp [defaults, hend]
  · rw [next, step, if_neg (by omega), if_neg (by simp [hcycle]), readStep, Config.readUpperHalf,
      Config.readTerminate, if_neg (by omega), if_pos hphase, if_pos ⟨hne, hstrobe⟩]
    obtain ⟨hcur, hnext, hwrite, hacks⟩ := @startTransaction_port n c s bus
      { defaults c s bus (sramD s mem float) with
        ackBitmap := Function.update (fun _ => false) s.curPort true } hcycle
    refine ⟨hcur, hnext, hwrite, fun p => (hacks p).trans ?_⟩
    by_cases hp : p = s.curPort
    · simp [hphase, hp]
    · simp [hp]

theorem writeStep_port (r : State n) :
    (writeStep c s r).curPort = r.curPort ∧
      ((writeStep c s r).phase = 0 ∧
          (s.phase = c.waitCycles - 1 ∨ s.phase = c.waitCycles * 2 - 1) ∨
        (writeStep c s r).phase = s.phase + 1) ∧
      (writeStep c s r).writeCycle = r.writeCycle ∧
      (writeStep c s r).ackBitmap = r.ackBitmap := by
  unfold writeStep terminateWrite Config.writeUpperHalf Config.writeTerminate
  split_ifs <;> simp_all

/-- A clock that starts nothing acknowledges a read that ends. -/
theorem next_of_not_starts (h : starts c s bus = false) :
    (next c s mem bus float).curPort = s.curPort ∧
      ((next c s mem bus float).phase = 0 ∧
          (s.phase = 0 ∨ s.phase = c.waitCycles - 1 ∧ s.writeCycle = true ∨
            s.phase = c.waitCycles * 2 - 1) ∨
        s.phase ≠ 0 ∧ (next c s mem bus float).phase = s.phase + 1) ∧
      (s.phase ≠ 0 → (next c s mem bus float).writeCycle = s.writeCycle) ∧
      ∀ p, (next c s mem bus float).ackBitmap p = true ↔
        p = s.curPort ∧ s.phase = c.waitCycles * 2 - 1 ∧ s.phase ≠ c.waitCycles - 1 ∧
          s.phase ≠ 0 ∧ s.writeCycle = false := by
  rw [next, step]
  by_cases hphase : s.phase = 0
  · have hgo : (s.ackBitmap s.nextPort || !(bus s.nextPort).addrStrobe) = true := by
      cases hack : s.ackBitmap s.nextPort <;> simp_all [starts]
    rw [if_pos hphase, idleStep, if_pos hgo]
    simp [hphase, defaults]
  cases hcycle : s.writeCycle with
  | true =>
      obtain ⟨hcur, hnext, hwrite, hack⟩ := @writeStep_port n c s
        (defaults c s bus (sramD s mem float))
      rw [if_neg hphase, if_pos rfl, hcur, hwrite, hack]
      refine ⟨rfl, ?_, ?_, ?_⟩
      · rcases hnext with ⟨hz, hlow | hend⟩ | hsucc
        · exact .inl ⟨hz, .inr (.inl ⟨hlow, rfl⟩)⟩
        · exact .inl ⟨hz, .inr (.inr hend)⟩
        · exact .inr ⟨hphase, hsucc⟩
      · simp [defaults, hcycle]
      · simp [defaults]
  | false =>
      rw [if_neg hphase, if_neg (by simp), readStep, Config.readUpperHalf, Config.readTerminate]
      split_ifs with hupper hend hstart
      · refine ⟨rfl, .inr ⟨hphase, rfl⟩, fun _ => hcycle, ?_⟩
        simp [defaults, hupper]
      · simp_all [starts]
      · refine ⟨rfl, .inl ⟨rfl, .inr (.inr hend)⟩, fun _ => hcycle, ?_⟩
        intro p
        by_cases hp : p = s.curPort
        · rw [hp]
          exact iff_of_true (by simp) ⟨rfl, hend, hupper, hphase, rfl⟩
        · simp [defaults, hp]
      · simp [defaults, hphase, hcycle, hupper, hend]

end Control

section RoundRobin

variable {s : State n} {bus : Fin n → Req}

/-- How far behind `p` the port `q` comes in the round-robin order. -/
def gap (p q : Fin n) : Nat := (q + (n - 1 - p)) % n

theorem gap_lt (p q : Fin n) : gap p q < n := by
  have := p.isLt
  exact Nat.mod_lt _ (by omega)

theorem portAfter_gap (p q : Fin n) : portAfter p (gap p q + 1) = q := by
  have hp := p.isLt
  have hq := q.isLt
  apply Fin.ext
  have hsum : p.val + ((q.val + (n - 1 - p.val)) % n + 1) ≡ q.val [MOD n] := by
    calc p.val + ((q.val + (n - 1 - p.val)) % n + 1)
        ≡ p.val + (q.val + (n - 1 - p.val) + 1) [MOD n] :=
          Nat.ModEq.add_left _ (Nat.ModEq.add_right _ (Nat.mod_modEq _ _))
      _ = q.val + n := by omega
      _ ≡ q.val [MOD n] := by simp [Nat.ModEq]
  simpa [portAfter, gap, Nat.ModEq, Nat.mod_eq_of_lt hq] using hsum

theorem gap_eq (p q : Fin n) : gap p q = if p.val < q.val then q.val - 1 - p else q + (n - 1 - p) := by
  have hp := p.isLt
  have hq := q.isLt
  rw [gap]
  split
  · rw [Nat.mod_eq_sub_mod (by omega), Nat.mod_eq_of_lt (by omega)]
    omega
  · exact Nat.mod_eq_of_lt (by omega)

/-- A port that is passed on the way to `q` is closer to it. -/
theorem gap_portAfter (p q : Fin n) {j : Nat} (h : j < gap p q) :
    gap (portAfter p (j + 1)) q + (j + 1) = gap p q := by
  have hp := p.isLt
  have hq := q.isLt
  have hval : (portAfter p (j + 1)).val = if p.val + (j + 1) < n then p + (j + 1)
      else p + (j + 1) - n := by
    have := gap_lt p q
    change (p.val + (j + 1)) % n = _
    split
    · exact Nat.mod_eq_of_lt ‹_›
    · rw [Nat.mod_eq_sub_mod (by omega), Nat.mod_eq_of_lt (by omega)]
  rw [gap_eq] at h
  rw [gap_eq, gap_eq, hval]
  split_ifs at h ⊢ <;> omega

/-- The selected port takes part, and comes no later than any other that does. -/
theorem roundRobin_spec {q : Fin n} (hq : candidate c bus q = true) :
    candidate c bus (roundRobin c s bus) = true ∧
      (roundRobin c s bus = q ∨ gap (roundRobin c s bus) q < gap s.lastPort q) := by
  unfold roundRobin
  cases hfind : (List.range n).find? fun j => candidate c bus (portAfter s.lastPort (j + 1)) with
  | none =>
      rw [List.find?_eq_none] at hfind
      have hnot := hfind (gap s.lastPort q) (List.mem_range.2 (gap_lt _ _))
      rw [portAfter_gap] at hnot
      exact absurd hq hnot
  | some j =>
      rw [List.find?_range_eq_some] at hfind
      obtain ⟨hcand, -, hfirst⟩ := hfind
      refine ⟨hcand, ?_⟩
      rcases Nat.lt_trichotomy j (gap s.lastPort q) with hlt | heq | hgt
      · have := gap_portAfter s.lastPort q hlt
        right
        dsimp only
        omega
      · left
        dsimp only
        rw [heq, portAfter_gap]
      · have hnot := hfirst _ hgt
        simp [portAfter_gap, hq] at hnot

end RoundRobin

section Run

variable {y : System n} {inp : Nat → Input n} {q : Fin n} {t₀ : Nat}

variable (c y inp) in
/-- The registers at clock `t`. -/
abbrev ctlAt (t : Nat) : State n := (systemAt c y inp t).ctl

variable (c y inp) in
/-- A transaction starts at clock `t`. -/
def startsAt (t : Nat) : Bool := starts c (ctlAt c y inp t) (inp t).bus

variable (c y inp) in
/-- The port `q` asks from clock `t₀` on, and is never acknowledged. -/
def Waits (q : Fin n) (t₀ : Nat) : Prop :=
  ∀ t, t₀ ≤ t → ((inp t).bus q).addrStrobe = true ∧ ready c y inp t q = false

/-- The invariant holds at every clock. -/
theorem inv_at (hwait : 3 ≤ c.waitCycles) (hidle : Idle y.ctl) (hholds : HoldsRequests c y inp)
    (t : Nat) :
    Inv c (ctlAt c y inp t) (systemAt c y inp t).mem (accepted c y inp t) (inp t).bus := by
  induction t with
  | zero =>
      exact inv_quiet (funext hidle.ackBitmap) hidle.snoopCycle (.idle hidle.phase hidle.wel rfl)
  | succ t ih =>
      exact ih.next hwait (hholds t)

variable (hwait : 3 ≤ c.waitCycles)
variable (hrange : ∀ t, (ctlAt c y inp t).phase ≤ c.waitCycles * 2 - 1)
variable (hholds : HoldsRequests c y inp)

theorem phase_of_startsAt {a : Nat} (h : startsAt c y inp a = true) :
    (ctlAt c y inp a).phase = 0 ∨ (ctlAt c y inp a).phase = c.waitCycles * 2 - 1 := by
  simp only [startsAt, starts, Bool.and_eq_true, Bool.or_eq_true, beq_iff_eq] at h
  rcases h.2 with hidle | hend
  · exact .inl hidle.1
  · exact .inr hend.1.1

include hwait in
theorem ctl_of_startsAt {t : Nat} (h : startsAt c y inp t = true) :
    (ctlAt c y inp (t + 1)).curPort = (ctlAt c y inp t).nextPort ∧
      (ctlAt c y inp (t + 1)).phase =
        (if ((inp t).bus (ctlAt c y inp t).nextPort).upperOnly then c.waitCycles else 1) ∧
      (ctlAt c y inp (t + 1)).writeCycle = ((inp t).bus (ctlAt c y inp t).nextPort).write ∧
      ∀ p, ready c y inp (t + 1) p = true ↔
        (p = (ctlAt c y inp t).curPort ∧ (ctlAt c y inp t).phase = c.waitCycles * 2 - 1) ∨
          p = (ctlAt c y inp t).nextPort ∧
            ((inp t).bus (ctlAt c y inp t).nextPort).write = true :=
  next_of_starts hwait h

theorem ctl_of_not_startsAt {t : Nat} (h : startsAt c y inp t = false) :
    (ctlAt c y inp (t + 1)).curPort = (ctlAt c y inp t).curPort ∧
      ((ctlAt c y inp (t + 1)).phase = 0 ∧
          ((ctlAt c y inp t).phase = 0 ∨
            (ctlAt c y inp t).phase = c.waitCycles - 1 ∧ (ctlAt c y inp t).writeCycle = true ∨
            (ctlAt c y inp t).phase = c.waitCycles * 2 - 1) ∨
        (ctlAt c y inp t).phase ≠ 0 ∧
          (ctlAt c y inp (t + 1)).phase = (ctlAt c y inp t).phase + 1) ∧
      ((ctlAt c y inp t).phase ≠ 0 →
        (ctlAt c y inp (t + 1)).writeCycle = (ctlAt c y inp t).writeCycle) ∧
      ∀ p, ready c y inp (t + 1) p = true ↔
        p = (ctlAt c y inp t).curPort ∧ (ctlAt c y inp t).phase = c.waitCycles * 2 - 1 ∧
          (ctlAt c y inp t).phase ≠ c.waitCycles - 1 ∧ (ctlAt c y inp t).phase ≠ 0 ∧
          (ctlAt c y inp t).writeCycle = false :=
  next_of_not_starts h

theorem arbiter_succ (t : Nat) :
    (ctlAt c y inp (t + 1)).nextPort = nextPort c (ctlAt c y inp t) (inp t).bus ∧
      (ctlAt c y inp (t + 1)).lastPort =
        (if (ctlAt c y inp t).phase == 1 && some (ctlAt c y inp t).curPort != c.prioPort
          then (ctlAt c y inp t).curPort else (ctlAt c y inp t).lastPort) ∧
      (ctlAt c y inp (t + 1)).prioPending = prioPendingNext c (ctlAt c y inp t) (inp t).bus :=
  next_arbiter

variable (c y inp) in
/--
At clocks `t` and `t + 1` the transaction of the port `p`, a write or not, is going on;
at the second nothing is acknowledged and nothing starts.
-/
structure Serving (p : Fin n) (write : Bool) (t : Nat) : Prop where
  before : (ctlAt c y inp t).phase ≠ 0
  curBefore : (ctlAt c y inp t).curPort = p
  phase : 2 ≤ (ctlAt c y inp (t + 1)).phase
  cur : (ctlAt c y inp (t + 1)).curPort = p
  cycle : (ctlAt c y inp (t + 1)).writeCycle = write
  noAck : ∀ r, ready c y inp (t + 1) r = false
  noStart : startsAt c y inp (t + 1) = false

/-- A port that is not acknowledged in a clock that is not the last one of a read. -/
theorem noAck_of_phase {t : Nat} (h : startsAt c y inp t = false)
    (hphase : (ctlAt c y inp t).phase ≠ c.waitCycles * 2 - 1) (p : Fin n) :
    ready c y inp (t + 1) p = false := by
  rw [Bool.eq_false_iff]
  intro hack
  exact hphase (((ctl_of_not_startsAt h).2.2.2 p).1 hack).2.1

include hwait in
theorem serving_of_startsAt {a : Nat} (h : startsAt c y inp a = true) :
    Serving c y inp (ctlAt c y inp a).nextPort
      ((inp a).bus (ctlAt c y inp a).nextPort).write (a + 1) := by
  obtain ⟨hcur, hphase, hcycle, -⟩ := ctl_of_startsAt hwait h
  have hphase1 : (ctlAt c y inp (a + 1)).phase = 1 ∨
      (ctlAt c y inp (a + 1)).phase = c.waitCycles := by
    rw [hphase]
    split
    · exact .inr rfl
    · exact .inl rfl
  have hstart1 : startsAt c y inp (a + 1) = false := by
    rw [Bool.eq_false_iff]
    intro hs
    have := phase_of_startsAt hs
    omega
  obtain ⟨hcur2, hphase2, hcycle2, -⟩ := ctl_of_not_startsAt hstart1
  have hphase2 : (ctlAt c y inp (a + 1 + 1)).phase = (ctlAt c y inp (a + 1)).phase + 1 := by
    rcases hphase2 with ⟨-, hzero⟩ | ⟨-, hsucc⟩
    · omega
    · exact hsucc
  refine ⟨by omega, hcur, by omega, hcur2.trans hcur, (hcycle2 (by omega)).trans hcycle,
    noAck_of_phase hstart1 (by omega), ?_⟩
  rw [Bool.eq_false_iff]
  intro hs
  have := phase_of_startsAt hs
  omega

variable {p : Fin n} {write : Bool} {t : Nat}

variable (c y inp) in
/-- The transaction of a port comes to its end, or another one starts. -/
def turnAt (t : Nat) : Prop := (ctlAt c y inp t).phase = 0 ∨ startsAt c y inp t = true

include hrange in
theorem Serving.next (h : Serving c y inp p write t) (hturn : ¬turnAt c y inp (t + 1 + 1)) :
    Serving c y inp p write (t + 1) ∧
      (ctlAt c y inp (t + 1 + 1)).phase = (ctlAt c y inp (t + 1)).phase + 1 := by
  have hphase := h.phase
  have hmax := hrange (t + 1 + 1)
  simp only [turnAt, not_or, Bool.not_eq_true] at hturn
  obtain ⟨hcur, hnext, hcycle, -⟩ := ctl_of_not_startsAt h.noStart
  rcases hnext with ⟨hzero, -⟩ | ⟨-, hsucc⟩
  · exact absurd hzero hturn.1
  · refine ⟨⟨by omega, h.cur, by omega, hcur.trans h.cur, (hcycle (by omega)).trans h.cycle,
      noAck_of_phase h.noStart (by omega), hturn.2⟩, hsucc⟩

include hrange in
/-- Every transaction comes to its end. -/
theorem Serving.ends (h : Serving c y inp p write t) :
    ∃ u, t ≤ u ∧ Serving c y inp p write u ∧ turnAt c y inp (u + 1 + 1) := by
  by_contra hnever
  simp only [not_exists, not_and] at hnever
  have hgo : ∀ d, Serving c y inp p write (t + d) ∧ d ≤ (ctlAt c y inp (t + d + 1)).phase := by
    intro d
    induction d with
    | zero =>
        exact ⟨h, Nat.zero_le _⟩
    | succ d ih =>
        obtain ⟨hserving, hle⟩ := ih
        obtain ⟨hserving', hphase⟩ := hserving.next hrange (hnever (t + d) (by omega) hserving)
        exact ⟨hserving', by rw [← Nat.add_assoc]; omega⟩
  have hle := (hgo (c.waitCycles * 2)).2
  have hmax := hrange (t + c.waitCycles * 2 + 1)
  have hphase := hrange (t + 1)
  have hbefore := h.phase
  omega

/-- In the clock in which a transaction ends another one starts, if the arbiter found a request. -/
theorem Serving.startsAt (h : Serving c y inp p write t) (hholds : HoldsRequests c y inp)
    (hturn : turnAt c y inp (t + 1 + 1))
    (hstrobe : ((inp (t + 1)).bus (ctlAt c y inp (t + 1 + 1)).nextPort).addrStrobe = true)
    (hother : (ctlAt c y inp (t + 1 + 1)).nextPort ≠ p) :
    startsAt c y inp (t + 1 + 1) = true := by
  rcases hturn with hzero | hstart
  · have hheld := hholds (t + 1) _ hstrobe (h.noAck _)
    have hack : (ctlAt c y inp (t + 1 + 1)).ackBitmap (ctlAt c y inp (t + 1 + 1)).nextPort =
        false := by
      rw [Bool.eq_false_iff]
      intro hack
      exact hother ((((ctl_of_not_startsAt h.noStart).2.2.2 _).1 hack).1.trans h.cur)
    simp [Sram.startsAt, starts, hheld, hstrobe, hzero, hack]
  · exact hstart

include hwait hrange in
/-- A port that waits is never selected. -/
theorem Waits.ne_nextPort (hq : Waits c y inp q t₀) {a : Nat} (ha : t₀ ≤ a)
    (h : Sram.startsAt c y inp a = true) : (ctlAt c y inp a).nextPort ≠ q := by
  rintro rfl
  have hserving := serving_of_startsAt hwait h
  obtain ⟨-, -, -, hack⟩ := ctl_of_startsAt hwait h
  cases hwrite : ((inp a).bus (ctlAt c y inp a).nextPort).write with
  | true =>
      have hready := (hack (ctlAt c y inp a).nextPort).2 (.inr ⟨rfl, hwrite⟩)
      rw [(hq (a + 1) (by omega)).2] at hready
      simp at hready
  | false =>
      rw [hwrite] at hserving
      obtain ⟨u, hu, hserving', hturn⟩ := hserving.ends hrange
      obtain ⟨hcur, hphase, -, hack⟩ := ctl_of_not_startsAt hserving'.noStart
      have hphase' := hserving'.phase
      have hmax := hrange (u + 1 + 1)
      by_cases hzero : (ctlAt c y inp (u + 1 + 1)).phase = 0
      · -- the read ends, and nothing starts
        have hend : (ctlAt c y inp (u + 1)).phase = c.waitCycles * 2 - 1 := by
          rcases hphase with ⟨-, h0 | ⟨-, hcycle⟩ | hend⟩ | ⟨-, hsucc⟩
          · omega
          · rw [hserving'.cycle] at hcycle
            simp at hcycle
          · exact hend
          · omega
        have hready := (hack (ctlAt c y inp a).nextPort).2
          ⟨hserving'.cur.symm, hend, by omega, by omega, hserving'.cycle⟩
        rw [(hq (u + 1 + 1) (by omega)).2] at hready
        simp at hready
      · -- the read ends, and another transaction starts
        have hstart := hturn.resolve_left hzero
        have hend := (phase_of_startsAt hstart).resolve_left hzero
        have hready := ((ctl_of_startsAt hwait hstart).2.2.2 (ctlAt c y inp a).nextPort).2
          (.inl ⟨(hcur.trans hserving'.cur).symm, hend⟩)
        rw [(hq (u + 1 + 1 + 1) (by omega)).2] at hready
        simp at hready

theorem nextPort_of_pending {r : Fin n} (hpend : (ctlAt c y inp t).prioPending = true)
    (hport : c.prioPort = some r) : (ctlAt c y inp (t + 1)).nextPort = r := by
  rw [(arbiter_succ t).1, nextPort, if_pos hpend, hport]
  rfl

theorem nextPort_of_not_pending (hpend : (ctlAt c y inp t).prioPending = false)
    (hstrobe : ((inp t).bus q).addrStrobe = true) (hne : some q ≠ c.prioPort) :
    candidate c (inp t).bus (ctlAt c y inp (t + 1)).nextPort = true ∧
      ((ctlAt c y inp (t + 1)).nextPort = q ∨
        gap (ctlAt c y inp (t + 1)).nextPort q < gap (ctlAt c y inp t).lastPort q) := by
  have hcand : candidate c (inp t).bus q = true := by
    simp [candidate, hstrobe, hne]
  rw [(arbiter_succ t).1, nextPort, if_neg (by simp [hpend])]
  exact roundRobin_spec hcand

theorem candidate_strobe {bus : Fin n → Req} {p : Fin n} (h : candidate c bus p = true) :
    (bus p).addrStrobe = true ∧ some p ≠ c.prioPort := by
  simpa [candidate] using h

include hrange in
/-- While a port waits, another transaction starts. -/
theorem Waits.exists_start (hq : Waits c y inp q t₀) (hholds : HoldsRequests c y inp)
    (ht : t₀ ≤ t) : ∃ a, t ≤ a ∧ Sram.startsAt c y inp a = true := by
  by_contra hnever
  simp only [not_exists, not_and, Bool.not_eq_true] at hnever
  -- the controller becomes idle
  have hidle : ∃ u, t ≤ u ∧ (ctlAt c y inp u).phase = 0 := by
    by_contra hbusy
    simp only [not_exists, not_and] at hbusy
    have hgo : ∀ d, d ≤ (ctlAt c y inp (t + d)).phase := by
      intro d
      induction d with
      | zero =>
          exact Nat.zero_le _
      | succ d ih =>
          rcases (ctl_of_not_startsAt (hnever (t + d) (by omega))).2.1 with ⟨hzero, -⟩ | ⟨-, hsucc⟩
          · exact absurd hzero (hbusy (t + d + 1) (by omega))
          · rw [← Nat.add_assoc]
            omega
    have hle := hgo (c.waitCycles * 2)
    have hmax := hrange (t + c.waitCycles * 2)
    have hpos := hbusy t (Nat.le_refl t)
    have := hrange t
    omega
  obtain ⟨u, hu, hzero⟩ := hidle
  have hstay : ∀ v, u ≤ v → (ctlAt c y inp v).phase = 0 := by
    intro v hv
    induction v, hv using Nat.le_induction with
    | base =>
        exact hzero
    | succ v hv ih =>
        rcases (ctl_of_not_startsAt (hnever v (by omega))).2.1 with ⟨h0, -⟩ | ⟨h1, -⟩
        · exact h0
        · exact absurd ih h1
  have hquiet : ∀ v, u ≤ v → ∀ p, ready c y inp (v + 1) p = false := by
    intro v hv p
    rw [Bool.eq_false_iff]
    intro hack
    exact (((ctl_of_not_startsAt (hnever v (by omega))).2.2.2 p).1 hack).2.2.2.1 (hstay v hv)
  -- the request that the arbiter finds now is still there when it is looked at
  have hheld : ∀ v, u < v → ∀ p, ((inp v).bus p).addrStrobe = true →
      ((inp (v + 1)).bus p).addrStrobe = true := by
    intro v hv p hstrobe
    obtain ⟨w, rfl⟩ := Nat.exists_eq_add_of_lt hv
    rw [hholds _ p hstrobe (hquiet (u + w) (by omega) p)]
    exact hstrobe
  have hlast : ((inp (u + 3)).bus (ctlAt c y inp (u + 3)).nextPort).addrStrobe = true := by
    have hnext : (ctlAt c y inp (u + 2)).prioPending = false → some q ≠ c.prioPort →
        ((inp (u + 3)).bus (ctlAt c y inp (u + 3)).nextPort).addrStrobe = true := by
      intro hpend hne
      have hcand := (nextPort_of_not_pending hpend (hq (u + 2) (by omega)).1 hne).1
      exact hheld (u + 2) (by omega) _ (candidate_strobe hcand).1
    have hpend : (ctlAt c y inp (u + 2)).prioPending = _ := (arbiter_succ (u + 1)).2.2
    cases hport : c.prioPort with
    | none =>
        rw [prioPendingNext, hport] at hpend
        exact hnext hpend (by simp [hport])
    | some r =>
        rw [prioPendingNext, hport] at hpend
        simp only [hstay (u + 1) (by omega), beq_self_eq_true, Bool.or_true, Bool.true_and] at hpend
        cases hr : ((inp (u + 1)).bus r).addrStrobe with
        | true =>
            rw [nextPort_of_pending (hpend.trans hr) hport]
            exact hheld (u + 2) (by omega) r (hheld (u + 1) (by omega) r hr)
        | false =>
            refine hnext (hpend.trans hr) ?_
            rintro heq
            rw [hport] at heq
            obtain rfl := Option.some.inj heq
            rw [(hq (u + 1) (by omega)).1] at hr
            simp at hr
  have hstart : Sram.startsAt c y inp (u + 3) = true := by
    have hack : (ctlAt c y inp (u + 3)).ackBitmap (ctlAt c y inp (u + 3)).nextPort = false :=
      hquiet (u + 2) (by omega) _
    simp [Sram.startsAt, starts, hlast, hack, hstay (u + 3) (by omega)]
  rw [hnever (u + 3) (by omega)] at hstart
  simp at hstart

include hwait hrange in
/-- The priority port does not wait for ever. -/
theorem not_waits_prio (hholds : HoldsRequests c y inp) (hport : c.prioPort = some q) :
    ¬Waits c y inp q t₀ := by
  intro hq
  obtain ⟨a, ha, hstart⟩ := hq.exists_start hrange hholds (Nat.le_refl t₀)
  have hne := hq.ne_nextPort hwait hrange ha hstart
  obtain ⟨u, hu, hserving, hturn⟩ := (serving_of_startsAt hwait hstart).ends hrange
  have hstrobe : ((inp (u + 1)).bus q).addrStrobe = true := (hq (u + 1) (by omega)).1
  have hpend : (ctlAt c y inp (u + 1)).prioPending = true := by
    rw [(arbiter_succ u).2.2, prioPendingNext, hport]
    simp [hserving.curBefore, hne, (hq u (by omega)).1]
  have hnext := nextPort_of_pending hpend hport
  refine hq.ne_nextPort hwait hrange (by omega) (hserving.startsAt hholds hturn ?_ ?_) hnext
  · rwa [hnext]
  · rw [hnext]
    exact hne.symm

include hwait hrange in
/-- While a port of the round waits, another one of them is selected. -/
theorem Waits.exists_round (hq : Waits c y inp q t₀) (hholds : HoldsRequests c y inp)
    (hround : some q ≠ c.prioPort) (ht : t₀ ≤ t) :
    ∃ a, t ≤ a ∧ Sram.startsAt c y inp a = true ∧
      some (ctlAt c y inp a).nextPort ≠ c.prioPort := by
  obtain ⟨a, ha, hstart⟩ := hq.exists_start hrange hholds ht
  by_cases hprio : some (ctlAt c y inp a).nextPort = c.prioPort
  · obtain ⟨u, hu, hserving, hturn⟩ := (serving_of_startsAt hwait hstart).ends hrange
    have hpend : (ctlAt c y inp (u + 1)).prioPending = false := by
      rw [(arbiter_succ u).2.2, prioPendingNext, ← hprio]
      simp [hserving.curBefore, hserving.before]
    have hcand := (nextPort_of_not_pending hpend (hq (u + 1) (by omega)).1 hround).1
    obtain ⟨hstrobe, hne⟩ := candidate_strobe hcand
    refine ⟨u + 1 + 1, by omega, hserving.startsAt hholds hturn hstrobe ?_, hne⟩
    intro heq
    rw [heq] at hne
    exact hne hprio
  · exact ⟨a, ha, hstart, hprio⟩

theorem lastPort_of_phase (h : (ctlAt c y inp t).phase ≠ 1) :
    (ctlAt c y inp (t + 1)).lastPort = (ctlAt c y inp t).lastPort := by
  rw [(arbiter_succ t).2.1, if_neg (by simp [h])]

include hwait in
theorem phase_before_start (h : Sram.startsAt c y inp (t + 1) = true) :
    (ctlAt c y inp t).phase ≠ 1 := by
  intro hone
  have hphase := phase_of_startsAt h
  have hstart : Sram.startsAt c y inp t = false := by
    rw [Bool.eq_false_iff]
    intro hs
    have := phase_of_startsAt hs
    omega
  rcases (ctl_of_not_startsAt hstart).2.1 with ⟨-, hzero⟩ | ⟨-, hsucc⟩ <;> omega

include hwait hrange in
/-- A port of the round that is selected while `q` waits is closer to `q` than the last one. -/
theorem Waits.gap_nextPort (hq : Waits c y inp q t₀) (hround : some q ≠ c.prioPort) {a : Nat}
    (ha : t₀ + 2 ≤ a) (h : Sram.startsAt c y inp a = true)
    (hne : some (ctlAt c y inp a).nextPort ≠ c.prioPort) :
    gap (ctlAt c y inp a).nextPort q < gap (ctlAt c y inp a).lastPort q := by
  obtain ⟨b, rfl⟩ : ∃ b, a = b + 1 + 1 := ⟨a - 2, by omega⟩
  have hpend : (ctlAt c y inp (b + 1)).prioPending = false := by
    rw [Bool.eq_false_iff]
    intro hpend
    cases hport : c.prioPort with
    | none =>
        rw [(arbiter_succ b).2.2, prioPendingNext, hport] at hpend
        simp at hpend
    | some r =>
        rw [nextPort_of_pending hpend hport, hport] at hne
        exact hne rfl
  rw [lastPort_of_phase (phase_before_start hwait h)]
  exact (nextPort_of_not_pending hpend (hq (b + 1) (by omega)).1 hround).2.resolve_left
    (hq.ne_nextPort hwait hrange (by omega) h)

include hwait hrange in
theorem Waits.gap_lastPort_le (hq : Waits c y inp q t₀) (hround : some q ≠ c.prioPort)
    (ht : t₀ + 3 ≤ t) :
    gap (ctlAt c y inp (t + 1)).lastPort q ≤ gap (ctlAt c y inp t).lastPort q := by
  obtain ⟨a, rfl⟩ : ∃ a, t = a + 1 := ⟨t - 1, by omega⟩
  rw [(arbiter_succ (a + 1)).2.1]
  split
  · rename_i hlast
    simp only [Bool.and_eq_true, beq_iff_eq, bne_iff_ne] at hlast
    have hstart : Sram.startsAt c y inp a = true := by
      by_contra hstart
      rw [Bool.not_eq_true] at hstart
      rcases (ctl_of_not_startsAt hstart).2.1 with ⟨hzero, -⟩ | ⟨hpos, hsucc⟩ <;> omega
    have hphase := phase_of_startsAt hstart
    have hcur := (ctl_of_startsAt hwait hstart).1
    rw [hcur] at hlast ⊢
    rw [lastPort_of_phase (by omega)]
    exact Nat.le_of_lt (hq.gap_nextPort hwait hrange hround (by omega) hstart hlast.2)
  · exact Nat.le_refl _

/-- No port of the round writes to upper halves alone. -/
def RoundWritesLower (c : Config n) (inp : Nat → Input n) : Prop :=
  ∀ t p, some p ≠ c.prioPort → ((inp t).bus p).addrStrobe = true →
    ((inp t).bus p).upperOnly = false

include hwait hrange in
/-- A port of the round does not wait for ever: each transaction of another one is a step to it. -/
theorem not_waits_round (hholds : HoldsRequests c y inp) (hlower : RoundWritesLower c inp)
    (hround : some q ≠ c.prioPort) : ¬Waits c y inp q t₀ := by
  intro hq
  have hmono : ∀ a t, t₀ + 3 ≤ t → t ≤ a →
      gap (ctlAt c y inp a).lastPort q ≤ gap (ctlAt c y inp t).lastPort q := by
    intro a t ht hle
    induction a, hle using Nat.le_induction with
    | base =>
        exact Nat.le_refl _
    | succ a ha ih =>
        exact Nat.le_trans (hq.gap_lastPort_le hwait hrange hround (by omega)) ih
  have hnone : ∀ g t, t₀ + 3 ≤ t → gap (ctlAt c y inp t).lastPort q = g → False := by
    intro g
    induction g using Nat.strongRecOn with
    | ind g ih =>
        intro t ht hg
        obtain ⟨a, ha, hstart, hne⟩ := hq.exists_round hwait hrange hholds hround
          (show t₀ ≤ t by omega)
        obtain ⟨hcur, hphase, -, -⟩ := ctl_of_startsAt hwait hstart
        have hstrobe : ((inp a).bus (ctlAt c y inp a).nextPort).addrStrobe = true := by
          simp only [Sram.startsAt, starts, Bool.and_eq_true] at hstart
          exact hstart.1
        rw [hlower a _ hne hstrobe] at hphase
        have hlast : (ctlAt c y inp (a + 1 + 1)).lastPort = (ctlAt c y inp a).nextPort := by
          rw [(arbiter_succ (a + 1)).2.1, hcur, hphase]
          simp [hne]
        have hlt := hq.gap_nextPort hwait hrange hround (by omega) hstart hne
        have hle := hmono a t ht ha
        exact ih _ (by omega) (a + 1 + 1) (by omega) (congrArg (gap · q) hlast)
  exact hnone _ (t₀ + 3) (Nat.le_refl _) rfl

end Run

end Sram
end F32c
