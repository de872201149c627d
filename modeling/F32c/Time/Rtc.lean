import F32c.Clocked
import Mathlib.Tactic

/-!
# The real time clock

This module embeds the entity `rtc` (`rtl/soc/rtc.vhd`).  A prescaler of 28 bits overflows once in
`C_ns_incr` nanoseconds, and each overflow advances a counter of nanoseconds and one of seconds.
-/

namespace F32c
namespace Rtc

open Clocked

section Constants

def cNsIncrList : List Nat := [1, 2, 5, 10, 20, 50, 100, 200]

/-- `F_ns_incr_index`. -/
def nsIncrIndex (hz : Nat) : Nat :=
  if hz > 1000000000 then 0
  else if hz > 500000000 then 1
  else if hz > 200000000 then 2
  else if hz > 100000000 then 3
  else if hz > 50000000 then 4
  else if hz > 20000000 then 5
  else if hz > 10000000 then 6
  else 7

/-- `C_ns_incr`. -/
def nsIncr (hz : Nat) : Nat := cNsIncrList.getD (nsIncrIndex hz) 0

/-- A quotient, rounded to the nearest number. -/
def nearest (num den : Nat) : Nat := (2 * num + den) / (2 * den)

/-- `C_prescaler_incr`. -/
def prescalerIncr (hz : Nat) : BitVec 28 :=
  BitVec.ofNat 28 (nearest (1000000000 * 268435456) (nsIncr hz * hz))

end Constants

section Entity

/-- The effective frequency and `C_boottime`. -/
structure Config where
  hz : Nat
  boottime : Bool

/-- The registers. -/
structure State where
  uptimeS : BitVec 32
  uptimeNs : BitVec 30
  boottimeS : BitVec 32
  prescalerCnt : BitVec 29
deriving DecidableEq

/-- A clock of the bus. -/
structure Bus where
  ce : Bool
  busWrite : Bool
  busAddr : BitVec 2
  busIn : BitVec 32

variable (c : Config) (s : State) (b : Bus)

/-- The prescaler has overflowed. -/
def overflows : Bool := s.prescalerCnt.getLsbD 28

/-- The counter of nanoseconds is about to reach a second. -/
def wraps : Bool := s.uptimeNs == BitVec.ofNat 30 (1000000000 - nsIncr c.hz)

/-- One clock. -/
def step : State where
  uptimeS := if overflows s && wraps c s then s.uptimeS + 1#32 else s.uptimeS
  uptimeNs :=
    if overflows s then
      if wraps c s then 0#30 else s.uptimeNs + BitVec.ofNat 30 (nsIncr c.hz)
    else s.uptimeNs
  boottimeS :=
    if b.ce && b.busWrite && c.boottime && b.busAddr == 0b11#2 then b.busIn else s.boottimeS
  prescalerCnt :=
    (s.prescalerCnt.extractLsb 27 0).setWidth 29 + (prescalerIncr c.hz).setWidth 29

/-- `bus_out`. -/
def busOut (addr : BitVec 2) : BitVec 32 :=
  if addr = 0b00#2 then s.uptimeS
  else if addr = 0b01#2 then 0b00#2 ++ s.uptimeNs
  else if addr = 0b10#2 then prescalerIncr c.hz ++ BitVec.ofNat 4 (nsIncrIndex c.hz)
  else s.boottimeS

/-- All counters are zero. -/
def zero : State := ⟨0#32, 0#30, 0#32, 0#29⟩

end Entity

section Constants

variable {hz : Nat}

/-- An increment and the product of increment and frequency, in nanoseconds for each second. -/
structure Rate (hz incr : Nat) : Prop where
  mem : incr ∈ cNsIncrList
  divides : incr ∣ 1000000000
  above : 1000000002 ≤ incr * hz
  below : incr * hz ≤ 2500000000

/-- The increment for a frequency. -/
theorem rate (hlow : 5000001 ≤ hz) (hhigh : hz ≤ 1000000000) : Rate hz (nsIncr hz) := by
  unfold nsIncr nsIncrIndex
  split_ifs
  · omega
  all_goals
    constructor
    · decide
    · decide
    · simp only [cNsIncrList, List.getD_cons_succ, List.getD_cons_zero]
      omega
    · simp only [cNsIncrList, List.getD_cons_succ, List.getD_cons_zero]
      omega

theorem Rate.pos {incr : Nat} (h : Rate hz incr) : 0 < incr := by
  have hmem := h.mem
  by_contra hzero
  rw [Nat.eq_zero_of_not_pos hzero] at hmem
  revert hmem
  decide

theorem Rate.le_200 {incr : Nat} (h : Rate hz incr) : incr ≤ 200 := by
  have hmem := h.mem
  simp only [cNsIncrList, List.mem_cons, List.not_mem_nil, or_false] at hmem
  omega

/-- The number of increments that make a second. -/
theorem Rate.second {incr : Nat} (h : Rate hz incr) :
    incr * (1000000000 / incr) = 1000000000 :=
  Nat.mul_div_cancel' h.divides

theorem Rate.second_pos {incr : Nat} (h : Rate hz incr) : 0 < 1000000000 / incr := by
  have hsecond := h.second
  by_contra hzero
  rw [Nat.eq_zero_of_not_pos hzero] at hsecond
  omega

end Constants

section Run

variable (c : Config) (inp : Nat → Bus)

/-- The clock after `t` clocks from zero. -/
def rtcAt (t : Nat) : State := stateAt (step c) zero inp t

/-- The number of overflows of the prescaler before clock `t`. -/
def overflowsBefore : Nat → Nat
  | 0 => 0
  | t + 1 => overflowsBefore t + if overflows (rtcAt c inp t) then 1 else 0

/-- What the counters show after `n` increments. -/
structure Shows (n : Nat) (s : State) : Prop where
  ns : s.uptimeNs.toNat = nsIncr c.hz * (n % (1000000000 / nsIncr c.hz))
  seconds : s.uptimeS.toNat = n / (1000000000 / nsIncr c.hz) % 2 ^ 32

variable {c inp}

/-- One clock makes one increment, or none. -/
theorem Shows.step {n : Nat} {s : State} (h : Shows c n s) (hrate : Rate c.hz (nsIncr c.hz))
    (b : Bus) : Shows c (n + if overflows s then 1 else 0) (step c s b) := by
  cases hover : overflows s with
  | false =>
      constructor
      · simpa [Rtc.step, hover] using h.ns
      · simpa [Rtc.step, hover] using h.seconds
  | true =>
      have hpos := hrate.pos
      have hle := hrate.le_200
      have hsecond := hrate.second
      have hns := h.ns
      have hseconds := h.seconds
      have hmpos := hrate.second_pos
      generalize hincr : nsIncr c.hz = incr at *
      generalize hm : 1000000000 / incr = m at *
      have hlast : incr * (m - 1) = 1000000000 - incr := by
        rw [Nat.mul_sub, hsecond, Nat.mul_one]
      have hfits : (1000000000 - incr) % 2 ^ 30 = incr * (m - 1) := by
        rw [← hlast, Nat.mod_eq_of_lt]
        omega
      have hwraps : wraps c s = decide (n % m = m - 1) := by
        rw [Bool.eq_iff_iff, wraps, hincr, beq_iff_eq, decide_eq_true_eq, BitVec.toNat_eq, hns,
          BitVec.toNat_ofNat, hfits]
        exact Nat.mul_right_inj hpos.ne'
      have hlt : n % m < m := Nat.mod_lt n hmpos
      have hsplit : m * (n / m) + n % m = n := Nat.div_add_mod n m
      by_cases hr : n % m = m - 1
      · -- a second is complete
        have hnext : n + 1 = m * (n / m + 1) := by
          rw [Nat.mul_succ]
          omega
        have hwrap : wraps c s = true := by rw [hwraps, decide_eq_true hr]
        have hns' : (Rtc.step c s b).uptimeNs = 0#30 := by simp [Rtc.step, hover, hwrap]
        have hs' : (Rtc.step c s b).uptimeS = s.uptimeS + 1#32 := by simp [Rtc.step, hover, hwrap]
        constructor
        · rw [hns', hincr, hm, if_pos rfl, hnext, Nat.mul_mod_right, Nat.mul_zero]
          rfl
        · rw [hs', hincr, hm, if_pos rfl, hnext, Nat.mul_div_cancel_left _ hmpos,
            BitVec.toNat_add, hseconds]
          exact Nat.mod_add_mod _ _ _
      · have hlow : n % m + 1 < m := by omega
        have hnext : n + 1 = m * (n / m) + (n % m + 1) := by omega
        have hwrap : wraps c s = false := by rw [hwraps, decide_eq_false hr]
        have hns' : (Rtc.step c s b).uptimeNs = s.uptimeNs + BitVec.ofNat 30 incr := by
          simp [Rtc.step, hover, hwrap, hincr]
        have hs' : (Rtc.step c s b).uptimeS = s.uptimeS := by simp [Rtc.step, hover, hwrap]
        have hbound : incr * (n % m + 1) ≤ 1000000000 := by
          rw [← hsecond]
          exact Nat.mul_le_mul_left _ hlow.le
        have hsum : incr * (n % m) + incr = incr * (n % m + 1) := (Nat.mul_succ _ _).symm
        constructor
        · rw [hns', hincr, hm, if_pos rfl, hnext, Nat.mul_add_mod, Nat.mod_eq_of_lt hlow,
            BitVec.toNat_add, hns, BitVec.toNat_ofNat, Nat.add_mod_mod, hsum]
          exact Nat.mod_eq_of_lt (by omega)
        · rw [hs', hincr, hm, if_pos rfl, hnext, Nat.mul_add_div hmpos, Nat.div_eq_of_lt hlow,
            Nat.add_zero, hseconds]

theorem shows_zero : Shows c 0 zero := by
  constructor
  · simp [zero]
  · simp [zero]

/-- The counters show as many increments as there were overflows. -/
theorem shows_rtcAt (hrate : Rate c.hz (nsIncr c.hz)) (inp : Nat → Bus) (t : Nat) :
    Shows c (overflowsBefore c inp t) (rtcAt c inp t) := by
  induction t with
  | zero =>
      exact shows_zero
  | succ t ih =>
      exact ih.step hrate (inp t)

theorem overflowsBefore_mono {t t' : Nat} (h : t ≤ t') :
    overflowsBefore c inp t ≤ overflowsBefore c inp t' := by
  induction h with
  | refl => exact Nat.le_refl _
  | step _ ih => exact ih.trans (Nat.le_add_right _ _)

/-- The counters read as one number. -/
theorem Shows.time {n : Nat} {s : State} (h : Shows c n s) (hrate : Rate c.hz (nsIncr c.hz)) :
    nsIncr c.hz ∣ s.uptimeNs.toNat ∧ s.uptimeNs.toNat < 1000000000 ∧
      s.uptimeS.toNat * 1000000000 + s.uptimeNs.toNat =
        nsIncr c.hz * n % (2 ^ 32 * 1000000000) := by
  have hpos := hrate.pos
  have hsecond := hrate.second
  have hns := h.ns
  have hseconds := h.seconds
  have hmpos := hrate.second_pos
  generalize nsIncr c.hz = incr at *
  generalize 1000000000 / incr = m at *
  refine ⟨⟨n % m, hns⟩, ?_, ?_⟩
  · rw [hns, ← hsecond]
    exact Nat.mul_lt_mul_of_pos_left (Nat.mod_lt n hmpos) hpos
  · have hmod : incr * n % (2 ^ 32 * 1000000000) = incr * (n % (m * 2 ^ 32)) := by
      rw [← hsecond, ← Nat.mul_mod_mul_left]
      congr 1
      ring
    rw [hmod, Nat.mod_mul, hns, hseconds, Nat.mul_add, ← Nat.mul_assoc, hsecond]
    ring

end Run

end Rtc
end F32c
