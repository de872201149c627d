import F32c.Clocked
import Mathlib.Tactic

/-!
# The increment of the timer

This module embeds the registers of the entity `timer` (`rtl/soc/timer.vhd`) that the frequency
control works with: the counter, the registers behind the bus and the input capture.  The increment
is held in two registers, the lower bits among the registers of `C_bits` and the upper ones in an
extension of `C_pres` bits, and two processes write them.
-/

namespace F32c
namespace Timer

open Clocked

section Names

def cCounter : Fin 16 := 0
def cIncrement : Fin 16 := 1
def cIncMin : Fin 16 := 2
def cIncMax : Fin 16 := 3
def cPeriod : Fin 16 := cIncMin
def cFractional : Fin 16 := cIncMax
def cIcpnStart (i : Nat) : Fin 16 := if i = 0 then 10 else 8
def cIcpnStop (i : Nat) : Fin 16 := if i = 0 then 11 else 9
def cIcpn (i : Nat) : Fin 16 := if i = 0 then 12 else 13
def cControl : Fin 16 := 14
def cApply : Fin 16 := 15

/-- `C_ext`. -/
def cExt (i : Fin 3) : Fin 16 :=
  if i = 0 then cIncrement else if i = 1 then cIncMin else cIncMax

def cIcpnAnd (i : Nat) : Nat := if i = 0 then 7 else 6
def cIcpnXor (i : Nat) : Nat := if i = 0 then 15 else 14
def cIcpnAfcen (i : Nat) : Nat := if i = 0 then 16 else 18
def cIcpnAfcinv (i : Nat) : Nat := if i = 0 then 17 else 19

end Names

section Entity

/-- Generics of `timer`. -/
structure Config where
  bits : Nat
  pres : Nat
  icps : Nat
  periodFrac : Nat
  haveAfc : Bool
  afcImmediateSp : Bool
  bits_range : 2 ≤ bits ∧ bits ≤ 32

/-- The registers. -/
structure State (c : Config) where
  r : Fin 16 → BitVec c.bits
  rtmp : Fin 16 → BitVec c.bits
  rx : Fin 3 → BitVec c.pres
  rxtmp : Fin 3 → BitVec c.pres
  ctrlExt : BitVec (24 - c.bits)
  rtmpCtrlExt : BitVec (24 - c.bits)
  counter : BitVec (c.pres + c.bits)
  fractional : BitVec (c.periodFrac + 1)
  icp : Fin c.icps → BitVec c.bits
  icpSyncShift : Fin c.icps → BitVec 3

/-- The inputs of a clock. -/
structure Input (c : Config) where
  ce : Bool
  busWrite : Bool
  addr : Fin 16
  byteSel : BitVec 4
  busIn : BitVec 32
  icp : Fin c.icps → Bool

variable {c : Config} (s : State c) (i : Input c)

def commit : Bool := i.ce && i.busWrite && i.addr == cApply

/-- A write to the apply register that selects a register. -/
def commits (k : Fin 16) : Bool :=
  commit i && i.busIn.getLsbD k.val && i.byteSel.getLsbD (k.val / 8)

def increment : BitVec (c.pres + c.bits) := s.rx 0 ++ s.r cIncrement

def incMin : BitVec (c.pres + c.bits) := s.rx 1 ++ s.r cIncMin

def incMax : BitVec (c.pres + c.bits) := s.rx 2 ++ s.r cIncMax

def incrementFaster : BitVec (c.pres + c.bits) := increment s + 1#(c.pres + c.bits)

def incrementSlower : BitVec (c.pres + c.bits) := increment s - 1#(c.pres + c.bits)

def control : BitVec 24 := (s.ctrlExt ++ s.r cControl).setWidth 24

/-- The addressable part of the counter. -/
def counterHigh : BitVec c.bits := s.counter.extractLsb' c.pres c.bits

def icpRisingEdge (k : Fin c.icps) : Bool :=
  (s.icpSyncShift k).getLsbD 2 == (control s).getLsbD (cIcpnXor k) &&
    (s.icpSyncShift k).getLsbD 1 == !(control s).getLsbD (cIcpnXor k)

def icpHit (k : Fin c.icps) : Bool :=
  icpRisingEdge s k &&
    if (control s).getLsbD (cIcpnAnd k) then
      decide (s.r (cIcpnStart k) ≤ counterHigh s) && decide (counterHigh s < s.r (cIcpnStop k))
    else
      decide (s.r (cIcpnStart k) ≤ counterHigh s) || decide (counterHigh s < s.r (cIcpnStop k))

/-- The setpoint is compared before or after it is committed. -/
def icpLtSp (k : Fin c.icps) : Bool :=
  if c.afcImmediateSp then decide (s.icp k < s.rtmp (cIcpn k))
  else decide (s.icp k < s.r (cIcpn k))

def icpWantsFaster (k : Fin c.icps) : Bool :=
  icpHit s k && (icpLtSp s k ^^ (control s).getLsbD (cIcpnAfcinv k)) &&
    (control s).getLsbD (cIcpnAfcen k)

def icpWantsSlower (k : Fin c.icps) : Bool :=
  icpHit s k && (!icpLtSp s k ^^ (control s).getLsbD (cIcpnAfcinv k)) &&
    (control s).getLsbD (cIcpnAfcen k)

def faster : Bool :=
  decide (increment s < incMax s) && (List.finRange c.icps).any (icpWantsFaster s)

def slower : Bool :=
  decide (incMin s < increment s) && (List.finRange c.icps).any (icpWantsSlower s)

/-- `commit_Rtmp_to_R`. -/
def rNext (k : Fin 16) : BitVec c.bits :=
  if commit i then if commits i k then s.rtmp k else s.r k
  else if c.haveAfc && k == cIncrement then
    if faster s && !slower s then (incrementFaster s).extractLsb' 0 c.bits
    else if slower s && !faster s then (incrementSlower s).extractLsb' 0 c.bits
    else s.r k
  else s.r k

/-- `commit_extended_Rtmp_to_R`; here a commit does not keep the frequency control out. -/
def rxNext (k : Fin 3) : BitVec c.pres :=
  if c.haveAfc && k == 0 && faster s && !slower s then
    (incrementFaster s).extractLsb' c.bits c.pres
  else if c.haveAfc && k == 0 && slower s && !faster s then
    (incrementSlower s).extractLsb' c.bits c.pres
  else if commits i (cExt k) then s.rxtmp k
  else s.rx k

/-- The bits that the byte selects let through. -/
def byteMask : BitVec 32 :=
  (BitVec.ofBool (i.byteSel.getLsbD 3)).signExtend 8 ++
    (BitVec.ofBool (i.byteSel.getLsbD 2)).signExtend 8 ++
      (BitVec.ofBool (i.byteSel.getLsbD 1)).signExtend 8 ++
        (BitVec.ofBool (i.byteSel.getLsbD 0)).signExtend 8

def rtmpNext (k : Fin 16) : BitVec c.bits :=
  if i.ce && i.busWrite && i.addr == k then
    (i.busIn &&& byteMask i).setWidth c.bits ||| (s.rtmp k &&& ~~~(byteMask i).setWidth c.bits)
  else s.rtmp k

def rxtmpNext (k : Fin 3) : BitVec c.pres :=
  if i.ce && i.busWrite && i.addr == cExt k then i.busIn.extractLsb' c.bits c.pres else s.rxtmp k

/-- `L_fractional_next`. -/
def fractionalNext : BitVec (c.periodFrac + 1) :=
  let next := s.fractional -
    ((s.r cFractional).extractLsb' 0 c.periodFrac).setWidth (c.periodFrac + 1)
  if s.fractional.getLsbD c.periodFrac then next + BitVec.twoPow (c.periodFrac + 1) c.periodFrac
  else next

/-- The counter is within the period. -/
def inPeriod : Bool :=
  decide (counterHigh s < s.r cPeriod +
    (BitVec.ofBool (s.fractional.getLsbD c.periodFrac)).setWidth c.bits)

def counterNext : BitVec (c.pres + c.bits) :=
  if commit i && i.busIn.getLsbD cCounter then
    (s.rtmp cCounter ++ s.counter.extractLsb' 0 c.pres).cast (Nat.add_comm _ _)
  else if c.periodFrac == 0 || inPeriod s then s.counter + increment s
  else 0

/-- One clock. -/
def step : State c where
  r := rNext s i
  rtmp := rtmpNext s i
  rx := rxNext s i
  rxtmp := rxtmpNext s i
  ctrlExt := if commits i cControl then s.rtmpCtrlExt else s.ctrlExt
  rtmpCtrlExt :=
    if i.ce && i.busWrite && i.addr == cControl then i.busIn.extractLsb' c.bits (24 - c.bits)
    else s.rtmpCtrlExt
  counter := counterNext s i
  fractional :=
    if !(commit i && i.busIn.getLsbD cCounter) && c.periodFrac != 0 && !inPeriod s then
      fractionalNext s
    else s.fractional
  icp := fun k => if icpHit s k then counterHigh s else s.icp k
  icpSyncShift := fun k =>
    (s.icpSyncShift k).extractLsb' 0 2 ++ BitVec.ofBool (i.icp k)

end Entity

section Halves

variable {p b : Nat}

theorem halves_toNat (hi : BitVec p) (lo : BitVec b) :
    (hi ++ lo).toNat = 2 ^ b * hi.toNat + lo.toNat := by
  rw [BitVec.toNat_append, ← Nat.shiftLeft_add_eq_or_of_lt lo.isLt, Nat.shiftLeft_eq, Nat.mul_comm]

theorem low_toNat (x : BitVec (p + b)) : (x.extractLsb' 0 b).toNat = x.toNat % 2 ^ b := by
  rw [BitVec.extractLsb'_toNat, Nat.shiftRight_zero]

theorem high_toNat (x : BitVec (p + b)) : (x.extractLsb' b p).toNat = x.toNat / 2 ^ b := by
  rw [BitVec.extractLsb'_toNat, Nat.shiftRight_eq_div_pow, Nat.mod_eq_of_lt]
  rw [Nat.div_lt_iff_lt_mul (Nat.two_pow_pos b), ← Nat.pow_add]
  exact x.isLt

theorem halves_eq (x : BitVec (p + b)) : x.extractLsb' b p ++ x.extractLsb' 0 b = x := by
  apply BitVec.eq_of_toNat_eq
  rw [halves_toNat, high_toNat, low_toNat, Nat.div_add_mod]

/-- The lower half of one number under the upper half of the next one. -/
theorem high_succ (hi : BitVec p) (lo : BitVec b) {y : BitVec (p + b)}
    (hy : y.toNat = (hi ++ lo).toNat + 1) :
    (y.extractLsb' b p ++ lo).toNat =
      (hi ++ lo).toNat + if lo.toNat + 1 = 2 ^ b then 2 ^ b else 0 := by
  have hpos := Nat.two_pow_pos b
  have hlt := lo.isLt
  rw [halves_toNat, high_toNat, hy, halves_toNat, Nat.add_assoc, Nat.mul_add_div hpos]
  split
  · next hcarry =>
      rw [hcarry, Nat.div_self hpos, Nat.mul_add, Nat.mul_one, Nat.add_right_comm]
  · rw [Nat.div_eq_of_lt (by omega)]
    rfl

/-- The lower half of one number under the upper half of the one before. -/
theorem high_pred (hi : BitVec p) (lo : BitVec b) {y : BitVec (p + b)}
    (hy : y.toNat + 1 = (hi ++ lo).toNat) :
    (y.extractLsb' b p ++ lo).toNat + (if lo.toNat = 0 then 2 ^ b else 0) = (hi ++ lo).toNat := by
  have hpos := Nat.two_pow_pos b
  have hlt := lo.isLt
  rw [halves_toNat] at hy
  rw [halves_toNat, halves_toNat, high_toNat]
  split
  · next hborrow =>
      have hne : hi.toNat ≠ 0 := by
        intro hzero
        rw [hzero, hborrow] at hy
        omega
      rcases Nat.exists_eq_succ_of_ne_zero hne with ⟨k, hk⟩
      have hy' : y.toNat = 2 ^ b * k + (2 ^ b - 1) := by
        rw [hk, Nat.mul_succ, hborrow] at hy
        omega
      have hdiv : y.toNat / 2 ^ b = k := by
        rw [hy', Nat.mul_add_div hpos, Nat.div_eq_of_lt (by omega), Nat.add_zero]
      rw [hdiv, hk, hborrow, Nat.mul_succ]
      rfl
  · have hdiv : y.toNat / 2 ^ b = hi.toNat := by
      rw [show y.toNat = 2 ^ b * hi.toNat + (lo.toNat - 1) by omega, Nat.mul_add_div hpos,
        Nat.div_eq_of_lt (by omega), Nat.add_zero]
    rw [hdiv]
    rfl

end Halves

section Step

variable {c : Config} {s : State c} {i : Input c}

/-- The frequency control wants the increment to grow. -/
def grows (s : State c) : Bool := c.haveAfc && faster s && !slower s

/-- The frequency control wants the increment to shrink. -/
def shrinks (s : State c) : Bool := c.haveAfc && slower s && !faster s

/-- A write to the apply register comes in a clock in which a step of the frequency control carries
from the lower half of the increment to the upper one, or borrows. -/
def torn (s : State c) (i : Input c) : Bool :=
  commit i && (grows s && s.r cIncrement == BitVec.allOnes c.bits ||
    shrinks s && s.r cIncrement == 0)

/-- The increment changes by one at most. -/
def Moves (s s' : State c) : Prop :=
  increment s' = increment s ∨ increment s' = incrementFaster s ∨ increment s' = incrementSlower s

/-- The increment is within its limits. -/
def Inside (s : State c) : Prop := incMin s ≤ increment s ∧ increment s ≤ incMax s

theorem two_pow_bits (c : Config) : 4 ≤ 2 ^ c.bits :=
  Nat.pow_le_pow_right (n := 2) (by decide) c.bits_range.1

theorem incrementFaster_toNat (h : (increment s).toNat + 1 < 2 ^ (c.pres + c.bits)) :
    (incrementFaster s).toNat = (increment s).toNat + 1 := by
  rw [incrementFaster, BitVec.toNat_add, BitVec.toNat_ofNat, Nat.add_mod_mod, Nat.mod_eq_of_lt h]

theorem incrementSlower_toNat (h : 0 < (increment s).toNat) :
    (incrementSlower s).toNat + 1 = (increment s).toNat := by
  have hbound := (increment s).isLt
  have hone : 1 % 2 ^ (c.pres + c.bits) = 1 := Nat.mod_eq_of_lt (by omega)
  rw [incrementSlower, BitVec.toNat_sub, BitVec.toNat_ofNat, hone]
  rw [show 2 ^ (c.pres + c.bits) - 1 + (increment s).toNat =
    2 ^ (c.pres + c.bits) + ((increment s).toNat - 1) by omega, Nat.add_mod_left,
    Nat.mod_eq_of_lt (by omega)]
  omega

theorem faster_toNat (h : grows s = true) :
    (incrementFaster s).toNat = (increment s).toNat + 1 ∧
      (increment s).toNat < (incMax s).toNat := by
  simp only [grows, faster, Bool.and_eq_true, decide_eq_true_eq] at h
  have hlt : (increment s).toNat < (incMax s).toNat := h.1.2.1
  have hmax := (incMax s).isLt
  exact ⟨incrementFaster_toNat (by omega), hlt⟩

theorem slower_toNat (h : shrinks s = true) :
    (incrementSlower s).toNat + 1 = (increment s).toNat ∧
      (incMin s).toNat < (increment s).toNat := by
  simp only [shrinks, slower, Bool.and_eq_true, decide_eq_true_eq] at h
  have hlt : (incMin s).toNat < (increment s).toNat := h.1.2.1
  exact ⟨incrementSlower_toNat (by omega), hlt⟩

theorem grows_not_shrinks (h : grows s = true) : shrinks s = false := by
  simp only [grows, Bool.and_eq_true, Bool.not_eq_true'] at h
  simp [shrinks, h.2]

theorem rNext_increment (hinc : commits i cIncrement = false) :
    rNext s i cIncrement =
      if commit i then s.r cIncrement
      else if grows s then (incrementFaster s).extractLsb' 0 c.bits
      else if shrinks s then (incrementSlower s).extractLsb' 0 c.bits
      else s.r cIncrement := by
  rw [rNext, hinc, grows, shrinks]
  by_cases hafc : c.haveAfc = true <;> simp [hafc]

theorem rxNext_increment (hinc : commits i cIncrement = false) :
    rxNext s i 0 =
      if grows s then (incrementFaster s).extractLsb' c.bits c.pres
      else if shrinks s then (incrementSlower s).extractLsb' c.bits c.pres
      else s.rx 0 := by
  have hext : commits i (cExt 0) = false := hinc
  simp [rxNext, hext, grows, shrinks]

/-- A step that no write to the apply register meets, and no step. -/
theorem step_whole (hinc : commits i cIncrement = false)
    (hcommit : commit i = true → grows s = false ∧ shrinks s = false) :
    increment (step s i) =
      if grows s then incrementFaster s else if shrinks s then incrementSlower s
      else increment s := by
  have hsplit : increment (step s i) = rxNext s i 0 ++ rNext s i cIncrement := rfl
  rw [hsplit, rNext_increment hinc, rxNext_increment hinc]
  cases hc : commit i with
  | true =>
      rcases hcommit hc with ⟨hg, hs⟩
      rw [hg, hs]
      rfl
  | false =>
      cases grows s
      · cases shrinks s
        · rfl
        · exact halves_eq _
      · exact halves_eq _

/-- A step that a write to the apply register meets moves the upper half only. -/
theorem step_torn (hinc : commits i cIncrement = false) (hcommit : commit i = true) :
    increment (step s i) =
      (if grows s then (incrementFaster s).extractLsb' c.bits c.pres
        else if shrinks s then (incrementSlower s).extractLsb' c.bits c.pres
        else s.rx 0) ++ s.r cIncrement := by
  have hsplit : increment (step s i) = rxNext s i 0 ++ rNext s i cIncrement := rfl
  rw [hsplit, rNext_increment hinc, rxNext_increment hinc, if_pos hcommit]

/-- The lower half is about to carry or to borrow. -/
theorem torn_eq :
    torn s i = (commit i && (grows s && (s.r cIncrement).toNat + 1 == 2 ^ c.bits ||
      shrinks s && (s.r cIncrement).toNat == 0)) := by
  have hlt := (s.r cIncrement).isLt
  have hones : (s.r cIncrement == BitVec.allOnes c.bits) =
      ((s.r cIncrement).toNat + 1 == 2 ^ c.bits) := by
    rw [Bool.eq_iff_iff, beq_iff_eq, beq_iff_eq, BitVec.toNat_eq, BitVec.toNat_allOnes]
    omega
  have hzero : (s.r cIncrement == 0) = ((s.r cIncrement).toNat == 0) := by
    rw [Bool.eq_iff_iff, beq_iff_eq, beq_iff_eq, BitVec.toNat_eq, BitVec.ofNat_eq_ofNat,
      BitVec.toNat_ofNat, Nat.zero_mod]
  rw [torn, hones, hzero]

/-- What a clock that is not torn does to an increment that is not committed. -/
theorem step_cases (hinc : commits i cIncrement = false) (htorn : torn s i = false) :
    increment (step s i) = increment s ∨
      (grows s = true ∧ increment (step s i) = incrementFaster s) ∨
      (shrinks s = true ∧ increment (step s i) = incrementSlower s) := by
  cases hc : commit i with
  | false =>
      rw [step_whole hinc (by simp [hc])]
      cases hg : grows s
      · cases hs : shrinks s
        · exact .inl rfl
        · exact .inr (.inr ⟨rfl, rfl⟩)
      · exact .inr (.inl ⟨rfl, rfl⟩)
  | true =>
      -- the lower half stays, and the upper one as well
      left
      rw [torn_eq, hc] at htorn
      rw [step_torn hinc hc]
      apply BitVec.eq_of_toNat_eq
      cases hg : grows s with
      | true =>
          have hsucc := high_succ (s.rx 0) (s.r cIncrement) (faster_toNat hg).1
          rw [hg, grows_not_shrinks hg] at htorn
          rw [if_pos rfl, hsucc, if_neg (by simpa using htorn)]
          rfl
      | false =>
          cases hs : shrinks s with
          | true =>
              have hpred := high_pred (s.rx 0) (s.r cIncrement) (slower_toNat hs).1
              rw [hg, hs] at htorn
              rw [if_neg (by simpa using htorn), Nat.add_zero] at hpred
              rw [if_neg (by decide), if_pos rfl]
              exact hpred
          | false => rfl

/-- A torn step moves the increment by the range of its lower half. -/
theorem torn_jumps (hinc : commits i cIncrement = false) (htorn : torn s i = true) :
    (grows s = true ∧ (s.r cIncrement).toNat + 1 = 2 ^ c.bits ∧
        (increment (step s i)).toNat = (increment s).toNat + 2 ^ c.bits) ∨
      (shrinks s = true ∧ (s.r cIncrement).toNat = 0 ∧
        (increment (step s i)).toNat + 2 ^ c.bits = (increment s).toNat) := by
  rw [torn_eq, Bool.and_eq_true] at htorn
  rcases htorn with ⟨hc, htorn⟩
  rw [step_torn hinc hc]
  cases hg : grows s with
  | true =>
      have hsucc := high_succ (s.rx 0) (s.r cIncrement) (faster_toNat hg).1
      rw [hg, grows_not_shrinks hg] at htorn
      have hones : (s.r cIncrement).toNat + 1 = 2 ^ c.bits := by simpa using htorn
      rw [if_pos hones] at hsucc
      exact .inl ⟨rfl, hones, hsucc⟩
  | false =>
      simp only [hg, Bool.false_and, Bool.false_or, Bool.and_eq_true, beq_iff_eq] at htorn
      rcases htorn with ⟨hs, hzero⟩
      have hpred := high_pred (s.rx 0) (s.r cIncrement) (slower_toNat hs).1
      rw [if_pos hzero] at hpred
      refine .inr ⟨hs, hzero, ?_⟩
      rw [if_neg (by decide), if_pos hs]
      exact hpred

/-- The increment changes by one at most if and only if the clock is not torn. -/
theorem moves_iff (hinc : commits i cIncrement = false) :
    Moves s (step s i) ↔ torn s i = false := by
  constructor
  · intro hmoves
    rw [← Bool.not_eq_true]
    intro htorn
    have hpow := two_pow_bits c
    have hvalue : (increment s).toNat = 2 ^ c.bits * (s.rx 0).toNat + (s.r cIncrement).toNat :=
      halves_toNat _ _
    rcases torn_jumps hinc htorn with ⟨hg, hones, hjump⟩ | ⟨hs, hzero, hjump⟩
    · rcases hmoves with heq | heq | heq
      · rw [heq] at hjump
        omega
      · rw [heq, (faster_toNat hg).1] at hjump
        omega
      · have hslower := incrementSlower_toNat (s := s) (by omega)
        rw [← heq] at hslower
        omega
    · have hroom : 2 ^ c.bits * ((s.rx 0).toNat + 1) ≤ 2 ^ (c.pres + c.bits) := by
        rw [Nat.add_comm c.pres, Nat.pow_add]
        exact Nat.mul_le_mul_left _ (s.rx 0).isLt
      rcases hmoves with heq | heq | heq
      · rw [heq] at hjump
        omega
      · have hfaster := incrementFaster_toNat (s := s) (by rw [Nat.mul_succ] at hroom; omega)
        rw [← heq] at hfaster
        omega
      · have hslower := (slower_toNat hs).1
        rw [← heq] at hslower
        omega
  · intro htorn
    rcases step_cases hinc htorn with heq | ⟨-, heq⟩ | ⟨-, heq⟩
    · exact .inl heq
    · exact .inr (.inl heq)
    · exact .inr (.inr heq)

/-- No write to the apply register selects the increment or a limit. -/
def Unselected (i : Input c) : Prop :=
  commits i cIncrement = false ∧ commits i cIncMin = false ∧ commits i cIncMax = false

/-- Other registers change only in a commit that selects them. -/
theorem rNext_other {k : Fin 16} (hk : k ≠ cIncrement) (h : commits i k = false) :
    rNext s i k = s.r k := by
  simp [rNext, h, hk]

theorem rxNext_other {k : Fin 3} (hk : k ≠ 0) (h : commits i (cExt k) = false) :
    rxNext s i k = s.rx k := by
  simp [rxNext, h, hk]

theorem step_limits (h : Unselected i) :
    incMin (step s i) = incMin s ∧ incMax (step s i) = incMax s := by
  rcases h with ⟨-, hmin, hmax⟩
  have hextMin : commits i (cExt 1) = false := hmin
  have hextMax : commits i (cExt 2) = false := hmax
  constructor
  · have hhigh : rxNext s i 1 = s.rx 1 := rxNext_other (by decide) hextMin
    have hlow : rNext s i cIncMin = s.r cIncMin := rNext_other (by decide) hmin
    have hsplit : incMin (step s i) = rxNext s i 1 ++ rNext s i cIncMin := rfl
    rw [hsplit, hhigh, hlow, incMin]
  · have hhigh : rxNext s i 2 = s.rx 2 := rxNext_other (by decide) hextMax
    have hlow : rNext s i cIncMax = s.r cIncMax := rNext_other (by decide) hmax
    have hsplit : incMax (step s i) = rxNext s i 2 ++ rNext s i cIncMax := rfl
    rw [hsplit, hhigh, hlow, incMax]

theorem Inside.next (h : Inside s) (hsel : Unselected i) (htorn : torn s i = false) :
    Inside (step s i) := by
  rcases step_limits (s := s) hsel with ⟨hmin, hmax⟩
  rcases h with ⟨hlow, hhigh⟩
  rw [Inside, hmin, hmax]
  rw [BitVec.le_def] at hlow hhigh ⊢
  rw [BitVec.le_def]
  rcases step_cases hsel.1 htorn with heq | ⟨hg, heq⟩ | ⟨hs, heq⟩
  · rw [heq]
    exact ⟨hlow, hhigh⟩
  · rcases faster_toNat hg with ⟨hvalue, hlt⟩
    rw [heq, hvalue]
    constructor <;> omega
  · rcases slower_toNat hs with ⟨hvalue, hlt⟩
    rw [heq]
    constructor <;> omega

end Step

section Run

variable (c : Config) (s : State c) (inp : Nat → Input c)

/-- The timer after `t` clocks. -/
def timerAt (t : Nat) : State c := stateAt step s inp t

/-- In every clock in which it is not committed the increment changes by one at most, and once
within its limits it stays there as long as neither it nor a limit is committed. -/
structure Steady : Prop where
  moves : ∀ t, commits (inp t) cIncrement = false →
    Moves (timerAt c s inp t) (timerAt c s inp (t + 1))
  inside : ∀ t n, (∀ k < n, Unselected (inp (t + k))) → Inside (timerAt c s inp t) →
    Inside (timerAt c s inp (t + n))

/-- The frequency control is steady if and only if no write to the apply register that leaves the
increment alone comes in the clock of a carry or a borrow between the halves. -/
theorem afc_steady :
    Steady c s inp ↔
      ∀ t, commits (inp t) cIncrement = false → torn (timerAt c s inp t) (inp t) = false := by
  constructor
  · intro h t hinc
    exact (moves_iff hinc).mp (h.moves t hinc)
  · intro h
    constructor
    · intro t hinc
      exact (moves_iff hinc).mpr (h t hinc)
    · intro t n hsel hinside
      induction n with
      | zero => exact hinside
      | succ n ih =>
          have hlast : Unselected (inp (t + n)) := hsel n (by omega)
          exact (ih fun k hk => hsel k (by omega)).next hlast (h _ hlast.1)

/-- The generics as they are by default. -/
def defaultConfig : Config where
  bits := 12
  pres := 10
  icps := 2
  periodFrac := 0
  haveAfc := true
  afcImmediateSp := true
  bits_range := ⟨by omega, by omega⟩

def powerUp : State defaultConfig where
  r := fun _ => 0
  rtmp := fun _ => 0
  rx := fun _ => 0
  rxtmp := fun _ => 0
  ctrlExt := 0
  rtmpCtrlExt := 0
  counter := 0
  fractional := 0
  icp := fun _ => 0
  icpSyncShift := fun _ => 0

/-- A clock with the line of the first input capture and a write. -/
def write (line : Bool) (addr : Fin 16) (busIn : BitVec 32) : Input defaultConfig :=
  ⟨true, true, addr, 0xf#4, busIn, fun k => line && k.val == 0⟩

/-- The increment is set to `0xfff` with `0x1000` for its maximum, the frequency control is switched
on, and an unrelated register is committed in the clock of the first hit. -/
def commitAtHit : Nat → Input defaultConfig
  | 0 => write false cIncrement 0xfff#32
  | 1 => write false cIncMax 0x1000#32
  | 2 => write false (cIcpn 0) 1#32
  | 3 => write false cControl 0x10000#32
  | 4 => write false cApply 0x400a#32
  | 5 => write true cCounter 0#32
  | 6 => write true cCounter 0#32
  | 7 => write true cApply 0x10#32
  | _ => write true cCounter 0#32

/-- The increment leaves its limits by the range of the lower half. -/
theorem increment_torn :
    commits (commitAtHit 7) cIncrement = false ∧
      (increment (timerAt defaultConfig powerUp commitAtHit 7)).toNat = 0xfff ∧
      Inside (timerAt defaultConfig powerUp commitAtHit 7) ∧
      (increment (timerAt defaultConfig powerUp commitAtHit 8)).toNat = 0x1fff ∧
      ¬Inside (timerAt defaultConfig powerUp commitAtHit 8) ∧
      ¬Steady defaultConfig powerUp commitAtHit := by
  refine ⟨rfl, ?_, ?_, ?_, ?_, ?_⟩
  · decide +kernel
  · unfold Inside
    decide +kernel
  · decide +kernel
  · unfold Inside
    decide +kernel
  · intro hsteady
    have hmoves := hsteady.moves 7 rfl
    revert hmoves
    unfold Moves
    decide +kernel

end Run

end Timer
end F32c
