import F32c.Clocked
import Mathlib.Tactic

/-!
# The serial port

This module embeds the entity `sio` (`rtl/soc/sio.vhd`): the bus interface, the baud
generator, the transmitter, the receiver with its FIFO and the break detection.  The
table of baud rate increments is a parameter.

With `txd` wired to `rxd` the receiver follows the transmitter at a distance of at most
one tick of the baud generator.  Both count ticks, so the invariant of the loopback is
told by the number of ticks that each has counted since the start bit.
-/

namespace F32c
namespace Sio

abbrev Byte := BitVec 8

section Entity

/-- Generics of `sio`; `baudRom` is the table computed from the clock frequency. -/
structure Config where
  baudRom : BitVec 4 → BitVec 20
  initBaudIndex : BitVec 4
  fixedBaudrate : Bool := false
  breakDetect : Bool := false
  breakTickcntMax : Nat := 0
  breakResetsBaudrate : Bool := false
  rxOverruns : Bool := true
  txOnly : Bool := false

/-- A clock of the bus. -/
structure Bus where
  ce : Bool
  busWrite : Bool
  busAddr : BitVec 2
  busIn : BitVec 32

/-- The registers; `n` is `C_rx_fifo_bits`. -/
structure State (n : Nat) where
  baudIndex : BitVec 4
  baudgen : BitVec 21
  txTickcnt : BitVec 4
  txPhase : BitVec 4
  txSer : BitVec 9
  rxd : Bool
  brk : Bool
  rxTickcnt : BitVec 4
  rxDes : Byte
  rxPhase : BitVec 4
  rxAvailable : Bool
  rxByte : Byte
  rxOverruns : BitVec 4
  rxBreakTickcnt : Nat
  rxFifo : BitVec n → Byte
  rxRdI : BitVec n
  rxWrI : BitVec n

variable {n : Nat}
variable (c : Config)
variable (s : State n)
variable (b : Bus)

/-- `txd`. -/
def txd : Bool := s.txSer.getLsbD 0

/-- A tick of the baud generator, which makes 16 for each bit. -/
def tick : Bool := s.baudgen.getLsbD 20

/-- The data register is written while `TX busy` is clear. -/
def txStarts : Bool := b.ce && b.busWrite && b.busAddr == 0b00#2 && s.txPhase == 0#4

/-- The transmitter ends a bit. -/
def txShifts : Bool := s.txPhase != 0#4 && tick s && s.txTickcnt == 0xf#4

def txTickcntNext : BitVec 4 :=
  if s.txPhase != 0#4 && tick s then s.txTickcnt + 1#4 else s.txTickcnt

def txPhaseNext : BitVec 4 :=
  if txStarts s b then 1#4
  else if txShifts s then
    if s.txPhase = 0xa#4 then 0#4 else s.txPhase + 1#4
  else s.txPhase

def txSerNext : BitVec 9 :=
  if txStarts s b then b.busIn.extractLsb 7 0 ++ 0#1
  else if txShifts s then 1#1 ++ s.txSer.extractLsb 8 1
  else s.txSer

/-- The receiver takes a sample. -/
def rxShifts : Bool :=
  !c.txOnly && tick s && s.rxPhase != 0#4 && s.rxTickcnt == 0xf#4

def rxTickcntNext : BitVec 4 :=
  if !c.txOnly && tick s then
    if s.rxPhase = 0#4 then
      -- start bit, delay further sampling for half a bit
      if !s.rxd then if s.rxTickcnt = 8#4 then 0#4 else s.rxTickcnt + 1#4
      else 0#4
    else s.rxTickcnt + 1#4
  else s.rxTickcnt

def rxPhaseNext : BitVec 4 :=
  if !c.txOnly && tick s && s.rxPhase == 0#4 then
    if !s.rxd && s.rxTickcnt == 8#4 then s.rxPhase + 1#4 else s.rxPhase
  else if rxShifts c s then
    if s.rxPhase = 9#4 then if s.rxd then 0#4 else s.rxPhase + 1#4
    else if s.rxPhase = 0xa#4 then if s.rxd then 0#4 else 0xa#4
    else s.rxPhase + 1#4
  else s.rxPhase

def rxDesNext : Byte :=
  if rxShifts c s then BitVec.ofBool s.rxd ++ s.rxDes.extractLsb 7 1 else s.rxDes

/-- A stop bit is sampled behind eight data bits. -/
def rxCompletes : Bool := rxShifts c s && s.rxPhase == 9#4 && s.rxd

def rxOverrunsNext : BitVec 4 :=
  if rxCompletes c s && s.rxWrI + 1#n == s.rxRdI && c.rxOverruns && s.rxOverruns != 0xf#4 then
    s.rxOverruns + 1#4
  else if c.rxOverruns && b.ce && b.busWrite && b.busAddr == 0b01#2 then 0#4
  else s.rxOverruns

def baudIndexNext : BitVec 4 :=
  if c.breakDetect && s.rxBreakTickcnt == 0 && c.breakResetsBaudrate && !c.fixedBaudrate then
    c.initBaudIndex
  else if !c.fixedBaudrate && b.ce && b.busWrite && b.busAddr == 0b10#2 then b.busIn.extractLsb 3 0
  else s.baudIndex

/-- One clock. -/
def step (rxd : Bool) : State n :=
  { baudIndex := baudIndexNext c s b
    baudgen :=
      (s.baudgen.extractLsb 19 0).setWidth 21 + (c.baudRom s.baudIndex).setWidth 21
    txTickcnt := txTickcntNext s
    txPhase := txPhaseNext s b
    txSer := txSerNext s b
    rxd := rxd
    brk := if c.breakDetect then !s.rxd && (s.rxBreakTickcnt == 0 || s.brk) else s.brk
    rxTickcnt := rxTickcntNext c s
    rxDes := rxDesNext c s
    rxPhase := rxPhaseNext c s
    rxAvailable := if c.txOnly then s.rxAvailable else s.rxRdI != s.rxWrI
    rxByte := if !c.txOnly && s.rxRdI != s.rxWrI then s.rxFifo s.rxRdI else s.rxByte
    rxOverruns := rxOverrunsNext c s b
    rxBreakTickcnt :=
      if c.breakDetect then if s.rxd then c.breakTickcntMax else s.rxBreakTickcnt - 1
      else s.rxBreakTickcnt
    rxFifo :=
      if rxShifts c s && s.rxPhase == 9#4 then Function.update s.rxFifo s.rxWrI s.rxDes
      else s.rxFifo
    rxRdI :=
      if b.ce && !b.busWrite && b.busAddr == 0b00#2 && s.rxAvailable then s.rxRdI + 1#n else s.rxRdI
    rxWrI := if rxCompletes c s && s.rxWrI + 1#n != s.rxRdI then s.rxWrI + 1#n else s.rxWrI }

end Entity

section Loopback

variable (c : Config) {n : Nat} (s : State n) (bus : Nat → Bus)

/-- The port with `txd` wired to `rxd`. -/
def loopStep (s : State n) (b : Bus) : State n := step c s b (txd s)

/-- The state of a loopback after `t` clocks. -/
def loopAt (t : Nat) : State n := Clocked.stateAt (loopStep c) s bus t

/-- The byte that a clock takes from the data register. -/
def sends (s : State n) (b : Bus) : List Byte :=
  if txStarts s b then [b.busIn.extractLsb 7 0] else []

/-- The byte that is entered into the receive FIFO between two states. -/
def enters (s s' : State n) : List Byte :=
  if s'.rxWrI ≠ s.rxWrI then [s'.rxFifo s.rxWrI] else []

/-- The bytes that were written to the data register before clock `t`. -/
def sent : Nat → List Byte
  | 0 => []
  | t + 1 => sent t ++ sends (loopAt c s bus t) (bus t)

/-- The bytes that were entered into the receive FIFO before clock `t`. -/
def entered : Nat → List Byte
  | 0 => []
  | t + 1 => entered t ++ enters (loopAt c s bus t) (loopAt c s bus (t + 1))

/-- The number of unread bytes in the receive FIFO. -/
def unread (s : State n) : Nat := (s.rxWrI - s.rxRdI).toNat

/-- Transmitter and receiver are idle, and so is the line. -/
structure Idle (s : State n) : Prop where
  txPhase : s.txPhase = 0#4
  txTickcnt : s.txTickcnt = 0#4
  txSer : s.txSer = BitVec.allOnes 9
  rxd : s.rxd = true
  rxPhase : s.rxPhase = 0#4
  rxTickcnt : s.rxTickcnt = 0#4

/-- The bits of a frame: start bit, data bits, stop bit and the idle line. -/
def frame (d : Byte) (k : Nat) : Bool := if k = 0 then false else if k ≤ 8 then d.getLsbD (k - 1) else true

/-- The transmitter has counted `k` ticks since it began to send `d`. -/
structure TxAt (s : State n) (d : Byte) (k : Nat) : Prop where
  lt : k < 160
  phase : s.txPhase.toNat = k / 16 + 1
  tickcnt : s.txTickcnt.toNat = k % 16
  ser : ∀ j, j < 9 → s.txSer.getLsbD j = frame d (k / 16 + j)

/-- The receiver has counted `k` ticks since it saw the start bit. -/
structure RxAt (s : State n) (k : Nat) : Prop where
  phase : s.rxPhase.toNat = (k + 7) / 16
  tickcnt : s.rxTickcnt.toNat = if k ≤ 8 then k else (k + 7) % 16

/-- What the loopback is doing, with the bytes written and the bytes entered so far. -/
inductive Link (s : State n) (sent entered : List Byte) : Prop
  | idle (h : Idle s) (hlog : entered = sent)
  | receiving (d : Byte) (k j : Nat) (htx : TxAt s d k) (hrx : RxAt s j)
      (hdist : k = j ∨ k = j + 1) (hj : j ≤ 152)
      (hline : k % 16 ≠ 0 → s.rxd = txd s)
      (hdes : ∀ m, m < (j - 9) / 16 → s.rxDes.getLsbD (8 - (j - 9) / 16 + m) = d.getLsbD m)
      (hlog : sent = entered ++ [d])
  | received (d : Byte) (k : Nat) (htx : TxAt s d k) (hk : 153 ≤ k)
      (hrx : s.rxPhase = 0#4 ∧ s.rxTickcnt = 0#4) (hline : s.rxd = true) (hlog : entered = sent)

end Loopback

section Transmitter

variable {c : Config} {n : Nat} {s : State n} {b : Bus} {d : Byte} {k : Nat}

theorem TxAt.txPhase_ne (h : TxAt s d k) : s.txPhase ≠ 0#4 := by
  intro heq
  have hphase := h.phase
  simp [heq] at hphase

theorem TxAt.not_txStarts (h : TxAt s d k) : txStarts s b = false := by
  simp [txStarts, h.txPhase_ne]

theorem TxAt.txd_eq (h : TxAt s d k) : txd s = frame d (k / 16) :=
  h.ser 0 (by omega)

/-- Without a tick the transmitter stands still. -/
theorem TxAt.hold (h : TxAt s d k) (htick : tick s = false) : TxAt (loopStep c s b) d k := by
  have hshift : txShifts s = false := by simp [txShifts, htick]
  refine ⟨h.lt, ?_, ?_, ?_⟩
  · simpa [loopStep, step, txPhaseNext, h.not_txStarts, hshift] using h.phase
  · simpa [loopStep, step, txTickcntNext, htick] using h.tickcnt
  · simpa [loopStep, step, txSerNext, h.not_txStarts, hshift] using h.ser

theorem TxAt.txShifts_eq (h : TxAt s d k) (htick : tick s = true) :
    txShifts s = decide (k % 16 = 15) := by
  have hcnt : s.txTickcnt = 0xf#4 ↔ k % 16 = 15 := by
    rw [← h.tickcnt, BitVec.toNat_eq]
    rfl
  simp [txShifts, htick, h.txPhase_ne, Bool.beq_eq_decide_eq, hcnt]

/-- What a shift puts on the line. -/
theorem getLsbD_shifted (w : BitVec 9) {j : Nat} (hj : j < 9) :
    (1#1 ++ w.extractLsb 8 1).getLsbD j = if j = 8 then true else w.getLsbD (j + 1) := by
  rw [BitVec.getLsbD_append]
  by_cases h8 : j = 8
  · simp [h8]
  · have hlt : j < 8 := by omega
    simp [h8, hlt, Nat.add_comm 1]

/-- A tick moves the transmitter on. -/
theorem TxAt.advance (h : TxAt s d k) (htick : tick s = true) (hk : k + 1 < 160) :
    TxAt (loopStep c s b) d (k + 1) := by
  have hphase := h.phase
  have hcnt := h.tickcnt
  have hcnt' : (loopStep c s b).txTickcnt.toNat = (k + 1) % 16 := by
    simp [loopStep, step, txTickcntNext, htick, h.txPhase_ne, BitVec.toNat_add, hcnt]
  by_cases hlast : k % 16 = 15
  · have hshift : txShifts s = true := by simp [h.txShifts_eq htick, hlast]
    refine ⟨hk, ?_, hcnt', ?_⟩
    · have hne : s.txPhase ≠ 0xa#4 := by
        intro heq
        simp [heq] at hphase
        omega
      simp [loopStep, step, txPhaseNext, h.not_txStarts, hshift, hne, BitVec.toNat_add, hphase]
      omega
    · intro j hj
      have hdiv : (k + 1) / 16 = k / 16 + 1 := by omega
      have hser : (loopStep c s b).txSer = 1#1 ++ s.txSer.extractLsb 8 1 := by
        simp [loopStep, step, txSerNext, h.not_txStarts, hshift]
      rw [hser, getLsbD_shifted s.txSer hj, hdiv]
      by_cases h8 : j = 8
      · -- the line is idle behind the stop bit
        simp [h8, frame]
      · rw [if_neg h8, h.ser (j + 1) (by omega), Nat.add_assoc, Nat.add_comm 1]
  · have hshift : txShifts s = false := by simp [h.txShifts_eq htick, hlast]
    have hdiv : (k + 1) / 16 = k / 16 := by omega
    refine ⟨hk, ?_, hcnt', ?_⟩
    · simpa [loopStep, step, txPhaseNext, h.not_txStarts, hshift, hdiv] using hphase
    · simpa [loopStep, step, txSerNext, h.not_txStarts, hshift, hdiv] using h.ser

/-- The last tick of a frame leaves the transmitter idle. -/
theorem TxAt.finish (h : TxAt s d 159) (htick : tick s = true) :
    (loopStep c s b).txPhase = 0#4 ∧ (loopStep c s b).txTickcnt = 0#4 ∧
      (loopStep c s b).txSer = BitVec.allOnes 9 := by
  have hshift : txShifts s = true := by simp [h.txShifts_eq htick]
  have hphase : s.txPhase = 0xa#4 := BitVec.eq_of_toNat_eq h.phase
  have hcnt : s.txTickcnt = 0xf#4 := BitVec.eq_of_toNat_eq h.tickcnt
  refine ⟨?_, ?_, ?_⟩
  · simp [loopStep, step, txPhaseNext, h.not_txStarts, hshift, hphase]
  · simp [loopStep, step, txTickcntNext, htick, hphase, hcnt]
  · have hser : (loopStep c s b).txSer = 1#1 ++ s.txSer.extractLsb 8 1 := by
      simp [loopStep, step, txSerNext, h.not_txStarts, hshift]
    rw [hser]
    apply BitVec.eq_of_getLsbD_eq
    intro j hj
    rw [getLsbD_shifted s.txSer hj]
    by_cases h8 : j = 8
    · simp [h8]
    · have hstop : ¬159 / 16 + (j + 1) ≤ 8 := by omega
      rw [if_neg h8, h.ser (j + 1) (by omega), frame, if_neg (by omega), if_neg hstop,
        BitVec.getLsbD_allOnes, decide_eq_true hj]

/-- A write to the data register begins a frame. -/
theorem Idle.begin (h : Idle s) (hstart : txStarts s b = true) :
    TxAt (loopStep c s b) (b.busIn.extractLsb 7 0) 0 := by
  refine ⟨by omega, ?_, ?_, ?_⟩
  · simp [loopStep, step, txPhaseNext, hstart]
  · simp [loopStep, step, txTickcntNext, h.txPhase, h.txTickcnt]
  · intro j hj
    have hser : (loopStep c s b).txSer = b.busIn.extractLsb 7 0 ++ 0#1 := by
      simp [loopStep, step, txSerNext, hstart]
    rw [hser, BitVec.getLsbD_append]
    rcases Nat.eq_zero_or_pos j with rfl | hpos
    · simp [frame]
    · have hle : j ≤ 8 := by omega
      simp [frame, show ¬j < 1 by omega, Nat.pos_iff_ne_zero.mp hpos, hle]

end Transmitter

section Receiver

variable {c : Config} {n : Nat} {s : State n} {b : Bus} {j : Nat}

/-- Without a tick the receiver stands still. -/
theorem rx_hold (htick : tick s = false) :
    (loopStep c s b).rxPhase = s.rxPhase ∧ (loopStep c s b).rxTickcnt = s.rxTickcnt ∧
      (loopStep c s b).rxDes = s.rxDes ∧ (loopStep c s b).rxWrI = s.rxWrI := by
  have hshift : rxShifts c s = false := by simp [rxShifts, htick]
  refine ⟨?_, ?_, ?_, ?_⟩
  · simp [loopStep, step, rxPhaseNext, htick, hshift]
  · simp [loopStep, step, rxTickcntNext, htick]
  · simp [loopStep, step, rxDesNext, hshift]
  · simp [loopStep, step, rxCompletes, hshift]

/-- As long as the line is high an idle receiver stays idle. -/
theorem rx_idle (hphase : s.rxPhase = 0#4) (hcnt : s.rxTickcnt = 0#4) (hline : s.rxd = true) :
    (loopStep c s b).rxPhase = 0#4 ∧ (loopStep c s b).rxTickcnt = 0#4 ∧
      (loopStep c s b).rxWrI = s.rxWrI := by
  have hshift : rxShifts c s = false := by simp [rxShifts, hphase]
  refine ⟨?_, ?_, ?_⟩
  · simp [loopStep, step, rxPhaseNext, hphase, hline, hshift]
  · simp [loopStep, step, rxTickcntNext, hphase, hcnt, hline]
  · simp [loopStep, step, rxCompletes, hshift]

theorem RxAt.rxShifts_eq (hc : c.txOnly = false) (h : RxAt s j) (htick : tick s = true) :
    rxShifts c s = decide (9 ≤ j ∧ j % 16 = 8) := by
  have hphase : s.rxPhase = 0#4 ↔ (j + 7) / 16 = 0 := by
    rw [← h.phase, BitVec.toNat_eq]
    rfl
  have hcnt : s.rxTickcnt = 0xf#4 ↔ (if j ≤ 8 then j else (j + 7) % 16) = 15 := by
    rw [← h.tickcnt, BitVec.toNat_eq]
    rfl
  rw [Bool.eq_iff_iff]
  simp only [rxShifts, hc, htick, Bool.and_eq_true, bne_iff_ne, beq_iff_eq, decide_eq_true_eq,
    Bool.not_false, true_and, ne_eq, hphase, hcnt]
  split_ifs <;> omega

/-- The start bit and the bits of a frame, tick by tick. -/
theorem RxAt.advance (hc : c.txOnly = false) (h : RxAt s j) (htick : tick s = true)
    (hj : j < 152) (hstart : j ≤ 8 → s.rxd = false) : RxAt (loopStep c s b) (j + 1) := by
  have hshift := h.rxShifts_eq hc htick
  have hphase := h.phase
  have hcnt := h.tickcnt
  rcases Nat.lt_or_ge j 9 with hlow | hhigh
  · -- the first half of the start bit
    have hzero : s.rxPhase = 0#4 := BitVec.eq_of_toNat_eq (by rw [hphase]; simp; omega)
    have hline : s.rxd = false := hstart (by omega)
    rw [if_pos (by omega)] at hcnt
    rcases Nat.lt_or_ge j 8 with hlt | hge
    · have hne : s.rxTickcnt ≠ 8#4 := by
        intro heq
        simp [heq] at hcnt
        omega
      constructor
      · simp [loopStep, step, rxPhaseNext, hc, htick, hzero, hne]
        omega
      · rw [if_pos (by omega)]
        simp [loopStep, step, rxTickcntNext, hc, htick, hzero, hline, hne, BitVec.toNat_add, hcnt]
        omega
    · have heq : s.rxTickcnt = 8#4 := BitVec.eq_of_toNat_eq (by rw [hcnt]; simp; omega)
      obtain rfl : j = 8 := by omega
      constructor
      · simp [loopStep, step, rxPhaseNext, hc, htick, hzero, hline, heq]
      · simp [loopStep, step, rxTickcntNext, hc, htick, hzero, hline, heq]
  · have hne : s.rxPhase ≠ 0#4 := by
      intro heq
      simp [heq] at hphase
      omega
    rw [if_neg (by omega)] at hcnt
    constructor
    · by_cases hsample : j % 16 = 8
      · have h9 : s.rxPhase ≠ 9#4 := by
          intro heq
          simp [heq] at hphase
          omega
        have ha : s.rxPhase ≠ 0xa#4 := by
          intro heq
          simp [heq] at hphase
          omega
        rw [decide_eq_true ⟨hhigh, hsample⟩] at hshift
        simp [loopStep, step, rxPhaseNext, hne, hshift, h9, ha, BitVec.toNat_add, hphase]
        omega
      · rw [decide_eq_false (by omega)] at hshift
        simp [loopStep, step, rxPhaseNext, hne, hshift, hphase]
        omega
    · rw [if_neg (by omega)]
      simp [loopStep, step, rxTickcntNext, hc, htick, hne, BitVec.toNat_add, hcnt, Nat.add_right_comm]

/-- The sample of the stop bit. -/
theorem RxAt.finish (hc : c.txOnly = false) (h : RxAt s 152) (htick : tick s = true)
    (hline : s.rxd = true) (hroom : s.rxWrI + 1#n ≠ s.rxRdI) :
    (loopStep c s b).rxPhase = 0#4 ∧ (loopStep c s b).rxTickcnt = 0#4 ∧
      (loopStep c s b).rxWrI = s.rxWrI + 1#n ∧ (loopStep c s b).rxFifo s.rxWrI = s.rxDes := by
  have hshift : rxShifts c s = true := by simp [h.rxShifts_eq hc htick]
  have hphase : s.rxPhase = 9#4 := BitVec.eq_of_toNat_eq h.phase
  have hcnt : s.rxTickcnt = 0xf#4 := BitVec.eq_of_toNat_eq h.tickcnt
  refine ⟨?_, ?_, ?_, ?_⟩
  · simp [loopStep, step, rxPhaseNext, hphase, hshift, hline]
  · simp [loopStep, step, rxTickcntNext, hc, htick, hphase, hcnt]
  · simp [loopStep, step, rxCompletes, hphase, hshift, hline, hroom]
  · simp [loopStep, step, hphase, hshift]

/-- Before the stop bit nothing is entered into the FIFO. -/
theorem RxAt.rxWrI_eq (hc : c.txOnly = false) (h : RxAt s j) (htick : tick s = true)
    (hj : j < 152) : (loopStep c s b).rxWrI = s.rxWrI := by
  have hcomplete : rxCompletes c s = false := by
    simp only [rxCompletes, h.rxShifts_eq hc htick, Bool.and_eq_false_iff, decide_eq_false_iff_not]
    by_cases hsample : 9 ≤ j ∧ j % 16 = 8
    · left
      right
      simp only [beq_eq_false_iff_ne]
      intro heq
      have hphase := h.phase
      simp [heq] at hphase
      omega
    · exact .inl (.inl hsample)
  simp [loopStep, step, hcomplete]

/-- What a sample makes of the collected bits. -/
theorem getLsbD_sampled (x : Bool) (w : Byte) {i : Nat} (hi : i < 8) :
    (BitVec.ofBool x ++ w.extractLsb 7 1).getLsbD i = if i = 7 then x else w.getLsbD (i + 1) := by
  rw [BitVec.getLsbD_append]
  by_cases h7 : i = 7
  · simp [h7]
  · have hlt : i < 7 := by omega
    simp [h7, hlt, Nat.add_comm 1]

/-- The bits collected so far, after a tick. -/
theorem RxAt.collect {d : Byte} (hc : c.txOnly = false) (h : RxAt s j) (htick : tick s = true)
    (hj : j < 152) (hline : 9 ≤ j → j % 16 = 8 → s.rxd = d.getLsbD ((j - 9) / 16))
    (hdes : ∀ m, m < (j - 9) / 16 → s.rxDes.getLsbD (8 - (j - 9) / 16 + m) = d.getLsbD m) :
    ∀ m, m < (j + 1 - 9) / 16 →
      (loopStep c s b).rxDes.getLsbD (8 - (j + 1 - 9) / 16 + m) = d.getLsbD m := by
  intro m hm
  have hshift := h.rxShifts_eq hc htick
  by_cases hsample : 9 ≤ j ∧ j % 16 = 8
  · rw [decide_eq_true hsample] at hshift
    have hcount : (j + 1 - 9) / 16 = (j - 9) / 16 + 1 := by omega
    have hle : (j - 9) / 16 < 8 := by omega
    have hnext : (loopStep c s b).rxDes = BitVec.ofBool s.rxd ++ s.rxDes.extractLsb 7 1 := by
      simp [loopStep, step, rxDesNext, hshift]
    rw [hcount] at hm ⊢
    rw [hnext, getLsbD_sampled s.rxd s.rxDes (by omega)]
    by_cases hlast : m = (j - 9) / 16
    · rw [if_pos (by omega), hline hsample.1 hsample.2, hlast]
    · have hindex : 8 - ((j - 9) / 16 + 1) + m + 1 = 8 - (j - 9) / 16 + m := by omega
      rw [if_neg (by omega), hindex, hdes m (by omega)]
  · rw [decide_eq_false hsample] at hshift
    have hcount : (j + 1 - 9) / 16 = (j - 9) / 16 := by omega
    rw [hcount] at hm ⊢
    rw [← hdes m hm]
    simp [loopStep, step, rxDesNext, hshift]

end Receiver

section Invariant

variable {c : Config} {n : Nat} {s : State n} {b : Bus} {sent entered : List Byte}

theorem enters_nil {s' : State n} (h : s'.rxWrI = s.rxWrI) : enters s s' = [] := by
  simp [enters, h]

theorem TxAt.sends_nil {d : Byte} {k : Nat} (h : TxAt s d k) : sends s b = [] := by
  simp [sends, h.not_txStarts]

theorem Idle.next (h : Idle s) (hlog : entered = sent) :
    Link (loopStep c s b) (sent ++ sends s b) (entered ++ enters s (loopStep c s b)) := by
  obtain ⟨hphase, hcnt, hwr⟩ := rx_idle (c := c) (b := b) h.rxPhase h.rxTickcnt h.rxd
  rw [enters_nil hwr, List.append_nil]
  cases hstart : txStarts s b with
  | true =>
      refine .receiving (b.busIn.extractLsb 7 0) 0 0 (h.begin hstart) ⟨?_, ?_⟩ (.inl rfl)
        (by omega) (by simp) (by simp) ?_
      · simp [hphase]
      · simp [hcnt]
      · simp [sends, hstart, hlog]
  | false =>
      refine .idle ⟨?_, ?_, ?_, ?_, hphase, hcnt⟩ (by simp [sends, hstart, hlog])
      · simp [loopStep, step, txPhaseNext, hstart, txShifts, h.txPhase]
      · simp [loopStep, step, txTickcntNext, h.txPhase, h.txTickcnt]
      · simp [loopStep, step, txSerNext, hstart, txShifts, h.txPhase, h.txSer]
      · simp [loopStep, step, txd, h.txSer]

/-- A frame on its way through the receiver. -/
theorem Link.next_receiving {d : Byte} {k j : Nat} (hc : c.txOnly = false)
    (hroom : s.rxWrI + 1#n ≠ s.rxRdI) (htx : TxAt s d k) (hrx : RxAt s j)
    (hdist : k = j ∨ k = j + 1) (hj : j ≤ 152) (hline : k % 16 ≠ 0 → s.rxd = txd s)
    (hdes : ∀ m, m < (j - 9) / 16 → s.rxDes.getLsbD (8 - (j - 9) / 16 + m) = d.getLsbD m)
    (hlog : sent = entered ++ [d]) :
    Link (loopStep c s b) (sent ++ sends s b) (entered ++ enters s (loopStep c s b)) := by
  have hbit : k % 16 ≠ 0 → s.rxd = frame d (k / 16) := fun hk => (hline hk).trans htx.txd_eq
  rw [htx.sends_nil, List.append_nil]
  cases htick : tick s with
  | false =>
      obtain ⟨hphase, hcnt, hdes', hwr⟩ := rx_hold (c := c) (b := b) htick
      have htx' : TxAt (loopStep c s b) d k := htx.hold htick
      rw [enters_nil hwr, List.append_nil]
      refine .receiving d k j htx' ⟨hphase ▸ hrx.phase, hcnt ▸ hrx.tickcnt⟩ hdist hj ?_
        (hdes' ▸ hdes) hlog
      intro _
      rw [htx'.txd_eq, ← htx.txd_eq]
      rfl
  | true =>
      rcases Nat.lt_or_ge j 152 with hlt | hge
      · have htx' : TxAt (loopStep c s b) d (k + 1) := htx.advance htick (by omega)
        have hline' : (k + 1) % 16 ≠ 0 → (loopStep c s b).rxd = txd (loopStep c s b) := by
          intro hne
          have hdiv : (k + 1) / 16 = k / 16 := by omega
          rw [htx'.txd_eq, hdiv, ← htx.txd_eq]
          rfl
        rw [enters_nil (hrx.rxWrI_eq hc htick hlt), List.append_nil]
        by_cases hmissed : j ≤ 8 ∧ s.rxd = true
        · -- the first tick comes before the receiver sees the start bit
          have hk : k = 0 := by
            by_contra hne
            have hlow := hbit (by omega)
            simp [show k / 16 = 0 by omega, frame, hmissed.2] at hlow
          obtain ⟨rfl, rfl⟩ : k = 0 ∧ j = 0 := by omega
          obtain ⟨hphase, hcnt, -⟩ := rx_idle (c := c) (b := b)
            (BitVec.eq_of_toNat_eq hrx.phase) (BitVec.eq_of_toNat_eq hrx.tickcnt) hmissed.2
          exact .receiving d 1 0 htx' ⟨by simp [hphase], by simp [hcnt]⟩ (.inr rfl) (by omega)
            hline' (by simp) hlog
        · have hstart : j ≤ 8 → s.rxd = false := by simpa using hmissed
          refine .receiving d (k + 1) (j + 1) htx' (hrx.advance hc htick hlt hstart) (by omega)
            (by omega) hline' (hrx.collect hc htick hlt ?_ hdes) hlog
          intro h9 hsample
          have hindex : k / 16 = (j - 9) / 16 + 1 := by omega
          have hle : (j - 9) / 16 + 1 ≤ 8 := by omega
          rw [hbit (by omega), hindex]
          simp [frame, hle]
      · obtain rfl : j = 152 := by omega
        have hstop : frame d (k / 16) = true := by
          simp [frame, show k / 16 = 9 by omega]
        have hdata : s.rxDes = d := BitVec.eq_of_getLsbD_eq fun m hm => by
          simpa using hdes m (by omega)
        obtain ⟨hphase, hcnt, hwr, hfifo⟩ :=
          hrx.finish (b := b) hc htick ((hbit (by omega)).trans hstop) hroom
        have hmoved : (loopStep c s b).rxWrI ≠ s.rxWrI := by
          rcases Nat.eq_zero_or_pos n with rfl | hn
          · exact absurd (Subsingleton.elim _ _) hroom
          · simp [hwr, Nat.pos_iff_ne_zero.mp hn]
        have hentered : enters s (loopStep c s b) = [d] := by
          rw [enters, if_pos hmoved, hfifo, hdata]
        rw [hentered]
        exact .received d (k + 1) (htx.advance htick (by omega)) (by omega) ⟨hphase, hcnt⟩
          (htx.txd_eq.trans hstop) hlog.symm

/-- The rest of the stop bit. -/
theorem Link.next_received {d : Byte} {k : Nat} (htx : TxAt s d k) (hk : 153 ≤ k)
    (hrx : s.rxPhase = 0#4 ∧ s.rxTickcnt = 0#4) (hline : s.rxd = true) (hlog : entered = sent) :
    Link (loopStep c s b) (sent ++ sends s b) (entered ++ enters s (loopStep c s b)) := by
  obtain ⟨hphase, hcnt, hwr⟩ := rx_idle (c := c) (b := b) hrx.1 hrx.2 hline
  have hlt := htx.lt
  have hline' : (loopStep c s b).rxd = true := by
    refine htx.txd_eq.trans ?_
    simp [frame, show k / 16 = 9 by omega]
  rw [htx.sends_nil, enters_nil hwr, List.append_nil, List.append_nil]
  cases htick : tick s with
  | false =>
      exact .received d k (htx.hold htick) hk ⟨hphase, hcnt⟩ hline' hlog
  | true =>
      rcases Nat.lt_or_ge k 159 with hlt | hge
      · exact .received d (k + 1) (htx.advance htick (by omega)) (by omega) ⟨hphase, hcnt⟩ hline' hlog
      · obtain rfl : k = 159 := by omega
        obtain ⟨hphase', hcnt', hser⟩ := htx.finish (c := c) (b := b) htick
        exact .idle ⟨hphase', hcnt', hser, hline', hphase, hcnt⟩ hlog

theorem Link.next (hc : c.txOnly = false) (hroom : s.rxWrI + 1#n ≠ s.rxRdI)
    (h : Link s sent entered) :
    Link (loopStep c s b) (sent ++ sends s b) (entered ++ enters s (loopStep c s b)) := by
  cases h with
  | idle h hlog =>
      exact h.next hlog
  | receiving d k j htx hrx hdist hj hline hdes hlog =>
      exact next_receiving hc hroom htx hrx hdist hj hline hdes hlog
  | received d k htx hk hrx hline hlog =>
      exact next_received htx hk hrx hline hlog

end Invariant

section Run

variable {c : Config} {n : Nat} {s : State n} {bus : Nat → Bus}

/-- A full FIFO has no room between the write and the read index. -/
theorem rxWrI_ne_of_unread (h : unread s ≠ 2 ^ n - 1) : s.rxWrI + 1#n ≠ s.rxRdI := by
  intro heq
  apply h
  have hneg : s.rxWrI - s.rxRdI = -1#n := by
    rw [← heq]
    grind
  rw [unread, hneg, BitVec.neg_one_eq_allOnes, BitVec.toNat_allOnes]

theorem link_loopAt (hc : c.txOnly = false) (hidle : Idle s)
    (hroom : ∀ t, unread (loopAt c s bus t) ≠ 2 ^ n - 1) (t : Nat) :
    Link (loopAt c s bus t) (sent c s bus t) (entered c s bus t) := by
  induction t with
  | zero =>
      exact .idle hidle rfl
  | succ t ih =>
      exact ih.next hc (rxWrI_ne_of_unread (hroom t))

theorem Link.txAt {sent entered : List Byte} (h : Link s sent entered) (hbusy : s.txPhase ≠ 0#4) :
    ∃ d k, TxAt s d k := by
  cases h with
  | idle h _ => exact absurd h.txPhase hbusy
  | receiving d k _ htx => exact ⟨d, k, htx⟩
  | received d k htx => exact ⟨d, k, htx⟩

theorem Link.length_le {sent entered : List Byte} (h : Link s sent entered) :
    entered.length ≤ sent.length := by
  cases h with
  | idle _ hlog => simp [hlog]
  | receiving _ _ _ _ _ _ _ _ _ hlog => simp [hlog]
  | received _ _ _ _ _ _ hlog => simp [hlog]

/-- Ticks of the frame and clocks of the tick that are left. -/
def remaining (s : State n) : Nat :=
  (160 - (16 * (s.txPhase.toNat - 1) + s.txTickcnt.toNat)) * 2 ^ 21 + (2 ^ 21 - s.baudgen.toNat)

theorem baudgen_grows {b : Bus} (htick : tick s = false) (hinc : c.baudRom s.baudIndex ≠ 0#20) :
    s.baudgen.toNat < (loopStep c s b).baudgen.toNat := by
  have hlow : s.baudgen.toNat < 2 ^ 20 := by
    have hbits := s.baudgen.isLt
    by_contra hge
    have hbit : s.baudgen.getLsbD 20 = true := by
      rw [BitVec.getLsbD, Nat.testBit_eq_decide_div_mod_eq, decide_eq_true_eq]
      omega
    rw [tick, hbit] at htick
    contradiction
  have hpos : 0 < (c.baudRom s.baudIndex).toNat := by
    by_contra hzero
    exact hinc (BitVec.eq_of_toNat_eq (by simpa using hzero))
  have hrom := (c.baudRom s.baudIndex).isLt
  have hsum : (loopStep c s b).baudgen.toNat =
      s.baudgen.toNat + (c.baudRom s.baudIndex).toNat := by
    simp [loopStep, step, BitVec.toNat_add]
    omega
  omega

/-- If the baud generator runs at all, every clock brings a frame closer to its end. -/
theorem TxAt.remaining_lt {d : Byte} {k : Nat} {b : Bus} (h : TxAt s d k)
    (hinc : c.baudRom s.baudIndex ≠ 0#20) (hbusy : (loopStep c s b).txPhase ≠ 0#4) :
    remaining (loopStep c s b) < remaining s := by
  have hphase := h.phase
  have hcnt := h.tickcnt
  have hlt := h.lt
  have hbg := s.baudgen.isLt
  have hbg' := (loopStep c s b).baudgen.isLt
  cases htick : tick s with
  | false =>
      have h' : TxAt (loopStep c s b) d k := h.hold htick
      have hgrows : s.baudgen.toNat < (loopStep c s b).baudgen.toNat := baudgen_grows htick hinc
      simp only [remaining, h'.phase, h'.tickcnt, hphase, hcnt]
      omega
  | true =>
      rcases Nat.lt_or_ge k 159 with hk | hk
      · have h' : TxAt (loopStep c s b) d (k + 1) := h.advance htick (by omega)
        simp only [remaining, h'.phase, h'.tickcnt, hphase, hcnt]
        omega
      · obtain rfl : k = 159 := by omega
        exact absurd (h.finish (c := c) (b := b) htick).1 hbusy

/-- If the baud generator runs at all, the transmitter becomes idle again. -/
theorem exists_idle (hc : c.txOnly = false) (hidle : Idle s)
    (hindex : ∀ t, (loopAt c s bus t).baudIndex = s.baudIndex)
    (hroom : ∀ t, unread (loopAt c s bus t) ≠ 2 ^ n - 1)
    (hinc : c.baudRom s.baudIndex ≠ 0#20) (t : Nat) :
    ∃ t', t ≤ t' ∧ (loopAt c s bus t').txPhase = 0#4 := by
  by_contra hnever
  have hbusy : ∀ t', t ≤ t' → (loopAt c s bus t').txPhase ≠ 0#4 :=
    fun t' hle heq => hnever ⟨t', hle, heq⟩
  have hdown : ∀ m, remaining (loopAt c s bus (t + m)) + m ≤ remaining (loopAt c s bus t) := by
    intro m
    induction m with
    | zero =>
        simp
    | succ m ih =>
        obtain ⟨d, k, htx⟩ := (link_loopAt hc hidle hroom (t + m)).txAt (hbusy _ (by omega))
        have hlt := htx.remaining_lt (c := c) (b := bus (t + m)) (by rwa [hindex])
          (hbusy (t + m + 1) (by omega))
        have hnext : loopStep c (loopAt c s bus (t + m)) (bus (t + m)) =
            loopAt c s bus (t + (m + 1)) := rfl
        rw [hnext] at hlt
        omega
  have := hdown (remaining (loopAt c s bus t) + 1)
  omega

theorem sent_prefix {t t' : Nat} (hle : t ≤ t') : sent c s bus t <+: sent c s bus t' := by
  induction t', hle using Nat.le_induction with
  | base => exact List.prefix_rfl
  | succ t' _ ih => exact ih.trans (List.prefix_append _ _)

/-- With `txd` wired to `rxd`, the bytes that enter the receive FIFO are the bytes that were
written to the data register, in order.  At most the last of them is still on its way, and none
when the transmitter is idle; if the baud generator runs at all, every byte arrives. -/
theorem uart_loopback (c : Config) (hc : c.txOnly = false) (s : State n) (hidle : Idle s)
    (bus : Nat → Bus) (hindex : ∀ t, (loopAt c s bus t).baudIndex = s.baudIndex)
    (hroom : ∀ t, unread (loopAt c s bus t) ≠ 2 ^ n - 1) :
    (∀ t, entered c s bus t = sent c s bus t ∨
      ∃ d, (loopAt c s bus t).txPhase ≠ 0#4 ∧ sent c s bus t = entered c s bus t ++ [d]) ∧
    (c.baudRom s.baudIndex ≠ 0#20 → ∀ t, ∃ t', t ≤ t' ∧ sent c s bus t <+: entered c s bus t') := by
  constructor
  · intro t
    cases link_loopAt hc hidle hroom t with
    | idle _ hlog => exact .inl hlog
    | receiving d k j htx _ _ _ _ _ hlog => exact .inr ⟨d, htx.txPhase_ne, hlog⟩
    | received _ _ _ _ _ _ hlog => exact .inl hlog
  · intro hinc t
    obtain ⟨t', hle, hphase⟩ := exists_idle hc hidle hindex hroom hinc t
    refine ⟨t', hle, ?_⟩
    cases link_loopAt hc hidle hroom t' with
    | idle _ hlog => exact hlog ▸ sent_prefix hle
    | receiving _ _ _ htx => exact absurd hphase htx.txPhase_ne
    | received _ _ htx => exact absurd hphase htx.txPhase_ne

/-- Without a reader the FIFO holds what was entered. -/
theorem unread_succ {b : Bus} (hread : (b.ce && !b.busWrite) = false)
    (hroom : unread s + 1 < 2 ^ n) :
    unread (loopStep c s b) = unread s + (enters s (loopStep c s b)).length := by
  have hrd : (loopStep c s b).rxRdI = s.rxRdI := by
    simp [loopStep, step, hread]
  cases hmove : rxCompletes c s && s.rxWrI + 1#n != s.rxRdI with
  | false =>
      have hwr : (loopStep c s b).rxWrI = s.rxWrI := by
        simp only [loopStep, step, hmove, Bool.false_eq_true, if_false]
      simp [unread, enters, hrd, hwr]
  | true =>
      have hn : n ≠ 0 := by
        rintro rfl
        simp at hroom
      have hwr : (loopStep c s b).rxWrI = s.rxWrI + 1#n := by
        simp only [loopStep, step, hmove, if_true]
      have hone : (s.rxWrI + 1#n - s.rxRdI).toNat = (s.rxWrI - s.rxRdI).toNat + 1 := by
        have hcomm : s.rxWrI + 1#n - s.rxRdI = s.rxWrI - s.rxRdI + 1#n := by grind
        rw [hcomm, BitVec.toNat_add, BitVec.toNat_one (by omega)]
        exact Nat.mod_eq_of_lt hroom
      simp [unread, enters, hrd, hwr, hone, hn]

/-- A FIFO with room for everything that is sent needs no reader. -/
theorem unread_ne_of_sent_lt (hc : c.txOnly = false) (hidle : Idle s) (hempty : unread s = 0)
    (hread : ∀ t, ((bus t).ce && !(bus t).busWrite) = false)
    (hsent : ∀ t, (sent c s bus t).length < 2 ^ n - 1) (t : Nat) :
    unread (loopAt c s bus t) ≠ 2 ^ n - 1 := by
  have hboth : ∀ t, Link (loopAt c s bus t) (sent c s bus t) (entered c s bus t) ∧
      unread (loopAt c s bus t) = (entered c s bus t).length := by
    intro t
    induction t with
    | zero =>
        exact ⟨.idle hidle rfl, hempty⟩
    | succ t ih =>
        obtain ⟨hlink, hcount⟩ := ih
        have hle := hlink.length_le
        have hlt := hsent t
        constructor
        · have hne : unread (loopAt c s bus t) ≠ 2 ^ n - 1 := by omega
          exact hlink.next hc (rxWrI_ne_of_unread hne)
        · have hstep : loopStep c (loopAt c s bus t) (bus t) = loopAt c s bus (t + 1) := rfl
          have hnext := unread_succ (c := c) (s := loopAt c s bus t) (hread t) (by omega)
          rw [hstep, hcount] at hnext
          rw [hnext, entered, List.length_append]
  obtain ⟨hlink, hcount⟩ := hboth t
  have hle := hlink.length_le
  have hlt := hsent t
  omega

/-- A port that ticks in almost every clock. -/
def fastConfig : Config := { baudRom := fun _ => 0xfffff#20, initBaudIndex := 0#4 }

def idleState : State 2 :=
  { baudIndex := 0#4
    baudgen := 0#21
    txTickcnt := 0#4
    txPhase := 0#4
    txSer := BitVec.allOnes 9
    rxd := true
    brk := false
    rxTickcnt := 0#4
    rxDes := 0#8
    rxPhase := 0#4
    rxAvailable := false
    rxByte := 0#8
    rxOverruns := 0#4
    rxBreakTickcnt := 0
    rxFifo := fun _ => 0#8
    rxRdI := 0#2
    rxWrI := 0#2 }

/-- The byte `0x55` is written in the first clock. -/
def oneWrite (t : Nat) : Bus := ⟨t == 0, true, 0b00#2, 0x55#32⟩

/-- The byte is received. -/
theorem uart_loopback_oneWrite :
    ∃ t, [0x55#8] <+: entered fastConfig idleState oneWrite t := by
  have hread : ∀ t, ((oneWrite t).ce && !(oneWrite t).busWrite) = false := by
    simp [oneWrite]
  have hindex : ∀ t, (loopAt fastConfig idleState oneWrite t).baudIndex = idleState.baudIndex := by
    intro t
    induction t with
    | zero => rfl
    | succ t ih =>
        rw [← ih]
        simp [loopAt, Clocked.stateAt_succ, loopStep, step, baudIndexNext, fastConfig, oneWrite]
  have hsent : ∀ t, sent fastConfig idleState oneWrite (t + 1) = [0x55#8] := by
    intro t
    induction t with
    | zero => rfl
    | succ t ih => rw [sent, ih]; simp [sends, txStarts, oneWrite]
  have hroom := unread_ne_of_sent_lt (c := fastConfig) rfl
    ⟨rfl, rfl, rfl, rfl, rfl, rfl⟩ rfl hread (s := idleState) (by
      intro t
      cases t with
      | zero => decide
      | succ t => rw [hsent]; decide)
  obtain ⟨t, -, hbegin⟩ :=
    (uart_loopback fastConfig rfl idleState ⟨rfl, rfl, rfl, rfl, rfl, rfl⟩ oneWrite hindex hroom).2
      (by decide) 1
  exact ⟨t, hsent 0 ▸ hbegin⟩

end Run

end Sio
end F32c
