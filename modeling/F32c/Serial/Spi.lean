import F32c.Loop
import Mathlib.Tactic

/-!
# Block reads from SPI

`spi_block_in` of `dev/spi.c`.  A store to the data register starts the exchange of a byte, and
a load finds the byte that was exchanged once the ready bit is set.  Each pass of the loop takes
the byte of one exchange, starts the next one, and stores a word where the number of bytes that
are left is a multiple of four.

The device is what the loads find after each number of exchanges; that it gets ready is a part of
it.  Places in the buffer are counted from its beginning, which is aligned.
-/

namespace F32c
namespace Spi

abbrev Byte := BitVec 8
abbrev Word := BitVec 32

section Model

/-- `SPI_READY_MASK`; `big` is the byte order of the CPU. -/
def readyMask (big : Bool) : Word := if big then 1#32 <<< 16 else 1#32 <<< 8

/-- What `LW` finds at the data register, by the number of exchanges that have been started and
the number of loads since. -/
structure Device (big : Bool) where
  lw : Nat → Nat → Word
  ready : ∀ e, ∃ i, lw e i &&& readyMask big ≠ 0

variable {big : Bool} (dev : Device big)

/-- The loop that loads until the ready bit is set. -/
def Device.wait (e : Nat) : Word := dev.lw e (Nat.find (dev.ready e))

/-- The byte in the data register. -/
def rxByte (big : Bool) (c : Word) : Byte :=
  if big then (c >>> 24).setWidth 8 else c.setWidth 8

/-- The bytes on the wire, in their order. -/
def Device.byte (i : Nat) : Byte := rxByte big (dev.wait (i + 1))

/-- `w = (w >> 8) | (c << 24)`, or what stands for it in the other byte order. -/
def shiftIn (big : Bool) (w c : Word) : Word :=
  if big then w <<< 8 ||| c >>> 24 else w >>> 8 ||| c <<< 24

/-- The bytes of a word in the order in which they are stored. -/
def lane (big : Bool) (w : Word) (i : Nat) : Byte :=
  if big then (w >>> (8 * (3 - i))).setWidth 8 else (w >>> (8 * i)).setWidth 8

/-- `*wp = w` -/
def storeWord (big : Bool) (mem : Nat → Byte) (wp : Nat) (w : Word) (i : Nat) : Byte :=
  if i / 4 = wp then lane big w (i % 4) else mem i

/-- The variables of `spi_block_in`, the memory, and the number of exchanges. -/
structure BlockIn where
  w : Word
  wp : Nat
  len : BitVec 32
  exchanges : Nat
  mem : Nat → Byte

/-- `*wp++ = w` -/
def BlockIn.put (big : Bool) (s : BlockIn) : BlockIn :=
  { s with mem := storeWord big s.mem s.wp s.w, wp := s.wp + 1 }

/-- A byte is taken from the data register. -/
def BlockIn.take (s : BlockIn) : BlockIn :=
  { s with w := shiftIn big s.w (dev.wait s.exchanges) }

/-- A pass of the loop. -/
def BlockIn.pass (s : BlockIn) : BlockIn :=
  let s := { s.take dev with exchanges := s.exchanges + 1 }
  let s := if s.len &&& 3 = 0 then s.put big else s
  { s with len := s.len - 1 }

/-- `spi_block_in`; `fuel` bounds the loop. -/
def spiBlockIn (fuel : Nat) (len : BitVec 32) (mem : Nat → Byte) : Option BlockIn :=
  if len = 0 then some ⟨0, 0, 0, 0, mem⟩
  else
    (Loop.whileLoop (fun s => s.len != 0) (BlockIn.pass dev) fuel
      ⟨0, 0, len - 1, 1, mem⟩).map fun s => (s.take dev).put big

end Model

section Lanes

variable {big : Bool}

/-- A byte that is shifted in is the last one, and the others move up. -/
theorem lane_shiftIn (w c : Word) {i : Nat} (hi : i < 4) :
    lane big (shiftIn big w c) i = if i = 3 then rxByte big c else lane big w (i + 1) := by
  apply BitVec.eq_of_getLsbD_eq
  intro j hj
  cases big with
  | false =>
      interval_cases i
      all_goals interval_cases j <;> simp [lane, shiftIn, rxByte]
  | true =>
      interval_cases i
      all_goals interval_cases j <;> simp [lane, shiftIn, rxByte]

theorem lane_zero (i : Nat) : lane big 0 i = 0 := by
  rw [lane]
  split
  · simp
  · simp

theorem and_three_eq_zero_iff (len : BitVec 32) : len &&& 3 = 0 ↔ len.toNat % 4 = 0 := by
  rw [← BitVec.toNat_inj, BitVec.toNat_and]
  exact Eq.congr_left (Nat.and_two_pow_sub_one_eq_mod len.toNat 2)

end Lanes

section Block

/-- A counter that has not come to its end. -/
theorem toNat_pred {len : BitVec 32} (hlen : len ≠ 0) :
    0 < len.toNat ∧ (len - 1).toNat = len.toNat - 1 := by
  have hpos : 0 < len.toNat := by
    rw [Nat.pos_iff_ne_zero, ← BitVec.toNat_zero, BitVec.toNat_ne_iff_ne]
    exact hlen
  refine ⟨hpos, ?_⟩
  have hle : 1 ≤ len := by
    rw [BitVec.le_def]
    exact hpos
  rw [BitVec.toNat_sub_of_le hle]
  rfl

variable {big : Bool} {dev : Device big} {mem : Nat → Byte} {n : Nat} {s : BlockIn}

/-- What holds at the test of the loop, where `n` bytes are asked for. -/
structure Between (dev : Device big) (mem : Nat → Byte) (n : Nat) (s : BlockIn) : Prop where
  started : 1 ≤ s.exchanges
  count : s.exchanges + s.len.toNat = n
  place : s.wp = (n - 1) / 4 - s.len.toNat / 4
  lanes : ∀ i < 4, lane big s.w i =
    if s.exchanges + i < 5 then 0 else dev.byte (s.exchanges + i - 5)
  frame : ∀ i, 4 * s.wp ≤ i → s.mem i = mem i
  filled : n % 4 = 0 → ∀ i < 4 * s.wp, s.mem i = dev.byte i

theorem Between.start (dev : Device big) (mem : Nat → Byte) {len : BitVec 32} (hlen : len ≠ 0) :
    Between dev mem len.toNat ⟨0, 0, len - 1, 1, mem⟩ := by
  obtain ⟨hpos, hsub⟩ := toNat_pred hlen
  refine ⟨Nat.le_refl 1, ?_, ?_, fun i hi => ?_, fun i _ => rfl, fun _ i hi => absurd hi ?_⟩
  · dsimp only
    omega
  · dsimp only
    omega
  · rw [lane_zero]
    exact (if_pos (show 1 + i < 5 by omega)).symm
  · exact Nat.not_lt_zero i

/-- The lanes once a byte has been taken. -/
theorem Between.take_lanes (hs : Between dev mem n s) : ∀ i < 4,
    lane big (s.take dev).w i =
      if s.exchanges + i < 4 then 0 else dev.byte (s.exchanges + i - 4) := by
  intro i hi
  have hstarted := hs.started
  rw [BlockIn.take, lane_shiftIn _ _ hi]
  by_cases hlast : i = 3
  · subst hlast
    rw [if_pos rfl, if_neg (by omega), Device.byte, show s.exchanges + 3 - 4 + 1 = s.exchanges by
      omega]
  · rw [if_neg hlast, hs.lanes (i + 1) (by omega)]
    by_cases hzero : s.exchanges + i < 4
    · rw [if_pos hzero, if_pos (by omega)]
    · rw [if_neg hzero, if_neg (by omega)]
      rfl

/-- A word is stored behind the others. -/
theorem put_spec {t : BlockIn} (hframe : ∀ i, 4 * t.wp ≤ i → t.mem i = mem i) :
    (∀ i, 4 * (t.wp + 1) ≤ i → (t.put big).mem i = mem i) ∧
      (∀ i < 4 * t.wp, (t.put big).mem i = t.mem i) ∧
      ∀ i < 4, (t.put big).mem (4 * t.wp + i) = lane big t.w i := by
  have hstore (i : Nat) : (t.put big).mem i = storeWord big t.mem t.wp t.w i := rfl
  refine ⟨fun i hi => ?_, fun i hi => ?_, fun i hi => ?_⟩
  · rw [hstore, storeWord, if_neg (by omega)]
    exact hframe i (by omega)
  · rw [hstore, storeWord, if_neg (by omega)]
  · rw [hstore, storeWord, if_pos (by omega)]
    congr 1
    omega

/-- A pass but for the store. -/
theorem pass_fields (dev : Device big) (s : BlockIn) :
    (s.pass dev).exchanges = s.exchanges + 1 ∧ (s.pass dev).w = (s.take dev).w ∧
      (s.pass dev).len = s.len - 1 := by
  rw [BlockIn.pass]
  dsimp only
  split
  · exact ⟨rfl, rfl, rfl⟩
  · exact ⟨rfl, rfl, rfl⟩

/-- The store of a pass. -/
theorem pass_store (dev : Device big) (s : BlockIn) :
    (s.len.toNat % 4 = 0 → (s.pass dev).wp = s.wp + 1 ∧
        (s.pass dev).mem = ((s.take dev).put big).mem) ∧
      (s.len.toNat % 4 ≠ 0 → (s.pass dev).wp = s.wp ∧ (s.pass dev).mem = s.mem) := by
  rw [← and_three_eq_zero_iff, BlockIn.pass]
  constructor
  · intro hword
    dsimp only
    rw [if_pos (show (s.take dev).len &&& 3 = 0 from hword)]
    exact ⟨rfl, rfl⟩
  · intro hword
    rw [ne_eq, ← and_three_eq_zero_iff] at hword
    dsimp only
    rw [if_neg (show ¬(s.take dev).len &&& 3 = 0 from hword)]
    exact ⟨rfl, rfl⟩

theorem Between.pass (hs : Between dev mem n s) (hlen : s.len ≠ 0) :
    Between dev mem n (s.pass dev) ∧ (s.pass dev).len.toNat < s.len.toNat := by
  obtain ⟨hpos, hsub⟩ := toNat_pred hlen
  obtain ⟨hexchanges, hw, hlen'⟩ := pass_fields dev s
  obtain ⟨hword, hnoword⟩ := pass_store dev s
  have hstarted := hs.started
  have hcount := hs.count
  have hplace := hs.place
  rw [← hlen'] at hsub
  have hlanes' : ∀ i < 4, lane big (s.pass dev).w i =
      if (s.pass dev).exchanges + i < 5 then 0
      else dev.byte ((s.pass dev).exchanges + i - 5) := by
    intro i hi
    rw [hw, hs.take_lanes i hi, hexchanges]
    congr 1
    · rw [eq_iff_iff]
      omega
    · congr 1
      omega
  refine ⟨?_, by omega⟩
  by_cases hfour : s.len.toNat % 4 = 0
  · obtain ⟨hwp, hmem⟩ := hword hfour
    obtain ⟨hframe, hkept, hnew⟩ := @put_spec big mem (s.take dev) hs.frame
    refine ⟨by omega, by omega, by omega, hlanes', fun i hi => ?_, fun hn i hi => ?_⟩
    · rw [hmem]
      exact hframe i (by rw [hwp] at hi; exact hi)
    · rw [hmem]
      by_cases hold : i < 4 * s.wp
      · exact (hkept i hold).trans (hs.filled hn i hold)
      · -- the bytes of this word are those of the last four exchanges
        have hi' : i = 4 * s.wp + (i - 4 * s.wp) := by omega
        rw [hi']
        refine (hnew (i - 4 * s.wp) (by omega)).trans ?_
        rw [hs.take_lanes _ (by omega), if_neg (by omega)]
        congr 1
        omega
  · obtain ⟨hwp, hmem⟩ := hnoword hfour
    refine ⟨by omega, by omega, by omega, hlanes', fun i hi => ?_, fun hn i hi => ?_⟩
    · rw [hmem]
      exact hs.frame i (by omega)
    · rw [hmem]
      exact hs.filled hn i (by omega)

/-- What `spi_block_in` does with any number of bytes but zero, which it takes without a sign. -/
theorem spiBlockIn_spec (dev : Device big) {fuel : Nat} (hfuel : 2 ^ 32 ≤ fuel) {len : BitVec 32}
    (hlen : len ≠ 0) (mem : Nat → Byte) :
    ∃ t, spiBlockIn dev fuel len mem = some t ∧ t.exchanges = len.toNat ∧
      (∀ i, 4 * ((len.toNat - 1) / 4 + 1) ≤ i → t.mem i = mem i) ∧
      (∀ i < 4, t.mem (4 * ((len.toNat - 1) / 4) + i) =
        if len.toNat + i < 4 then 0 else dev.byte (len.toNat + i - 4)) ∧
      (len.toNat % 4 = 0 → ∀ i < len.toNat, t.mem i = dev.byte i) := by
  obtain ⟨hpos, hsub⟩ := toNat_pred hlen
  have hlt := len.isLt
  have hstep (s : BlockIn) (hs : Between dev mem len.toNat s) (hcond : (s.len != 0) = true) :=
    hs.pass (bne_iff_ne.1 hcond)
  obtain ⟨s, hrun, hs, hend⟩ := Loop.whileLoop_rule (Between dev mem len.toNat)
    (fun s : BlockIn => s.len.toNat) hstep fuel ⟨0, 0, len - 1, 1, mem⟩
    (Between.start dev mem hlen) (by dsimp only; omega)
  have hzero : s.len.toNat = 0 := by
    have hlen0 : s.len = 0 := by simpa using hend
    rw [hlen0]
    rfl
  have hcount := hs.count
  have hplace := hs.place
  have hwp : s.wp = (len.toNat - 1) / 4 := by omega
  obtain ⟨hframe, hkept, hnew⟩ := @put_spec big mem (s.take dev) hs.frame
  refine ⟨(s.take dev).put big, ?_, by change s.exchanges = _; omega, ?_, ?_, fun hn i hi => ?_⟩
  · rw [spiBlockIn, if_neg hlen, hrun]
    rfl
  · rw [← hwp]
    exact hframe
  · intro i hi
    rw [← hwp]
    refine (hnew i hi).trans ?_
    rw [hs.take_lanes i hi, show s.exchanges = len.toNat by omega]
  · by_cases hold : i < 4 * s.wp
    · exact (hkept i hold).trans (hs.filled hn i hold)
    · have hi' : i = 4 * s.wp + (i - 4 * s.wp) := by omega
      rw [hi']
      refine (hnew (i - 4 * s.wp) (by omega)).trans ?_
      rw [hs.take_lanes _ (by omega), if_neg (by omega)]
      congr 1
      omega

/-- The promise of `spi_block_in`: as many bytes are exchanged as are asked for, they are stored
in their order, and nothing is stored behind them. -/
def ReadsBlock (dev : Device big) (len : BitVec 32) : Prop :=
  ∀ fuel, 2 ^ 32 ≤ fuel → ∀ mem, ∃ t, spiBlockIn dev fuel len mem = some t ∧
    (t.exchanges : Int) = len.toInt ∧
    (∀ i : Nat, (i : Int) < len.toInt → t.mem i = dev.byte i) ∧
    ∀ i : Nat, len.toInt ≤ i → t.mem i = mem i

/-- A number of bytes that is no multiple of four leaves something behind the block, and a negative
one is taken for a large number. -/
theorem fourfold_of_readsBlock {len : BitVec 32} (h : ReadsBlock dev len) :
    0 ≤ len.toInt ∧ len.toInt % 4 = 0 := by
  by_cases hlen : len = 0
  · subst hlen
    decide
  · obtain ⟨hpos, -⟩ := toNat_pred hlen
    -- a memory that differs from the last byte
    obtain ⟨t, ht, hcount, -, hframe⟩ := h (2 ^ 32) (le_refl _)
      fun _ => dev.byte (len.toNat - 1) + 1
    obtain ⟨t', ht', hcount', -, hlast, -⟩ := spiBlockIn_spec dev (le_refl _) hlen
      fun _ => dev.byte (len.toNat - 1) + 1
    rw [ht] at ht'
    cases ht'
    have hint : (len.toNat : Int) = len.toInt := by rw [← hcount', hcount]
    refine ⟨by omega, ?_⟩
    by_contra hfour
    have hbehind := hframe (4 * ((len.toNat - 1) / 4) + 3) (by omega)
    rw [hlast 3 (by omega), if_neg (by omega), show len.toNat + 3 - 4 = len.toNat - 1 by omega]
      at hbehind
    simp at hbehind

/--
The promise is kept if and only if the number of bytes is not negative and a multiple of four.
-/
theorem spi_block_in_iff (dev : Device big) (len : BitVec 32) :
    ReadsBlock dev len ↔ 0 ≤ len.toInt ∧ len.toInt % 4 = 0 := by
  constructor
  · exact fourfold_of_readsBlock
  · rintro ⟨hnonneg, hfour⟩ fuel hfuel mem
    have hint : (len.toNat : Int) = len.toInt := by
      have hlt := len.isLt
      rw [BitVec.toInt_eq_toNat_cond] at hnonneg ⊢
      split at hnonneg
      · rw [if_pos ‹_›]
      · omega
    by_cases hlen : len = 0
    · subst hlen
      refine ⟨⟨0, 0, 0, 0, mem⟩, rfl, rfl, fun i hi => ?_, fun i _ => rfl⟩
      change (i : Int) < 0 at hi
      omega
    · obtain ⟨hpos, -⟩ := toNat_pred hlen
      obtain ⟨t, ht, hcount, hframe, -, hfilled⟩ := spiBlockIn_spec dev hfuel hlen mem
      refine ⟨t, ht, by rw [hcount, hint], fun i hi => ?_, fun i hi => ?_⟩
      · exact hfilled (by omega) i (by omega)
      · exact hframe i (by omega)

/-- A device that is ready at once, with the number of the exchange for the byte. -/
def counter : Device false where
  lw e _ := BitVec.ofNat 32 (e % 256) ||| readyMask false
  ready e := by
    refine ⟨0, fun h => ?_⟩
    have hbit := congrArg (BitVec.getLsbD · 8) h
    simp [readyMask] at hbit

/-- One byte is stored behind three others. -/
theorem one_byte_misplaced : ¬ReadsBlock counter 1 := by
  intro h
  exact absurd (fourfold_of_readsBlock h).2 (by decide)

end Block

end Spi
end F32c
