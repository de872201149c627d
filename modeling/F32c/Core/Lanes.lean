import F32c.Core.Shift

/-!
# Load and store lanes

A store is shifted to its lanes by the 8 and 16 bit stages of the barrel shifter; a load is
aligned by the load aligner or, without it, by two passes of a shift right through the EX stage
after the load, of which the second one shifts the loaded word.
-/

namespace F32c
namespace Core

open Clocked

section Words

/-- A naturally aligned access, by its offset in the word. -/
def AlignedAt (size : MemSize) (o : BitVec 2) : Prop :=
  match size with
  | .size8 => True
  | .size16 => o.getLsbD 0 = false
  | .size32 | .size64 => o = 0#2

/-- The value of a width in a word, zero or sign extended. -/
def extendTo (size : MemSize) (signed : Bool) (w : Word) : Word :=
  match size with
  | .size8 => if signed then (w.extractLsb 7 0).signExtend 32 else (w.extractLsb 7 0).setWidth 32
  | .size16 =>
    if signed then (w.extractLsb 15 0).signExtend 32 else (w.extractLsb 15 0).setWidth 32
  | .size32 | .size64 => w

/-- The number of bytes of an access. -/
def MemSize.bytes : MemSize → Nat
  | .size8 => 1
  | .size16 => 2
  | .size32 | .size64 => 4

/-- The byte in a lane. -/
def lane (w : Word) (k : Nat) : BitVec 8 := w.extractLsb' (8 * k) 8

/-- A word of bytes, the one in the lowest lane first. -/
def ofLanes (b : Nat → BitVec 8) : Word := b 3 ++ b 2 ++ b 1 ++ b 0

/-- A word of which the lanes with their select line set are stored to. -/
def mergeLanes (sel : BitVec 4) (old new : Word) : Word :=
  ofLanes fun k => if sel.getLsbD k then lane new k else lane old k

/-- The data lines of a store. -/
def storeLanes (c : Config) (size : MemSize) (o : BitVec 2) (v : Word) : Word :=
  endian c (v <<< (8 * (memalignShamt c size o).toNat))

theorem lane_ofLanes (b : Nat → BitVec 8) {k : Nat} (hk : k < 4) : lane (ofLanes b) k = b k := by
  apply BitVec.eq_of_getLsbD_eq
  intro j hj
  interval_cases k
  all_goals
    simp only [lane, ofLanes, BitVec.getLsbD_extractLsb', BitVec.getLsbD_append]
    interval_cases j <;> simp

theorem lane_mergeLanes (sel : BitVec 4) (old new : Word) {k : Nat} (hk : k < 4) :
    lane (mergeLanes sel old new) k = if sel.getLsbD k then lane new k else lane old k :=
  lane_ofLanes _ hk

theorem swapBytes_eq (w : Word) : swapBytes w = ofLanes fun k => lane w (3 - k) := by
  apply BitVec.eq_of_getLsbD_eq
  intro j hj
  simp only [lane, ofLanes, swapBytes, BitVec.getLsbD_extractLsb', BitVec.getLsbD_append,
    BitVec.getLsbD_extractLsb]

theorem lane_swapBytes (w : Word) {k : Nat} (hk : k < 4) : lane (swapBytes w) k = lane w (3 - k) := by
  rw [swapBytes_eq, lane_ofLanes _ hk]

theorem lane_shiftLeft (w : Word) {n k : Nat} (hk : n + k < 4) :
    lane (w <<< (8 * n)) (n + k) = lane w k := by
  apply BitVec.eq_of_getLsbD_eq
  intro j hj
  simp only [lane, BitVec.getLsbD_extractLsb', BitVec.getLsbD_shiftLeft]
  rw [show 8 * (n + k) + j - 8 * n = 8 * k + j by omega]
  have hlt : 8 * (n + k) + j < 32 := by omega
  have hge : ¬8 * (n + k) + j < 8 * n := by omega
  simp only [hlt, hge, hj, decide_true, decide_false, Bool.not_false, Bool.true_and]

theorem lane_shiftRight (w : Word) (n k : Nat) :
    lane (w >>> (8 * n)) k = lane w (n + k) := by
  apply BitVec.eq_of_getLsbD_eq
  intro j hj
  simp only [lane, BitVec.getLsbD_extractLsb', BitVec.getLsbD_ushiftRight]
  rw [show 8 * n + (8 * k + j) = 8 * (n + k) + j by omega]

/-- The select lines name the lanes of an access. -/
theorem memByteSel_iff {size : MemSize} {o : BitVec 2} (h : AlignedAt size o) {k : Nat}
    (hk : k < 4) :
    (memByteSel size o).getLsbD k = true ↔ o.toNat ≤ k ∧ k < o.toNat + size.bytes := by
  cases size <;> rcases offset_cases o with rfl | rfl | rfl | rfl <;>
    simp [AlignedAt] at h <;> interval_cases k <;> decide

/-- The lane in which the lowest byte of an access is, within the processor. -/
theorem memalignShamt_toNat {size : MemSize} {o : BitVec 2} (h : AlignedAt size o) (c : Config) :
    (memalignShamt c size o).toNat =
      (if c.bigEndian then 4 - size.bytes - o.toNat else o.toNat) ∧
    o.toNat + size.bytes ≤ 4 := by
  unfold memalignShamt
  cases c.bigEndian <;> cases size <;> rcases offset_cases o with rfl | rfl | rfl | rfl <;>
    simp [AlignedAt] at h <;> decide

/-- A lane within the processor and on the bus. -/
theorem lane_endian (c : Config) (w : Word) {k : Nat} (hk : k < 4) :
    lane (endian c w) k = lane w (if c.bigEndian then 3 - k else k) := by
  unfold endian
  cases c.bigEndian with
  | false => rfl
  | true => exact lane_swapBytes w hk

end Words

section Aligner

variable {size : MemSize} {o : BitVec 2}

theorem lane_zero (w : Word) : lane w 0 = w.extractLsb 7 0 := rfl

theorem half_lanes (w : Word) (n : Nat) :
    w.extractLsb' (8 * n) 16 = lane w (n + 1) ++ lane w n := by
  apply BitVec.eq_of_getLsbD_eq
  intro j hj
  simp only [lane, BitVec.getLsbD_append, BitVec.getLsbD_extractLsb']
  split
  · next hlt =>
      have : j < 16 := by omega
      simp [hlt, this]
  · next hge =>
      rw [show 8 * (n + 1) + (j - 8) = 8 * n + j by omega]
      have : j < 16 := by omega
      have : j - 8 < 8 := by omega
      simp [*]

theorem half_eq_lanes (w : Word) : w.extractLsb 15 0 = lane w 1 ++ lane w 0 := half_lanes w 0

theorem eq_of_lanes {v w : Word} (h : ∀ k < 4, lane v k = lane w k) : v = w := by
  have hsplit : ∀ w : Word, w = ofLanes fun k => lane w k := by
    intro w
    apply BitVec.eq_of_getLsbD_eq
    intro j hj
    simp only [lane, ofLanes, BitVec.getLsbD_extractLsb', BitVec.getLsbD_append]
    interval_cases j <;> simp
  rw [hsplit v, hsplit w, ofLanes, ofLanes, h 0 (by decide), h 1 (by decide), h 2 (by decide),
    h 3 (by decide)]

/-- Only the lanes of a width matter to its value. -/
theorem extendTo_congr (signed : Bool) {v w : Word}
    (h : ∀ k < size.bytes, lane v k = lane w k) :
    extendTo size signed v = extendTo size signed w := by
  cases size with
  | size8 =>
      have h0 := h 0 (by decide)
      rw [lane_zero, lane_zero] at h0
      simp only [extendTo, h0]
  | size16 =>
      have h0 := h 0 (by decide)
      have h1 := h 1 (by decide)
      simp only [extendTo, half_eq_lanes, h0, h1]
  | size32 => exact eq_of_lanes h
  | size64 => exact eq_of_lanes h

/-- The load aligner gives the loaded word shifted right to its lowest lane and extended. -/
theorem memDataAligned_eq (c : Config) (u : Undef) (signed : Bool) (h : AlignedAt size o) (w : Word) :
    memDataAligned c u size signed o w =
      extendTo size signed (w >>> (8 * (memalignShamt c size o).toNat)) := by
  have hword : w.extractLsb 31 8 ++ w.extractLsb 7 0 = w := by
    apply BitVec.eq_of_getLsbD_eq
    intro j hj
    simp only [BitVec.getLsbD_append, BitVec.getLsbD_extractLsb]
    interval_cases j <;> simp
  cases size with
  | size8 =>
      have hb : memAlignB c o w = (w >>> (8 * (memalignShamt c .size8 o).toNat)).extractLsb 7 0 := by
        rw [← lane_zero, lane_shiftRight]
        unfold memAlignB memalignShamt
        cases c.bigEndian <;> rcases offset_cases o with rfl | rfl | rfl | rfl <;> rfl
      simp only [memDataAligned, hb]
      rfl
  | size16 =>
      have hh : memAlignH c u o w =
          (w >>> (8 * (memalignShamt c .size16 o).toNat)).extractLsb 15 0 := by
        rw [half_eq_lanes, lane_shiftRight, lane_shiftRight]
        unfold memAlignH memalignShamt
        cases c.bigEndian with
        | false =>
            rcases offset_cases o with rfl | rfl | rfl | rfl
            · exact half_lanes w 0
            · cases h
            · exact half_lanes w 2
            · cases h
        | true =>
            rcases offset_cases o with rfl | rfl | rfl | rfl
            · exact half_lanes w 2
            · cases h
            · exact half_lanes w 0
            · cases h
      have ho : o.getLsbD 0 = false := h
      simp only [memDataAligned, hh, ho]
      rfl
  | size32 =>
      have ho : o = 0#2 := h
      subst ho
      unfold memDataAligned memAlignB memalignShamt
      cases c.bigEndian with
      | false => exact hword
      | true => rfl
  | size64 =>
      have ho : o = 0#2 := h
      subst ho
      unfold memDataAligned memAlignB memalignShamt
      cases c.bigEndian with
      | false => exact hword
      | true => rfl

/-- What is loaded after a store is the value that was stored. -/
theorem load_after_store (c : Config) (u : Undef) (signed : Bool) (h : AlignedAt size o)
    (old v : Word) :
    memDataAligned c u size signed o
      (endian c (mergeLanes (memByteSel size o) old (storeLanes c size o v))) =
      extendTo size signed v := by
  rcases memalignShamt_toNat h c with ⟨hp, hfit⟩
  rw [memDataAligned_eq c u signed h]
  apply extendTo_congr
  intro k hk
  rw [lane_shiftRight, storeLanes]
  generalize (memalignShamt c size o).toNat = p at hp
  have hlt : p + k < 4 := by
    split at hp <;> omega
  rw [lane_endian c _ hlt]
  have hlt' : (if c.bigEndian then 3 - (p + k) else p + k) < 4 := by
    split <;> omega
  have hsel : (memByteSel size o).getLsbD (if c.bigEndian then 3 - (p + k) else p + k) = true := by
    rw [memByteSel_iff h hlt']
    split_ifs at hp ⊢ with hbe <;> omega
  have hback : (if c.bigEndian then 3 - (if c.bigEndian then 3 - (p + k) else p + k)
      else (if c.bigEndian then 3 - (p + k) else p + k)) = p + k := by
    split <;> omega
  rw [lane_mergeLanes _ _ _ hlt', if_pos hsel, lane_endian c _ hlt', hback, lane_shiftLeft v hlt]

end Aligner

end Core
end F32c
