import F32c.Dvi.Order

/-!
# From words to pixels

The first FIFO holds the words that were delivered and not yet shown to the end.  A word
gives its pixels from the low end up; the position in the word and the flag for the second
half of a double pixel follow from the number of pixels that were entered.
-/

namespace F32c
namespace Dvi

open Mode

variable {m : Mode} {s : Scan} {words : List Word} {pixels : List Rgb}

section Fifo

/-- A word from a list of words. -/
def wordOf (words : List Word) (n : Nat) : Word := words.getD n 0

theorem wordOf_append {w : Word} {n : Nat} (h : n < words.length) :
    wordOf (words ++ [w]) n = wordOf words n := by
  rw [wordOf, wordOf, List.getD_eq_getElem?_getD, List.getD_eq_getElem?_getD,
    List.getElem?_append_left h]

theorem wordOf_last {w : Word} : wordOf (words ++ [w]) words.length = w := by
  rw [wordOf, List.getD_eq_getElem?_getD, List.getElem?_concat_length, Option.getD_some]

/-- Places in a FIFO of 512 entries. -/
theorem fifoIndex_inj {a b : Nat} (h : a < b + 512) (h' : b < a + 512) :
    BitVec.ofNat 9 a = BitVec.ofNat 9 b ↔ a = b := by
  constructor
  · intro heq
    have hmod := congrArg BitVec.toNat heq
    rw [BitVec.toNat_ofNat, BitVec.toNat_ofNat] at hmod
    omega
  · rintro rfl
    rfl

theorem ofNat_succ {w n : Nat} : BitVec.ofNat w n + 1 = BitVec.ofNat w (n + 1) := by
  rw [BitVec.ofNat_add]
  rfl

end Fifo

section Position

/-- The position in the word behind the `p`-th pixel. -/
def bitposNext (m : Mode) (p : Nat) : Nat :=
  if m.doublepix && p % 2 == 0 then m.bitpos p else m.bitpos p + m.bpp.bits

/-- The word is at its end when the position is. -/
theorem bitposNext_cases (m : Mode) (p : Nat) :
    (p + 1) / m.wordPixels = p / m.wordPixels + 1 ∧ bitposNext m p = 32 ∧ m.bitpos (p + 1) = 0 ∨
      (p + 1) / m.wordPixels = p / m.wordPixels ∧ bitposNext m p = m.bitpos (p + 1) := by
  obtain ⟨hd, vd, il, bpp, dp, base⟩ := m
  simp only [bitposNext, Mode.bitpos, Mode.wordPixels, Mode.scale]
  cases dp with
  | false =>
      simp only [Bool.false_and, Bool.false_eq_true, if_false]
      cases bpp <;> simp only [Bpp.bits, Nat.reduceDiv, Nat.reduceMul] <;> omega
  | true =>
      simp only [Bool.true_and, beq_iff_eq, if_true]
      by_cases heven : p % 2 = 0
      · simp only [if_pos heven]
        cases bpp <;> simp only [Bpp.bits, Nat.reduceDiv, Nat.reduceMul] <;> omega
      · simp only [if_neg heven]
        cases bpp <;> simp only [Bpp.bits, Nat.reduceDiv, Nat.reduceMul] <;> omega

end Position

section Unpacked

/-- The FIFO of words and the position in it, when the words `words` were delivered and the
pixels `pixels` were entered. -/
structure Unpacked (m : Mode) (s : Scan) (words : List Word) (pixels : List Rgb) : Prop where
  incr : s.pixelBitposIncr = m.bitposIncr
  head : s.dmaFifoHead = BitVec.ofNat 9 words.length
  tail : s.dmaFifoTail = BitVec.ofNat 9 (pixels.length / m.wordPixels)
  bitpos : s.pixelBitpos = BitVec.ofNat 6 (m.bitpos pixels.length)
  skip : s.skipPixel = (m.doublepix && pixels.length % 2 == 0)
  le : pixels.length ≤ words.length * m.wordPixels
  held : ∀ n, pixels.length / m.wordPixels ≤ n → n < words.length →
    s.dmaFifo (BitVec.ofNat 9 n) = wordOf words n
  shown : pixels = (List.range pixels.length).map (m.colorOf (wordOf words))

/-- Words in the FIFO. -/
def level (m : Mode) (words : List Word) (pixels : List Rgb) : Nat :=
  words.length - pixels.length / m.wordPixels

theorem Unpacked.tail_le (hu : Unpacked m s words pixels) :
    pixels.length / m.wordPixels ≤ words.length :=
  Nat.div_le_of_le_mul (by rw [Nat.mul_comm]; exact hu.le)

theorem Unpacked.hasData_iff (hu : Unpacked m s words pixels) (hlevel : level m words pixels < 512) :
    s.dmaFifoHasData = true ↔ pixels.length / m.wordPixels < words.length := by
  have hle := hu.tail_le
  rw [level] at hlevel
  rw [Scan.dmaFifoHasData, bne_iff_ne, hu.head, hu.tail, Ne,
    fifoIndex_inj (by omega) (by omega)]
  omega

/-- The pixel at the tail. -/
theorem Unpacked.pixel_eq (hu : Unpacked m s words pixels)
    (hdata : pixels.length / m.wordPixels < words.length) :
    rgb m.bpp s.pixel = m.colorOf (wordOf words) pixels.length := by
  have hbit := m.bitpos_lt pixels.length
  rw [Scan.pixel, hu.tail, hu.held _ (Nat.le_refl _) hdata, hu.bitpos, Mode.colorOf,
    BitVec.toNat_setWidth, BitVec.toNat_ofNat]
  rw [Nat.mod_eq_of_lt (show m.bitpos pixels.length < 2 ^ 6 by omega),
    Nat.mod_eq_of_lt (show m.bitpos pixels.length < 2 ^ 5 by omega)]

theorem moveOn_unpack (m : Mode) (s : Scan) :
    (s.moveOn m).dmaFifoTail = s.dmaFifoTail ∧ (s.moveOn m).pixelBitpos = s.pixelBitpos ∧
      (s.moveOn m).pixelBitposIncr = s.pixelBitposIncr ∧
      (s.moveOn m).skipPixel = s.skipPixel := by
  unfold Scan.moveOn Scan.lineEnd
  dsimp only
  split_ifs <;> exact ⟨rfl, rfl, rfl, rfl⟩

/-- A word more. -/
theorem Unpacked.takeWord (hu : Unpacked m s words pixels) (hroom : level m words pixels < 511)
    (w : Word) : Unpacked m (s.takeWord m w) (words ++ [w]) pixels := by
  obtain ⟨htail, hbit, hincr, hskip⟩ := moveOn_unpack m s
  have hle := hu.tail_le
  have hmul : words.length * m.wordPixels ≤ (words.length + 1) * m.wordPixels :=
    Nat.mul_le_mul_right _ (Nat.le_succ _)
  rw [level] at hroom
  refine ⟨hincr.trans hu.incr, ?_, htail.trans hu.tail, hbit.trans hu.bitpos,
    hskip.trans hu.skip, ?_, ?_, ?_⟩
  · change s.dmaFifoHead + 1 = _
    rw [hu.head, ofNat_succ, List.length_append, List.length_singleton]
  · rw [List.length_append, List.length_singleton]
    exact Nat.le_trans hu.le hmul
  · intro n hn hlt
    rw [List.length_append, List.length_singleton] at hlt
    change Function.update s.dmaFifo s.dmaFifoHead w (BitVec.ofNat 9 n) = _
    rw [hu.head]
    by_cases hlast : n = words.length
    · rw [hlast, Function.update_self, wordOf_last]
    · rw [Function.update_of_ne, hu.held n hn (by omega), wordOf_append (by omega)]
      rw [Ne, fifoIndex_inj (by omega) (by omega)]
      exact hlast
  · refine hu.shown.trans (List.map_congr_left fun p hp => ?_)
    have hword : p / m.wordPixels < words.length := by
      rw [Nat.div_lt_iff_lt_mul m.wordPixels_pos]
      exact Nat.lt_of_lt_of_le (List.mem_range.1 hp) hu.le
    rw [Mode.colorOf, Mode.colorOf, wordOf_append hword]

/-- The position behind a pixel, as the registers have it. -/
theorem Unpacked.bitposNext_eq (hu : Unpacked m s words pixels) :
    s.pixelBitposNext = BitVec.ofNat 6 (bitposNext m pixels.length) := by
  have hincr : s.pixelBitposIncr = BitVec.ofNat 6 m.bpp.bits := by
    rw [hu.incr, Mode.bitposIncr]
    cases m.bpp <;> rfl
  rw [Scan.pixelBitposNext, hu.skip, hu.bitpos, hincr, bitposNext]
  split
  · rfl
  · rw [BitVec.ofNat_add]

theorem ofNat_msb {n : Nat} (h : n ≤ 32) :
    (BitVec.ofNat 6 n).msb = decide (n = 32) ∧
      ((BitVec.ofNat 6 n).setWidth 5).setWidth 6 = BitVec.ofNat 6 (n % 32) := by
  interval_cases n <;> decide

/-- A pixel more. -/
theorem Unpacked.putPixel (hu : Unpacked m s words pixels)
    (hdata : pixels.length / m.wordPixels < words.length) {color : Rgb}
    (hcolor : color = m.colorOf (wordOf words) pixels.length) :
    Unpacked m (s.putPixel m color) words (pixels ++ [color]) := by
  have hnext := hu.bitposNext_eq
  have hcases := bitposNext_cases m pixels.length
  have hbit := m.bitpos_lt (pixels.length + 1)
  have hle : bitposNext m pixels.length ≤ 32 := by omega
  obtain ⟨hmsb, hlow⟩ := ofNat_msb hle
  have hlength : (pixels ++ [color]).length = pixels.length + 1 := by
    rw [List.length_append, List.length_singleton]
  refine ⟨hu.incr, hu.head, ?_, ?_, ?_, ?_, ?_, ?_⟩
  · change (if s.pixelBitposNext.msb then s.dmaFifoTail + 1 else s.dmaFifoTail) = _
    rw [hnext, hmsb, hu.tail, hlength]
    rcases hcases with ⟨hword, h32, -⟩ | ⟨hword, hsame⟩
    · rw [if_pos (by simp [h32]), hword, ofNat_succ]
    · rw [if_neg (by rw [decide_eq_true_eq]; omega), hword]
  · change (s.pixelBitposNext.setWidth 5).setWidth 6 = _
    rw [hnext, hlow, hlength]
    rcases hcases with ⟨-, h32, hzero⟩ | ⟨-, hsame⟩
    · rw [h32, hzero]
    · rw [hsame, Nat.mod_eq_of_lt hbit]
  · change (s.skipPixel ^^ m.doublepix) = _
    rw [hu.skip, hlength]
    cases m.doublepix with
    | false => rfl
    | true =>
        have hpar : (pixels.length + 1) % 2 = 1 - pixels.length % 2 := by omega
        rcases Nat.mod_two_eq_zero_or_one pixels.length with h | h <;> simp [h, hpar]
  · rw [hlength]
    have h1 := Nat.lt_mul_of_div_lt hdata m.wordPixels_pos
    omega
  · intro n hn hlt
    rw [hlength] at hn
    exact hu.held n (Nat.le_trans (Nat.div_le_div_right (Nat.le_succ _)) hn) hlt
  · rw [hlength, List.range_succ, List.map_append, ← hu.shown, hcolor]
    rfl

end Unpacked

end Dvi
end F32c
