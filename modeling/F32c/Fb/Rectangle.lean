import F32c.Fb.Bits
import F32c.Fb.Screen
import Mathlib.Tactic

/-!
# Rectangles

`fb_rectangle` fills the rows of a rectangle with the fastest stores its depth
allows.  Every row, of every depth, paints the bits of its pixels with the bits
of the colour, and so do the plots of the single pixels; the two therefore leave
the same memory.
-/

namespace F32c
namespace Fb

section Rows

variable {fb : Screen} {d : Depth} {color : CInt}

/-- The pattern that pixels of a colour make. -/
def pattern (d : Depth) (color : CInt) (k : Int) : Bool := color.getLsbD (k % d.bits).toNat

theorem Depth.bits_pos (d : Depth) : 0 < d.bits := by
  cases d <;> decide

/-- A plot paints its pixel, also with a colour whose other bits differ. -/
theorem painted_plot (hd : fb.plotfn = d) {color' : CInt}
    (hcolor : ∀ j < d.bits, color'.getLsbD j = color.getLsbD j) (off : CInt) :
    Painted fb (pattern d color) [.plot off color']
      (Set.Ico (off.toInt * d.bits) ((off.toInt + 1) * d.bits)) := by
  apply Painted.single
  intro m k
  have hpos := d.bits_pos
  have hmod : (k % d.bits).toNat < d.bits := by
    have := Int.emod_nonneg k (by omega : (d.bits : Int) ≠ 0)
    have := Int.emod_lt_of_pos k (by omega : (0 : Int) < d.bits)
    omega
  rw [Store.run, hd, bitAt_plot, hcolor _ hmod, add_mul, one_mul]
  rfl

/-- Plots of neighbouring pixels of a row. -/
theorem painted_plots (hd : fb.plotfn = d) {color' : CInt}
    (hcolor : ∀ j < d.bits, color'.getLsbD j = color.getLsbD j)
    {x y : CInt} (hy : 0 ≤ y.toInt) (hy' : y.toInt ≤ fb.ml.vdisp) (hx : 0 ≤ x.toInt) (n : Nat)
    (hn : x.toInt + n ≤ fb.ml.hdisp) :
    Painted fb (pattern d color)
      ((List.range n).flatMap fun k => plotUnbounded fb (x + BitVec.ofNat 32 k) y color')
      (Set.Ico ((y.toInt * fb.ml.hdisp + x.toInt) * d.bits)
        ((y.toInt * fb.ml.hdisp + x.toInt + n) * d.bits)) := by
  have hh : (fb.ml.hdisp : Int) ≤ 2 ^ 15 := by exact_mod_cast fb.ml.hdisp_le
  rw [add_mul _ (n : Int), mul_comm (n : Int)]
  apply Painted.range (Int.natCast_nonneg _)
  intro k hk
  have hxk : (x + BitVec.ofNat 32 k).toInt = x.toInt + k := by
    have hkInt := @toInt_ofNat_small k (by omega)
    rw [toInt_add_small (by omega) (by omega), hkInt]
  have hoff := @toInt_offset fb (x + BitVec.ofNat 32 k) y (by omega) (by omega) hy hy'
  have hpaint := painted_plot hd hcolor (y * fb.hdisp + (x + BitVec.ofNat 32 k))
  rw [hoff, hxk] at hpaint
  exact hpaint.bounds (by ring) (by ring)

/-- A `memset` with a byte of pixels. -/
theorem painted_memset {c i l : CInt} (hbits : d.bits ∣ 8)
    (hc : ∀ j < 8, c.getLsbD j = color.getLsbD (j % d.bits)) (hl : 0 ≤ l.toInt) :
    Painted fb (pattern d color) [.memset i c l]
      (Set.Ico (8 * i.toInt) (8 * (i.toInt + l.toInt))) := by
  rw [← toNat_eq_toInt hl]
  apply Painted.single
  intro m k
  have hk : (k % 8).toNat < 8 := by omega
  have hmod : (k % 8).toNat % d.bits = (k % d.bits).toNat := by
    zify
    rw [Int.toNat_of_nonneg (by omega),
      Int.toNat_of_nonneg (Int.emod_nonneg _ (by have := d.bits_pos; omega)),
      Int.emod_emod_of_dvd k (by exact_mod_cast hbits)]
  rw [Store.run, bitAt_memset, BitVec.getLsbD_setWidth, decide_eq_true hk, Bool.true_and, hc _ hk,
    hmod]
  rfl

theorem emod_of_bounds {k i : Int} {b : Nat} (hlow : i * b ≤ k) (hhigh : k < i * b + b) :
    (k % b).toNat = (k - i * b).toNat := by
  have hk : k = (k - i * b) + b * i := by ring
  have hmod : k % b = k - i * b := by
    conv_lhs => rw [hk]
    rw [Int.add_mul_emod_self_left, Int.emod_eq_of_lt (by omega) (by omega)]
  rw [hmod]

/-- `fb16[i]` is a pixel, and a word at `fb16[i]` is two pixels of a colour written twice. -/
theorem painted_half {c i : CInt} (hc : ∀ j < 16, c.getLsbD j = color.getLsbD j) :
    Painted fb (pattern .bpp16 color) [.half i c] (Set.Ico (i.toInt * 16) ((i.toInt + 1) * 16)) := by
  apply Painted.single
  intro m k
  rw [Store.run, bitAt_storeBytes]
  by_cases hk : i.toInt * 16 ≤ k ∧ k < (i.toInt + 1) * 16
  · have hmod := @emod_of_bounds k i.toInt 16 (by push_cast; omega) (by push_cast; omega)
    push_cast at hmod
    rw [if_pos (by push_cast; omega), if_pos hk, hc _ (by omega), pattern, Depth.bits]
    push_cast
    rw [hmod]
    congr 1
    omega
  · rw [if_neg (by push_cast; omega), if_neg hk]

theorem painted_pair {c i : CInt} (hc : ∀ j < 32, c.getLsbD j = color.getLsbD (j % 16)) :
    Painted fb (pattern .bpp16 color) [.pair i c] (Set.Ico (i.toInt * 16) ((i.toInt + 2) * 16)) := by
  apply Painted.single
  intro m k
  rw [Store.run, bitAt_storeBytes]
  by_cases hk : i.toInt * 16 ≤ k ∧ k < (i.toInt + 2) * 16
  · rw [if_pos (by push_cast; omega), if_pos hk, hc _ (by omega), pattern, Depth.bits]
    push_cast
    congr 1
    omega
  · rw [if_neg (by push_cast; omega), if_neg hk]

theorem painted_word {i : CInt} :
    Painted fb (pattern .bpp24 color) [.word i color]
      (Set.Ico (i.toInt * 32) ((i.toInt + 1) * 32)) := by
  apply Painted.single
  intro m k
  rw [Store.run, bitAt_storeBytes]
  by_cases hk : i.toInt * 32 ≤ k ∧ k < (i.toInt + 1) * 32
  · rw [if_pos (by push_cast; omega), if_pos hk, pattern, Depth.bits]
    push_cast
    congr 1
    omega
  · rw [if_neg (by push_cast; omega), if_neg hk]

/-- What a counted loop leaves of its count. -/
theorem toInt_passes {l : CInt} (hl : 0 ≤ l.toInt) {n : Nat} (hn : 0 < n) (hn' : n ≤ 8) :
    (l - BitVec.ofNat 32 n * BitVec.ofNat 32 (passCount l n)).toInt = l.toInt % n ∧
      (n : Int) * passCount l n = l.toInt - l.toInt % n := by
  have hdiv := Int.mul_ediv_add_emod l.toInt n
  have hmod := Int.emod_nonneg l.toInt (by omega : (n : Int) ≠ 0)
  have hnonneg : 0 ≤ l.toInt / n := Int.ediv_nonneg hl (by omega)
  have hcount : (n : Int) * passCount l n = l.toInt - l.toInt % n := by
    rw [passCount, Int.toNat_of_nonneg hnonneg]
    omega
  have hbound := cInt_high l
  have hmul : BitVec.ofNat 32 n * BitVec.ofNat 32 (passCount l n) =
      BitVec.ofNat 32 (n * passCount l n) := by
    rw [BitVec.ofNat_mul]
  have hprod : ((n * passCount l n : Nat) : Int) = n * passCount l n := by push_cast; rfl
  have hsmall := @toInt_ofNat_small (n * passCount l n) (by omega)
  refine ⟨?_, hcount⟩
  rw [hmul, toInt_sub_small (by omega) (by omega), hsmall]
  omega

section Row16

variable {c : CInt} (hc : ∀ j < 32, c.getLsbD j = color.getLsbD (j % 16))

include hc

theorem painted_eights {i : CInt} (hi : 0 ≤ i.toInt) (n : Nat) (h : i.toInt + 8 * n < 2 ^ 31) :
    Painted fb (pattern .bpp16 color)
      ((List.range n).flatMap fun k =>
        [Store.pair (i + 8 * BitVec.ofNat 32 k + 0) c, .pair (i + 8 * BitVec.ofNat 32 k + 2) c,
          .pair (i + 8 * BitVec.ofNat 32 k + 4) c, .pair (i + 8 * BitVec.ofNat 32 k + 6) c])
      (Set.Ico (i.toInt * 16) ((i.toInt + 8 * n) * 16)) := by
  refine (Painted.range (i := i.toInt * 16) (c := 4 * 32) (by omega) n ?_).bounds rfl (by ring)
  intro k hk
  have hbase : (i + 8 * BitVec.ofNat 32 k).toInt = i.toInt + 8 * k :=
    toInt_add_mul (c := 8) hi (by push_cast; omega)
  have hpair : ∀ o : Nat, o ≤ 6 →
      Painted fb (pattern .bpp16 color) [.pair (i + 8 * BitVec.ofNat 32 k + BitVec.ofNat 32 o) c]
        (Set.Ico ((i.toInt + 8 * k + o) * 16) ((i.toInt + 8 * k + o + 2) * 16)) := by
    intro o ho
    have hoff := @toInt_add_nat (i + 8 * BitVec.ofNat 32 k) o (by omega) (by omega)
    rw [← hbase, ← hoff]
    exact painted_pair hc
  refine (Painted.four (i := i.toInt * 16 + 4 * 32 * k) (c := 32) (by omega)
    ((hpair 0 (by omega)).bounds ?_ ?_) ((hpair 2 (by omega)).bounds ?_ ?_)
    ((hpair 4 (by omega)).bounds ?_ ?_) ((hpair 6 (by omega)).bounds ?_ ?_)).bounds rfl ?_
  all_goals push_cast; ring

theorem painted_pairs {i : CInt} (hi : 0 ≤ i.toInt) (n : Nat) (h : i.toInt + 2 * n < 2 ^ 31) :
    Painted fb (pattern .bpp16 color)
      ((List.range n).map fun k => Store.pair (i + 2 * BitVec.ofNat 32 k) c)
      (Set.Ico (i.toInt * 16) ((i.toInt + 2 * n) * 16)) := by
  rw [List.map_eq_flatMap]
  refine (Painted.range (i := i.toInt * 16) (c := 32) (by omega) n ?_).bounds rfl (by ring)
  intro k hk
  have hbase : (i + 2 * BitVec.ofNat 32 k).toInt = i.toInt + 2 * k :=
    toInt_add_mul (c := 2) hi (by push_cast; omega)
  have hpair := @painted_pair fb color c (i + 2 * BitVec.ofNat 32 k) hc
  rw [hbase] at hpair
  exact hpair.bounds (by ring) (by ring)

theorem painted_half_low {i : CInt} :
    Painted fb (pattern .bpp16 color) [.half i c] (Set.Ico (i.toInt * 16) ((i.toInt + 1) * 16)) := by
  apply painted_half
  intro j hj
  rw [hc j (by omega), Nat.mod_eq_of_lt hj]

theorem painted_rowPairs {i l : CInt} (hi : 0 ≤ i.toInt) (hl : 0 ≤ l.toInt)
    (hil : i.toInt + l.toInt < 2 ^ 31) :
    Painted fb (pattern .bpp16 color) (rowPairs i l c)
      (Set.Ico (i.toInt * 16) ((i.toInt + l.toInt) * 16)) := by
  rcases toInt_passes hl (n := 2) (by omega) (by omega) with ⟨hrest, hcount⟩
  push_cast at hrest hcount
  have hi' : (i + 2 * BitVec.ofNat 32 (passCount l 2)).toInt = i.toInt + 2 * passCount l 2 :=
    toInt_add_mul (c := 2) hi (by push_cast; omega)
  have hl' : (l - 2 * BitVec.ofNat 32 (passCount l 2)).toInt = l.toInt % 2 := hrest
  have hlast : Painted fb (pattern .bpp16 color)
      (if l - 2 * BitVec.ofNat 32 (passCount l 2) ≠ 0 then
        [Store.half (i + 2 * BitVec.ofNat 32 (passCount l 2)) c] else [])
      (Set.Ico ((i.toInt + 2 * passCount l 2) * 16) ((i.toInt + l.toInt) * 16)) := by
    rcases Int.emod_two_eq_zero_or_one l.toInt with heven | hodd
    · rw [if_neg (not_not.2 (toInt_eq_zero.1 (hl'.trans heven))), Set.Ico_eq_empty (by omega)]
      exact Painted.nil
    · have hne : l - 2 * BitVec.ofNat 32 (passCount l 2) ≠ 0 := by
        intro h
        have hzero := hl'.symm.trans (toInt_eq_zero.2 h)
        omega
      rw [if_pos hne]
      have hhalf := @painted_half_low fb color c hc (i + 2 * BitVec.ofNat 32 (passCount l 2))
      rw [hi'] at hhalf
      exact hhalf.bounds rfl (by omega)
  exact (painted_pairs hc hi (passCount l 2) (by omega)).adjacent hlast (by omega) (by omega)

theorem painted_rowEights {i l : CInt} (hi : 0 ≤ i.toInt) (hl : 0 ≤ l.toInt)
    (hil : i.toInt + l.toInt < 2 ^ 31) :
    Painted fb (pattern .bpp16 color) (rowEights i l c)
      (Set.Ico (i.toInt * 16) ((i.toInt + l.toInt) * 16)) := by
  rcases toInt_passes hl (n := 8) (by omega) (by omega) with ⟨hrest, hcount⟩
  push_cast at hrest hcount
  have hi' : (i + 8 * BitVec.ofNat 32 (passCount l 8)).toInt = i.toInt + 8 * passCount l 8 :=
    toInt_add_mul (c := 8) hi (by push_cast; omega)
  have hl' : (l - 8 * BitVec.ofNat 32 (passCount l 8)).toInt = l.toInt % 8 := hrest
  have hpairs := @painted_rowPairs fb color c hc (i + 8 * BitVec.ofNat 32 (passCount l 8))
    (l - 8 * BitVec.ofNat 32 (passCount l 8)) (by omega) (by omega) (by omega)
  rw [hi', hl'] at hpairs
  exact (painted_eights hc hi (passCount l 8) (by omega)).adjacent
    (hpairs.bounds rfl (by omega)) (by omega) (by omega)

/-- A row at 16 bits a pixel. -/
theorem painted_row16 {i l : CInt} (hi : 0 ≤ i.toInt) (hl : 1 ≤ l.toInt)
    (hil : i.toInt + l.toInt < 2 ^ 31) :
    Painted fb (pattern .bpp16 color) (row16 i l c)
      (Set.Ico (i.toInt * 16) ((i.toInt + l.toInt) * 16)) := by
  rw [row16]
  split
  · have hone : (1 : CInt).toInt = 1 := rfl
    have hi' : (i + 1).toInt = i.toInt + 1 := by
      rw [toInt_add_small (by omega) (by omega), hone]
    have hl' : (l - 1).toInt = l.toInt - 1 := by
      have := cInt_high l
      rw [toInt_sub_small (by omega) (by omega), hone]
    have hrest := @painted_rowEights fb color c hc (i + 1) (l - 1) (by omega) (by omega) (by omega)
    rw [hi', hl'] at hrest
    exact (painted_half_low hc).adjacent (hrest.bounds rfl (by ring)) (by omega) (by omega)
  · exact painted_rowEights hc hi (by omega) hil

end Row16

/-- A colour of `b` bits written twice. -/
theorem getLsbD_twice (c : CInt) {b j : Nat} (hb : 2 * b ≤ 32) (hj : j < 2 * b) {mask : CInt}
    (hmask : mask = BitVec.ofNat 32 (2 ^ b - 1)) :
    (c <<< b ||| (c &&& mask)).getLsbD j = c.getLsbD (j % b) := by
  rw [BitVec.getLsbD_or, BitVec.getLsbD_and, getLsbD_mask (by omega) hmask,
    BitVec.getLsbD_shiftLeft]
  by_cases h : j < b
  · simp [h, Nat.mod_eq_of_lt h]
  · have hmod : j % b = j - b := by
      rw [Nat.mod_eq_sub_mod (by omega), Nat.mod_eq_of_lt (by omega)]
    simp [h, show j < 32 by omega, hmod]

theorem painted_row24 {i l : CInt} (hi : 0 ≤ i.toInt) (hl : 0 ≤ l.toInt)
    (hil : i.toInt + l.toInt < 2 ^ 31) :
    Painted fb (pattern .bpp24 color) (row24 i l color)
      (Set.Ico (i.toInt * 32) ((i.toInt + l.toInt) * 32)) := by
  rcases toInt_passes hl (n := 4) (by omega) (by omega) with ⟨hrest, hcount⟩
  push_cast at hrest hcount
  have hi' : (i + 4 * BitVec.ofNat 32 (passCount l 4)).toInt = i.toInt + 4 * passCount l 4 :=
    toInt_add_mul (c := 4) hi (by push_cast; omega)
  have hl' : (l - 4 * BitVec.ofNat 32 (passCount l 4)).toInt = l.toInt % 4 := hrest
  have hword : ∀ (j : CInt) (k : Nat), 0 ≤ j.toInt → j.toInt + k < 2 ^ 31 →
      Painted fb (pattern .bpp24 color) [.word (j + BitVec.ofNat 32 k) color]
        (Set.Ico ((j.toInt + k) * 32) ((j.toInt + k + 1) * 32)) := by
    intro j k hj hk
    rw [← toInt_add_nat hj hk]
    exact painted_word
  have hfours : Painted fb (pattern .bpp24 color)
      ((List.range (passCount l 4)).flatMap fun k =>
        [Store.word (i + 4 * BitVec.ofNat 32 k + 0) color,
          .word (i + 4 * BitVec.ofNat 32 k + 1) color,
          .word (i + 4 * BitVec.ofNat 32 k + 2) color,
          .word (i + 4 * BitVec.ofNat 32 k + 3) color])
      (Set.Ico (i.toInt * 32) ((i.toInt + 4 * passCount l 4) * 32)) := by
    refine (Painted.range (i := i.toInt * 32) (c := 4 * 32) (by omega) _ ?_).bounds rfl (by ring)
    intro k hk
    have hbase : (i + 4 * BitVec.ofNat 32 k).toInt = i.toInt + 4 * k :=
      toInt_add_mul (c := 4) hi (by push_cast; omega)
    have hone := fun o ho => hword (i + 4 * BitVec.ofNat 32 k) o (by omega) ho
    rw [hbase] at hone
    refine (Painted.four (i := i.toInt * 32 + 4 * 32 * k) (c := 32) (by omega)
      ((hone 0 (by omega)).bounds ?_ ?_) ((hone 1 (by omega)).bounds ?_ ?_)
      ((hone 2 (by omega)).bounds ?_ ?_) ((hone 3 (by omega)).bounds ?_ ?_)).bounds rfl ?_
    all_goals push_cast; ring
  have hones : Painted fb (pattern .bpp24 color)
      ((List.range (passCount (l - 4 * BitVec.ofNat 32 (passCount l 4)) 1)).map fun k =>
        Store.word (i + 4 * BitVec.ofNat 32 (passCount l 4) + BitVec.ofNat 32 k) color)
      (Set.Ico ((i.toInt + 4 * passCount l 4) * 32) ((i.toInt + l.toInt) * 32)) := by
    have hn : (passCount (l - 4 * BitVec.ofNat 32 (passCount l 4)) 1 : Int) = l.toInt % 4 := by
      rw [passCount, hl']
      omega
    rw [List.map_eq_flatMap]
    refine (Painted.range (i := (i.toInt + 4 * passCount l 4) * 32) (c := 32) (by omega) _
      ?_).bounds rfl (by rw [hn]; omega)
    intro k hk
    have hone := hword (i + 4 * BitVec.ofNat 32 (passCount l 4)) k (by omega) (by omega)
    rw [hi'] at hone
    exact hone.bounds (by ring) (by ring)
  exact hfours.adjacent hones (by omega) (by omega)

section Packed

/-- The depths with more than one pixel in a byte. -/
def Depth.packed (d : Depth) : Bool := decide (d.bits < 8)

/-- The byte made of copies of the colour. -/
theorem getLsbD_replicate (hd : fb.depth = some d) (hpacked : d.packed = true) {j : Nat}
    (hj : j < 8) : (replicate fb.depth color).getLsbD j = color.getLsbD (j % d.bits) := by
  rw [hd]
  cases d with
  | bpp1 =>
      simp only [replicate, Depth.bits, if_true, true_or]
      rw [@getLsbD_twice _ 4 j (by omega) hj 0xf#32 rfl,
        @getLsbD_twice _ 2 (j % 4) (by omega) (by omega) 0x3#32 rfl,
        @getLsbD_twice _ 1 (j % 4 % 2) (by omega) (by omega) 0x1#32 rfl]
      congr 1
      omega
  | bpp2 =>
      simp only [replicate, Depth.bits, Option.some.injEq, reduceCtorEq, if_false, or_true, true_or,
        if_true]
      rw [@getLsbD_twice _ 4 j (by omega) hj 0xf#32 rfl,
        @getLsbD_twice _ 2 (j % 4) (by omega) (by omega) 0x3#32 rfl]
      congr 1
      omega
  | bpp4 =>
      simp only [replicate, Depth.bits, Option.some.injEq, reduceCtorEq, if_false, or_true,
        if_true, or_false]
      exact @getLsbD_twice _ 4 j (by omega) hj 0xf#32 rfl
  | bpp8 => simp [Depth.packed, Depth.bits] at hpacked
  | bpp16 => simp [Depth.packed, Depth.bits] at hpacked
  | bpp24 => simp [Depth.packed, Depth.bits] at hpacked

theorem packShift_eq (hd : fb.depth = some d) (hpacked : d.packed = true) :
    d.bits * 2 ^ packShift fb = 8 := by
  rw [packShift, Screen.bpp, hd]
  cases d <;> simp_all [Depth.packed, Depth.bits]

/-- What `takeWhile` leaves of a counted list. -/
theorem takeWhile_range {α : Type} (p : α → Bool) (f : Nat → α) (n : Nat) :
    ∃ h ≤ n, ((List.range n).map f).takeWhile p = (List.range h).map f ∧
      (∀ k < h, p (f k) = true) ∧ (h < n → p (f h) = false) := by
  induction n with
  | zero => exact ⟨0, le_refl 0, rfl, by simp, by simp⟩
  | succ n ih =>
      rcases ih with ⟨h, hle, htake, hbelow, hstop⟩
      rw [List.range_succ, List.map_append, List.map_singleton]
      rw [List.takeWhile_append, htake]
      rcases Nat.lt_or_eq_of_le hle with hlt | rfl
      · refine ⟨h, by omega, ?_, hbelow, fun _ => hstop hlt⟩
        rw [if_neg (by simp; omega)]
      · rw [if_pos rfl]
        cases hp : p (f h) with
        | true =>
            refine ⟨h + 1, le_refl _, ?_, ?_, by simp⟩
            · rw [List.range_succ, List.map_append, List.map_singleton]
              simp [hp]
            · intro k hk
              rcases Nat.lt_or_eq_of_le (Nat.le_of_lt_succ hk) with hlt | rfl
              · exact hbelow k hlt
              · exact hp
        | false => exact ⟨h, by omega, by simp [hp], hbelow, fun _ => hp⟩

/-- The single pixels before the first whole byte of a row. -/
theorem head_spec {x0 x1 mask : CInt} {n : Nat} (hn : n ≤ 3)
    (hmask : mask = BitVec.ofNat 32 (2 ^ n - 1)) (hx : 0 ≤ x0.toInt) (hx' : x0.toInt ≤ x1.toInt)
    (hx1 : x1.toInt < 2 ^ 15) :
    ∃ h : Nat,
      ((List.range 8).map fun k => x0 + BitVec.ofNat 32 k).takeWhile
        (fun x => x.sle x1 && (x &&& mask) != 0) =
        (List.range h).map (fun k => x0 + BitVec.ofNat 32 k) ∧
      x0.toInt + h ≤ x1.toInt + 1 ∧
      (x0.toInt + h = x1.toInt + 1 ∨ (x0.toInt + h) % 2 ^ n = 0) := by
  have hpow : (2 : Int) ^ n ≤ 8 := by
    have := pow_le_pow_right₀ (by omega : (1 : Int) ≤ 2) hn
    omega
  have hpos : (0 : Int) < 2 ^ n := by positivity
  have hfits : ∀ k < 8, (x0 + BitVec.ofNat 32 k).toInt = x0.toInt + k := by
    intro k hk
    exact toInt_add_nat hx (by omega)
  -- the test of the loop, on the numbers
  have htest : ∀ k < 8, ((x0 + BitVec.ofNat 32 k).sle x1 &&
      ((x0 + BitVec.ofNat 32 k) &&& mask) != 0) = true ↔
      x0.toInt + k ≤ x1.toInt ∧ (x0.toInt + k) % 2 ^ n ≠ 0 := by
    intro k hk
    have hzero : (x0 + BitVec.ofNat 32 k) &&& mask = 0 ↔ (x0.toInt + k) % 2 ^ n = 0 := by
      have hlow := toNat_and_low (x0 + BitVec.ofNat 32 k) (n := n) (by omega)
      have hnonneg := Int.emod_nonneg (x0.toInt + k) (by omega : (2 : Int) ^ n ≠ 0)
      rw [hfits k hk] at hlow
      rw [hmask, ← BitVec.toNat_inj, hlow]
      simp only [BitVec.ofNat_eq_ofNat, BitVec.toNat_ofNat, Nat.zero_mod]
      omega
    rw [Bool.and_eq_true, BitVec.sle_eq_decide, hfits k hk, decide_eq_true_eq, bne_iff_ne, ne_eq,
      hzero]
  rcases takeWhile_range (fun x => x.sle x1 && (x &&& mask) != 0)
    (fun k => x0 + BitVec.ofNat 32 k) 8 with ⟨h, hle, htake, hbelow, hstop⟩
  -- one of eight neighbours is a multiple
  have hlt : h < 8 := by
    by_contra hge
    obtain ⟨k, hk⟩ : ∃ k : Nat, (-x0.toInt) % 2 ^ n = k :=
      ⟨((-x0.toInt) % 2 ^ n).toNat, by
        have := Int.emod_nonneg (-x0.toInt) (by omega : (2 : Int) ^ n ≠ 0)
        omega⟩
    have hk8 : k < 8 := by
      have := Int.emod_lt_of_pos (-x0.toInt) hpos
      omega
    refine ((htest k hk8).1 (hbelow k (by omega))).2 ?_
    rw [← hk, Int.add_emod, Int.emod_emod, ← Int.add_emod, add_neg_cancel, Int.zero_emod]
  have hlast : x0.toInt + h ≤ x1.toInt + 1 := by
    rcases Nat.eq_zero_or_pos h with rfl | hh
    · push_cast
      omega
    · have := ((htest (h - 1) (by omega)).1 (hbelow (h - 1) (by omega))).1
      push_cast [hh] at this
      omega
  refine ⟨h, htake, hlast, ?_⟩
  have hnot := hstop hlt
  rw [← Bool.not_eq_true, htest h hlt] at hnot
  by_cases hmod : (x0.toInt + h) % 2 ^ n = 0
  · exact Or.inr hmod
  · left
    have : ¬x0.toInt + h ≤ x1.toInt := fun h' => hnot ⟨h', hmod⟩
    omega

/-- Clearing the low bits rounds down. -/
theorem toInt_round_down {v : CInt} (hv : 0 ≤ v.toInt) {n : Nat} (hn : n ≤ 3) :
    (v &&& ~~~(BitVec.ofNat 32 (2 ^ n - 1))).toInt = v.toInt - v.toInt % 2 ^ n := by
  have hpos : (0 : Int) < 2 ^ n := by positivity
  have hsum : (v &&& ~~~(BitVec.ofNat 32 (2 ^ n - 1))) + (v &&& BitVec.ofNat 32 (2 ^ n - 1)) = v := by
    rw [BitVec.add_eq_or_of_and_eq_zero]
    · apply BitVec.eq_of_getLsbD_eq
      intro j hj
      simp only [BitVec.getLsbD_or, BitVec.getLsbD_and, BitVec.getLsbD_not, hj, decide_true,
        Bool.true_and]
      cases v.getLsbD j <;> cases (BitVec.ofNat 32 (2 ^ n - 1)).getLsbD j <;> rfl
    · apply BitVec.eq_of_getLsbD_eq
      intro j hj
      simp only [BitVec.getLsbD_and, BitVec.getLsbD_not, hj, decide_true, Bool.true_and,
        BitVec.getLsbD_zero]
      cases v.getLsbD j <;> cases (BitVec.ofNat 32 (2 ^ n - 1)).getLsbD j <;> rfl
  have hlow := toNat_and_low v (n := n) (by omega)
  have hmod := Int.emod_nonneg v.toInt (by omega : (2 : Int) ^ n ≠ 0)
  have hmodle : v.toInt % 2 ^ n ≤ v.toInt := by
    have hdiv := Int.mul_ediv_add_emod v.toInt (2 ^ n)
    have hquot : 0 ≤ 2 ^ n * (v.toInt / 2 ^ n) :=
      mul_nonneg (le_of_lt hpos) (Int.ediv_nonneg hv (le_of_lt hpos))
    omega
  have hrest : (v &&& BitVec.ofNat 32 (2 ^ n - 1)).toInt = v.toInt % 2 ^ n := by
    have hhigh := cInt_high v
    rw [BitVec.toInt_eq_toNat_cond, hlow, if_pos (by omega)]
    omega
  have hdiff : v &&& ~~~(BitVec.ofNat 32 (2 ^ n - 1)) = v - (v &&& BitVec.ofNat 32 (2 ^ n - 1)) := by
    rw [eq_sub_iff_add_eq]
    exact hsum
  have hhigh := cInt_high v
  rw [hdiff, toInt_sub_small (by omega) (by omega), hrest]

theorem packShift_le : packShift fb ≤ 3 := by
  rw [packShift]
  split
  · omega
  · split <;> omega

/-- The three parts of a row: the first pixels, whole bytes from the pixel `x` on, and the
pixels that are left. -/
theorem rowPacked_parts {n : Nat} (hn : packShift fb = n) {x0 x1 y : CInt} (c : CInt)
    (hx : 0 ≤ x0.toInt) (hx' : x0.toInt ≤ x1.toInt) (hx1 : x1.toInt < fb.ml.hdisp)
    (hy : 0 ≤ y.toInt) (hy' : y.toInt < fb.ml.vdisp) :
    ∃ (h : Nat) (x l : CInt),
      rowPacked fb x0 x1 y c =
        ((List.range h).flatMap fun k => plotUnbounded fb (x0 + BitVec.ofNat 32 k) y c) ++
          [.memset ((y * fb.hdisp + x).sshiftRight n) c (l.sshiftRight n)] ++
          (upTo (x + l) x1).flatMap (fun x => plotUnbounded fb x y c) ∧
      x.toInt = x0.toInt + h ∧ x.toInt ≤ x1.toInt + 1 ∧
      (x.toInt = x1.toInt + 1 ∨ x.toInt % 2 ^ n = 0) ∧
      l.toInt = x1.toInt - x.toInt + 1 - (x1.toInt - x.toInt + 1) % 2 ^ n ∧
      (l.sshiftRight n).toInt = (x1.toInt - x.toInt + 1) / 2 ^ n ∧
      ((y * fb.hdisp + x).sshiftRight n).toInt = (y.toInt * fb.ml.hdisp + x.toInt) / 2 ^ n := by
  have hh : (fb.ml.hdisp : Int) ≤ 2 ^ 15 := by exact_mod_cast fb.ml.hdisp_le
  have hn3 : n ≤ 3 := by
    rw [← hn]
    exact packShift_le
  have hmask : (1#32 <<< n - 1 : CInt) = BitVec.ofNat 32 (2 ^ n - 1) := by
    interval_cases n <;> rfl
  rcases head_spec hn3 hmask hx hx' (by omega) with ⟨h, htake, hle, hend⟩
  have hX : (x0 + BitVec.ofNat 32 h).toInt = x0.toInt + h := toInt_add_nat hx (by omega)
  obtain ⟨x, hxdef⟩ : ∃ x, x0 + BitVec.ofNat 32 h = x := ⟨_, rfl⟩
  rw [hxdef] at hX
  have hR : (x1 - x + 1).toInt = x1.toInt - x.toInt + 1 := by
    have hone : (1 : CInt).toInt = 1 := rfl
    have hsub := @toInt_sub_small x1 x (by omega) (by omega)
    rw [toInt_add_small (by omega) (by omega), hsub, hone]
  have hl := @toInt_round_down (x1 - x + 1) (by omega) n hn3
  rw [hR] at hl
  refine ⟨h, x, (x1 - x + 1) &&& ~~~(BitVec.ofNat 32 (2 ^ n - 1)), ?_, hX, by omega, ?_, hl, ?_, ?_⟩
  · rw [rowPacked]
    simp only [hn, htake, List.length_map, List.length_range, List.flatMap_map, hxdef]
    rw [hmask]
  · rw [hX]
    exact hend
  · obtain ⟨R, hRdef⟩ : ∃ R, x1.toInt - x.toInt + 1 = R := ⟨_, rfl⟩
    rw [hRdef] at hl ⊢
    have hpos : (0 : Int) < 2 ^ n := by positivity
    have hdiv := Int.mul_ediv_add_emod R (2 ^ n)
    rw [BitVec.toInt_sshiftRight, Int.shiftRight_eq_div_pow, hl]
    push_cast
    rw [show R - R % 2 ^ n = 2 ^ n * (R / 2 ^ n) by omega, Int.mul_ediv_cancel_left _ (by omega)]
  · have hoff := @toInt_offset fb x y (by omega) (by omega) hy (le_of_lt hy')
    rw [BitVec.toInt_sshiftRight, Int.shiftRight_eq_div_pow, hoff]
    push_cast
    rfl

/-- A row of packed pixels, where the rows of the screen begin with a byte. -/
theorem painted_rowPacked (hd : fb.depth = some d) (hpacked : d.packed = true)
    (halign : 8 ∣ fb.ml.hdisp * d.bits) {x0 x1 y : CInt} (hx : 0 ≤ x0.toInt)
    (hx' : x0.toInt ≤ x1.toInt) (hx1 : x1.toInt < fb.ml.hdisp) (hy : 0 ≤ y.toInt)
    (hy' : y.toInt < fb.ml.vdisp) :
    Painted fb (pattern d color) (rowPacked fb x0 x1 y (replicate fb.depth color))
      (Set.Ico ((y.toInt * fb.ml.hdisp + x0.toInt) * d.bits)
        ((y.toInt * fb.ml.hdisp + x1.toInt + 1) * d.bits)) := by
  have hh : (fb.ml.hdisp : Int) ≤ 2 ^ 15 := by exact_mod_cast fb.ml.hdisp_le
  have hshift := packShift_eq hd hpacked
  have hplotfn := fb.installed d hd
  have hcolor : ∀ j < d.bits, (replicate fb.depth color).getLsbD j = color.getLsbD j := by
    intro j hj
    have hbits : d.bits < 8 := by simpa [Depth.packed] using hpacked
    rw [getLsbD_replicate hd hpacked (by omega), Nat.mod_eq_of_lt hj]
  obtain ⟨n, hn⟩ : ∃ n, packShift fb = n := ⟨_, rfl⟩
  rw [hn] at hshift
  rcases rowPacked_parts hn (replicate fb.depth color) hx hx' hx1 hy hy' with
    ⟨h, x, l, hparts, hX, hle, hend, hl, hlen, hi⟩
  rw [hparts]
  obtain ⟨R, hRdef⟩ : ∃ R, x1.toInt - x.toInt + 1 = R := ⟨_, rfl⟩
  rw [hRdef] at hl hlen
  have hpos : (0 : Int) < 2 ^ n := by positivity
  have hdiv := Int.mul_ediv_add_emod R (2 ^ n)
  have hmod := Int.emod_nonneg R (by omega : (2 : Int) ^ n ≠ 0)
  have hquot : 0 ≤ R / 2 ^ n := Int.ediv_nonneg (by omega) (le_of_lt hpos)
  have hquot' : 0 ≤ 2 ^ n * (R / 2 ^ n) := mul_nonneg (le_of_lt hpos) hquot
  have hbytes : (d.bits : Int) * 2 ^ n = 8 := by exact_mod_cast hshift
  have hhead := @painted_plots fb d color hplotfn _ hcolor x0 y hy (le_of_lt hy') hx h (by omega)
  have hmemset : Painted fb (pattern d color)
      [.memset ((y * fb.hdisp + x).sshiftRight n) (replicate fb.depth color) (l.sshiftRight n)]
      (Set.Ico ((y.toInt * fb.ml.hdisp + x0.toInt + h) * d.bits)
        ((y.toInt * fb.ml.hdisp + x0.toInt + h + l.toInt) * d.bits)) := by
    have hpaint := @painted_memset fb d color (replicate fb.depth color)
      ((y * fb.hdisp + x).sshiftRight n) (l.sshiftRight n) ⟨2 ^ n, hshift.symm⟩
      (fun j hj => getLsbD_replicate hd hpacked hj) (by omega)
    rw [hi, hlen] at hpaint
    rcases hend with hall | hmul
    · have hzero : R = 0 := by omega
      have hl0 : l.toInt = 0 := by
        rw [hl, hzero]
        simp
      rw [hzero, Int.zero_ediv, add_zero, Set.Ico_self] at hpaint
      rw [hl0, add_zero, Set.Ico_self]
      exact hpaint
    · have hexact : 2 ^ n * ((y.toInt * fb.ml.hdisp + x.toInt) / 2 ^ n) =
          y.toInt * fb.ml.hdisp + x.toInt := by
        apply Int.mul_ediv_cancel'
        have hline : (2 : Int) ^ n ∣ fb.ml.hdisp := by
          rw [← hshift, Nat.mul_comm fb.ml.hdisp] at halign
          exact_mod_cast Nat.dvd_of_mul_dvd_mul_left d.bits_pos halign
        exact dvd_add (dvd_mul_of_dvd_right hline _) (Int.dvd_of_emod_eq_zero hmul)
      have hwhole : 2 ^ n * (R / 2 ^ n) = l.toInt := by omega
      refine hpaint.bounds ?_ ?_
      · calc 8 * ((y.toInt * fb.ml.hdisp + x.toInt) / 2 ^ n)
            = 2 ^ n * ((y.toInt * fb.ml.hdisp + x.toInt) / 2 ^ n) * d.bits := by
              rw [← hbytes]
              ring
          _ = (y.toInt * fb.ml.hdisp + x0.toInt + h) * d.bits := by
              rw [hexact, hX]
              ring
      · calc 8 * ((y.toInt * fb.ml.hdisp + x.toInt) / 2 ^ n + R / 2 ^ n)
            = 2 ^ n * ((y.toInt * fb.ml.hdisp + x.toInt) / 2 ^ n) * d.bits +
                2 ^ n * (R / 2 ^ n) * d.bits := by
              rw [← hbytes]
              ring
          _ = (y.toInt * fb.ml.hdisp + x0.toInt + h + l.toInt) * d.bits := by
              rw [hexact, hwhole, hX]
              ring
  have htail : Painted fb (pattern d color)
      ((upTo (x + l) x1).flatMap fun x => plotUnbounded fb x y (replicate fb.depth color))
      (Set.Ico ((y.toInt * fb.ml.hdisp + x0.toInt + h + l.toInt) * d.bits)
        ((y.toInt * fb.ml.hdisp + x1.toInt + 1) * d.bits)) := by
    have hxl : (x + l).toInt = x0.toInt + h + l.toInt := by
      rw [toInt_add_small (by omega) (by omega), hX]
    have hplots := @painted_plots fb d color hplotfn _ hcolor (x + l) y hy (le_of_lt hy') (by omega)
      (x1.toInt - (x + l).toInt + 1).toNat (by omega)
    rw [upTo, List.flatMap_map]
    refine hplots.bounds ?_ ?_
    · rw [hxl]
      ring
    · congr 1
      omega
  have hb : (0 : Int) ≤ d.bits := Int.natCast_nonneg _
  refine ((hhead.adjacent hmemset ?_ ?_).adjacent htail ?_ ?_)
  all_goals apply mul_le_mul_of_nonneg_right _ hb
  all_goals omega

end Packed

end Rows

section Rectangle

variable {fb : Screen} {d : Depth} {color : CInt}

/-- The bits of a pixel. -/
def pixelBits (fb : Screen) (d : Depth) (x y : Int) : Set Int :=
  Set.Ico ((y * fb.ml.hdisp + x) * d.bits) ((y * fb.ml.hdisp + x + 1) * d.bits)

/-- The bits of a row are the bits of its pixels. -/
theorem mem_row {y x0 x1 k : Int} (hk : 0 < d.bits) :
    k ∈ Set.Ico ((y * fb.ml.hdisp + x0) * d.bits) ((y * fb.ml.hdisp + x1 + 1) * d.bits) ↔
      ∃ x, x0 ≤ x ∧ x ≤ x1 ∧ k ∈ pixelBits fb d x y := by
  have hb : (0 : Int) < d.bits := by exact_mod_cast hk
  simp only [pixelBits, Set.mem_Ico, ← Int.le_ediv_iff_mul_le hb, ← Int.ediv_lt_iff_lt_mul hb]
  constructor
  · rintro ⟨hlow, hhigh⟩
    exact ⟨k / d.bits - y * fb.ml.hdisp, by omega, by omega, by omega, by omega⟩
  · rintro ⟨x, hx0, hx1, hlow, hhigh⟩
    exact ⟨by omega, by omega⟩

/-- The bits of the pixels that a rectangle has on the screen. -/
def rectangleBits (fb : Screen) (d : Depth) (x0 y0 x1 y1 : CInt) : Set Int :=
  {k | ∃ x y, OnScreen fb x y ∧ min x0.toInt x1.toInt ≤ x ∧ x ≤ max x0.toInt x1.toInt ∧
    min y0.toInt y1.toInt ≤ y ∧ y ≤ max y0.toInt y1.toInt ∧ k ∈ pixelBits fb d x y}

/-- Rows that paint their pixels paint the rectangle. -/
theorem painted_rows (x0 y0 x1 y1 : CInt) {row : CInt → List Store}
    (hrow : ∀ y : CInt, (clip fb x0 y0 x1 y1).y0.toInt ≤ y.toInt →
      y.toInt ≤ (clip fb x0 y0 x1 y1).y1.toInt →
      Painted fb (pattern d color) (row y)
        (Set.Ico ((y.toInt * fb.ml.hdisp + (clip fb x0 y0 x1 y1).x0.toInt) * d.bits)
          ((y.toInt * fb.ml.hdisp + (clip fb x0 y0 x1 y1).x1.toInt + 1) * d.bits))) :
    Painted fb (pattern d color)
      ((upTo (clip fb x0 y0 x1 y1).y0 (clip fb x0 y0 x1 y1).y1).flatMap row)
      (rectangleBits fb d x0 y0 x1 y1) := by
  rcases @clip_toInt fb x0 y0 x1 y1 with ⟨hcx0, hcx1, hcy0, hcy1⟩
  have hlo : 0 ≤ (clip fb x0 y0 x1 y1).y0.toInt := by omega
  have hv : (fb.ml.vdisp : Int) ≤ 2 ^ 15 := by exact_mod_cast fb.ml.vdisp_le
  have hrows := Painted.flatMap (l := upTo (clip fb x0 y0 x1 y1).y0 (clip fb x0 y0 x1 y1).y1)
    fun y hy => hrow y ((mem_upTo hlo).1 hy).1 ((mem_upTo hlo).1 hy).2
  have hset : rectangleBits fb d x0 y0 x1 y1 =
      {k | ∃ y ∈ upTo (clip fb x0 y0 x1 y1).y0 (clip fb x0 y0 x1 y1).y1,
        k ∈ Set.Ico ((y.toInt * fb.ml.hdisp + (clip fb x0 y0 x1 y1).x0.toInt) * d.bits)
          ((y.toInt * fb.ml.hdisp + (clip fb x0 y0 x1 y1).x1.toInt + 1) * d.bits)} := by
    ext k
    simp only [rectangleBits, Set.mem_ofPred_eq, mem_upTo hlo, mem_row d.bits_pos, OnScreen]
    constructor
    · rintro ⟨x, y, hon, hx0, hx1, hy0, hy1, hk⟩
      have hy := @toInt_ofInt_small y (by omega) (by omega)
      exact ⟨BitVec.ofInt 32 y, by omega, x, by omega, by omega, by rwa [hy]⟩
    · rintro ⟨y, hy, x, hx0, hx1, hk⟩
      exact ⟨x, y.toInt, by omega, by omega, by omega, by omega, by omega, hk⟩
  rw [hset]
  exact hrows

/-- `fb_rectangle` paints the pixels it has on the screen, at every depth. -/
theorem painted_rectangle (hd : fb.depth = some d) (halign : 8 ∣ fb.ml.hdisp * d.bits)
    (x0 y0 x1 y1 : CInt)
    (hmeets : max 0 (min x0.toInt x1.toInt) ≤
      min ((fb.ml.hdisp : Int) - 1) (max x0.toInt x1.toInt)) :
    Painted fb (pattern d color) (fbRectangle fb x0 y0 x1 y1 color)
      (rectangleBits fb d x0 y0 x1 y1) := by
  rcases @clip_toInt fb x0 y0 x1 y1 with ⟨hcx0, hcx1, hcy0, hcy1⟩
  obtain ⟨r, hr⟩ : ∃ r, clip fb x0 y0 x1 y1 = r := ⟨_, rfl⟩
  have hh : (fb.ml.hdisp : Int) ≤ 2 ^ 15 := by exact_mod_cast fb.ml.hdisp_le
  have hv : (fb.ml.vdisp : Int) ≤ 2 ^ 15 := by exact_mod_cast fb.ml.vdisp_le
  have hrows := @painted_rows fb d color x0 y0 x1 y1
  rw [hr] at hcx0 hcx1 hcy0 hcy1 hrows
  have hl : (r.x1 - r.x0 + 1).toInt = r.x1.toInt - r.x0.toInt + 1 := by
    have hone : (1 : CInt).toInt = 1 := rfl
    have hsub := @toInt_sub_small r.x1 r.x0 (by omega) (by omega)
    rw [toInt_add_small (by omega) (by omega), hsub, hone]
  have hoff : ∀ y : CInt, r.y0.toInt ≤ y.toInt → y.toInt ≤ r.y1.toInt →
      (y * fb.hdisp + r.x0).toInt = y.toInt * fb.ml.hdisp + r.x0.toInt ∧
      0 ≤ y.toInt * fb.ml.hdisp + r.x0.toInt ∧
      y.toInt * fb.ml.hdisp + r.x0.toInt + (r.x1.toInt - r.x0.toInt + 1) < 2 ^ 31 := by
    intro y hy hy'
    have hprod : y.toInt * fb.ml.hdisp ≤ 2 ^ 15 * 2 ^ 15 :=
      mul_le_mul (by omega) hh (by omega) (by omega)
    have hnonneg : 0 ≤ y.toInt * fb.ml.hdisp := mul_nonneg (by omega) (by omega)
    exact ⟨toInt_offset fb (by omega) (by omega) (by omega) (by omega), by omega, by omega⟩
  rw [fbRectangle, hr]
  simp only [hd]
  cases d with
  | bpp8 =>
      simp only
      rw [rectangle8, List.map_eq_flatMap]
      apply hrows
      intro y hy hy'
      rcases hoff y hy hy' with ⟨hi, hnonneg, hsmall⟩
      have hi' : r.y0 * fb.hdisp + r.x0 + (y - r.y0) * fb.hdisp = y * fb.hdisp + r.x0 := by ring
      rw [hi']
      have hpaint := @painted_memset fb .bpp8 color color (y * fb.hdisp + r.x0)
        (r.x1 - r.x0 + 1) (by decide) (fun j hj => by rw [Depth.bits, Nat.mod_eq_of_lt hj])
        (by omega)
      rw [hi, hl] at hpaint
      refine hpaint.bounds ?_ ?_
      · rw [Depth.bits]
        push_cast
        ring
      · rw [Depth.bits]
        push_cast
        ring
  | bpp16 =>
      simp only
      rw [rectangle16]
      apply hrows
      intro y hy hy'
      rcases hoff y hy hy' with ⟨hi, hnonneg, hsmall⟩
      have hpaint := @painted_row16 fb color (color <<< 16 ||| (color &&& 0xffff#32))
        (fun j hj => @getLsbD_twice color 16 j (by omega) hj 0xffff#32 rfl)
        (y * fb.hdisp + r.x0) (r.x1 - r.x0 + 1) (by omega) (by omega) (by omega)
      rw [hi, hl] at hpaint
      exact hpaint.bounds rfl (by rw [Depth.bits]; push_cast; ring)
  | bpp24 =>
      simp only
      rw [rectangle24]
      apply hrows
      intro y hy hy'
      rcases hoff y hy hy' with ⟨hi, hnonneg, hsmall⟩
      have hpaint := @painted_row24 fb color (y * fb.hdisp + r.x0) (r.x1 - r.x0 + 1)
        (by omega) (by omega) (by omega)
      rw [hi, hl] at hpaint
      exact hpaint.bounds rfl (by rw [Depth.bits]; push_cast; ring)
  | bpp1 =>
      simp only
      rw [rectanglePacked]
      apply hrows
      intro y hy hy'
      exact painted_rowPacked hd rfl halign (by omega) (by omega) (by omega) (by omega) (by omega)
  | bpp2 =>
      simp only
      rw [rectanglePacked]
      apply hrows
      intro y hy hy'
      exact painted_rowPacked hd rfl halign (by omega) (by omega) (by omega) (by omega) (by omega)
  | bpp4 =>
      simp only
      rw [rectanglePacked]
      apply hrows
      intro y hy hy'
      exact painted_rowPacked hd rfl halign (by omega) (by omega) (by omega) (by omega) (by omega)

/-- Plotting pixels one by one paints those on the screen. -/
theorem painted_pixels (hd : fb.depth = some d) (pixels : List (CInt × CInt)) :
    Painted fb (pattern d color) (pixels.flatMap fun p => fbPlot fb p.1 p.2 color)
      {k | ∃ p ∈ pixels, OnScreen fb p.1.toInt p.2.toInt ∧
        k ∈ pixelBits fb d p.1.toInt p.2.toInt} := by
  have hpixel : ∀ p : CInt × CInt, Painted fb (pattern d color) (fbPlot fb p.1 p.2 color)
      {k | OnScreen fb p.1.toInt p.2.toInt ∧ k ∈ pixelBits fb d p.1.toInt p.2.toInt} := by
    intro p
    by_cases hon : OnScreen fb p.1.toInt p.2.toInt
    · have hset : {k | OnScreen fb p.1.toInt p.2.toInt ∧ k ∈ pixelBits fb d p.1.toInt p.2.toInt} =
          pixelBits fb d p.1.toInt p.2.toInt := by
        ext k
        simp [hon]
      have htest := (offScreen_eq fb p.1 p.2).2 hon
      rw [hset, fbPlot, htest, if_neg Bool.false_ne_true, pixelBits]
      rcases hon with ⟨hx, hx', hy, hy'⟩
      rw [← toInt_offset fb hx (le_of_lt hx') hy (le_of_lt hy')]
      exact painted_plot (fb.installed d hd) (fun _ _ => rfl) _
    · have hset : {k | OnScreen fb p.1.toInt p.2.toInt ∧ k ∈ pixelBits fb d p.1.toInt p.2.toInt} =
          ∅ := by
        ext k
        simp [hon]
      have htest : offScreen fb p.1 p.2 = true := by
        rw [← offScreen_eq, Bool.not_eq_false] at hon
        exact hon
      rw [hset, fbPlot, htest, if_pos rfl]
      exact Painted.nil
  exact Painted.flatMap fun p _ => hpixel p

/-- `fb_rectangle` leaves the framebuffer as `fb_plot` of every pixel of the rectangle does: the
pixels on the screen have the colour and every other bit is as it was. -/
theorem fbRectangle_eq_plots
    (fb : Screen) (d : Depth) (hd : fb.depth = some d) (halign : 8 ∣ fb.ml.hdisp)
    (x0 y0 x1 y1 color : CInt)
    (hmeets : max 0 (min x0.toInt x1.toInt) ≤
      min ((fb.ml.hdisp : Int) - 1) (max x0.toInt x1.toInt))
    (pixels : List (CInt × CInt))
    (hpixels : ∀ p : CInt × CInt, p ∈ pixels ↔
      min x0.toInt x1.toInt ≤ p.1.toInt ∧ p.1.toInt ≤ max x0.toInt x1.toInt ∧
      min y0.toInt y1.toInt ≤ p.2.toInt ∧ p.2.toInt ≤ max y0.toInt y1.toInt)
    (m : Memory) :
    runStores fb (fbRectangle fb x0 y0 x1 y1 color) m =
        runStores fb (pixels.flatMap fun p => fbPlot fb p.1 p.2 color) m ∧
      ∀ k,
        (k ∈ rectangleBits fb d x0 y0 x1 y1 →
          bitAt (runStores fb (fbRectangle fb x0 y0 x1 y1 color) m) k = pattern d color k) ∧
        (k ∉ rectangleBits fb d x0 y0 x1 y1 →
          bitAt (runStores fb (fbRectangle fb x0 y0 x1 y1 color) m) k = bitAt m k) := by
  have hrect := @painted_rectangle fb d color hd (dvd_mul_of_dvd_left halign d.bits) x0 y0 x1 y1
    hmeets
  have hset : {k | ∃ p ∈ pixels, OnScreen fb p.1.toInt p.2.toInt ∧
      k ∈ pixelBits fb d p.1.toInt p.2.toInt} = rectangleBits fb d x0 y0 x1 y1 := by
    have hh : (fb.ml.hdisp : Int) ≤ 2 ^ 15 := by exact_mod_cast fb.ml.hdisp_le
    have hv : (fb.ml.vdisp : Int) ≤ 2 ^ 15 := by exact_mod_cast fb.ml.vdisp_le
    ext k
    simp only [rectangleBits, Set.mem_ofPred_eq]
    constructor
    · rintro ⟨p, hp, hon, hk⟩
      rcases (hpixels p).1 hp with ⟨hx0, hx1, hy0, hy1⟩
      exact ⟨p.1.toInt, p.2.toInt, hon, hx0, hx1, hy0, hy1, hk⟩
    · rintro ⟨x, y, hon, hx0, hx1, hy0, hy1, hk⟩
      have hx := @toInt_ofInt_small x (by rcases hon; omega) (by rcases hon; omega)
      have hy := @toInt_ofInt_small y (by rcases hon; omega) (by rcases hon; omega)
      refine ⟨(BitVec.ofInt 32 x, BitVec.ofInt 32 y), (hpixels _).2 ?_, ?_, ?_⟩
      · simp only [hx, hy]
        exact ⟨hx0, hx1, hy0, hy1⟩
      · simp only [hx, hy]
        exact hon
      · simp only [hx, hy]
        exact hk
  have hplots := @painted_pixels fb d color hd pixels
  rw [hset] at hplots
  exact ⟨hrect.runStores_eq hplots m, hrect m⟩

theorem fbRectangle_eq_plots_small :
    runStores smallScreen (fbRectangle smallScreen 2#32 0#32 1#32 0#32 1#32) (fun _ => 0) =
      runStores smallScreen
        ([(1#32, 0#32), (2#32, 0#32)].flatMap fun p => fbPlot smallScreen p.1 p.2 1#32)
        (fun _ => 0) := by
  refine (fbRectangle_eq_plots smallScreen .bpp1 rfl (by decide) 2#32 0#32 1#32 0#32 1#32
    (by decide) [(1#32, 0#32), (2#32, 0#32)] ?_ (fun _ => 0)).1
  rintro ⟨x, y⟩
  have hone : (1#32).toInt = 1 := rfl
  have htwo : (2#32).toInt = 2 := rfl
  have hzero : (0#32).toInt = 0 := rfl
  simp only [List.mem_cons, Prod.mk.injEq, List.not_mem_nil, or_false, hone, htwo, hzero]
  constructor
  · rintro (⟨rfl, rfl⟩ | ⟨rfl, rfl⟩) <;> decide
  · rintro ⟨hx, hx', hy, hy'⟩
    have hyz : y = 0#32 := BitVec.eq_of_toInt_eq (by rw [hzero]; omega)
    rcases (by omega : x.toInt = 1 ∨ x.toInt = 2) with h | h
    · exact Or.inl ⟨BitVec.eq_of_toInt_eq h, hyz⟩
    · exact Or.inr ⟨BitVec.eq_of_toInt_eq h, hyz⟩

end Rectangle

end Fb
end F32c
