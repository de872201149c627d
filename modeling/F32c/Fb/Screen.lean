import F32c.Fb.Draw
import Mathlib.Data.BitVec
import Mathlib.Tactic

/-!
# The screen and its coordinates

Coordinates are of type `int`.  Those on the screen are small, so the arithmetic
with which the library finds a pixel does not wrap; those of a rectangle are cut
to the screen first.
-/

namespace F32c
namespace Fb

section Arithmetic

theorem toInt_ofInt_small {v : Int} (hlow : -2 ^ 31 ≤ v) (hhigh : v < 2 ^ 31) :
    (BitVec.ofInt 32 v).toInt = v := by
  rw [BitVec.toInt_ofInt]
  exact Int.bmod_eq_of_le (by omega) (by omega)

theorem cInt_bounds (v : CInt) : -2 ^ 31 ≤ v.toInt ∧ v.toInt < 2 ^ 31 := by
  have hlow := BitVec.le_toInt v
  have hhigh := BitVec.toInt_lt (x := v)
  omega

theorem toInt_ofNat_small {n : Nat} (h : n < 2 ^ 31) : (BitVec.ofNat 32 n).toInt = n := by
  rw [BitVec.toInt_ofNat', Int.bmod_eq_of_le (by omega) (by omega)]

theorem cInt_high (l : CInt) : l.toInt < 2 ^ 31 := by
  have := BitVec.toInt_lt (x := l)
  omega

theorem toInt_eq_zero {v : CInt} : v.toInt = 0 ↔ v = 0 := by
  constructor
  · intro h
    exact BitVec.eq_of_toInt_eq h
  · rintro rfl
    rfl

theorem toInt_add_small {u v : CInt} (hlow : -2 ^ 31 ≤ u.toInt + v.toInt)
    (hhigh : u.toInt + v.toInt < 2 ^ 31) : (u + v).toInt = u.toInt + v.toInt := by
  rw [BitVec.toInt_add]
  exact Int.bmod_eq_of_le (by omega) (by omega)

theorem toInt_sub_small {u v : CInt} (hlow : -2 ^ 31 ≤ u.toInt - v.toInt)
    (hhigh : u.toInt - v.toInt < 2 ^ 31) : (u - v).toInt = u.toInt - v.toInt := by
  rw [BitVec.toInt_sub]
  exact Int.bmod_eq_of_le (by omega) (by omega)

theorem toInt_mul_small {u v : CInt} (hlow : -2 ^ 31 ≤ u.toInt * v.toInt)
    (hhigh : u.toInt * v.toInt < 2 ^ 31) : (u * v).toInt = u.toInt * v.toInt := by
  rw [BitVec.toInt_mul]
  exact Int.bmod_eq_of_le (by omega) (by omega)

theorem toNat_eq_toInt {l : CInt} (hl : 0 ≤ l.toInt) : (l.toNat : Int) = l.toInt := by
  have hlt := l.isLt
  rw [BitVec.toInt_eq_toNat_cond] at *
  split at hl <;> omega

theorem toInt_add_mul {i : CInt} {c k : Nat} (hi : 0 ≤ i.toInt) (h : i.toInt + c * k < 2 ^ 31) :
    (i + BitVec.ofNat 32 c * BitVec.ofNat 32 k).toInt = i.toInt + c * k := by
  have hmul : BitVec.ofNat 32 c * BitVec.ofNat 32 k = BitVec.ofNat 32 (c * k) := by
    rw [BitVec.ofNat_mul]
  have hprod : ((c * k : Nat) : Int) = c * k := by push_cast; rfl
  have hsmall := @toInt_ofNat_small (c * k) (by omega)
  rw [hmul, toInt_add_small (by omega) (by omega), hsmall, hprod]

theorem toInt_add_nat {i : CInt} {k : Nat} (hi : 0 ≤ i.toInt) (h : i.toInt + k < 2 ^ 31) :
    (i + BitVec.ofNat 32 k).toInt = i.toInt + k := by
  have hsmall := @toInt_ofNat_small k (by omega)
  rw [toInt_add_small (by omega) (by omega), hsmall]

end Arithmetic

section Screen

variable (fb : Screen)

theorem toInt_hdisp : fb.hdisp.toInt = fb.ml.hdisp :=
  toInt_ofNat_small (lt_of_le_of_lt fb.ml.hdisp_le (by omega))

theorem toInt_vdisp : fb.vdisp.toInt = fb.ml.vdisp :=
  toInt_ofNat_small (lt_of_le_of_lt fb.ml.vdisp_le (by omega))

/-- The pixel `(x, y)` is on the screen. -/
def OnScreen (x y : Int) : Prop := 0 ≤ x ∧ x < fb.ml.hdisp ∧ 0 ≤ y ∧ y < fb.ml.vdisp

theorem offScreen_eq (x y : CInt) : offScreen fb x y = false ↔ OnScreen fb x.toInt y.toInt := by
  have hzero : (0 : CInt).toInt = 0 := rfl
  simp only [offScreen, BitVec.slt_eq_decide, BitVec.sle_eq_decide, toInt_hdisp, toInt_vdisp, hzero,
    Bool.or_eq_false_iff, decide_eq_false_iff_not, OnScreen]
  omega

/-- The number of a pixel on the screen does not wrap. -/
theorem toInt_offset {x y : CInt} (hx : 0 ≤ x.toInt) (hx' : x.toInt ≤ fb.ml.hdisp)
    (hy : 0 ≤ y.toInt) (hy' : y.toInt ≤ fb.ml.vdisp) :
    (y * fb.hdisp + x).toInt = y.toInt * fb.ml.hdisp + x.toInt := by
  have hh : (fb.ml.hdisp : Int) ≤ 2 ^ 15 := by exact_mod_cast fb.ml.hdisp_le
  have hv : (fb.ml.vdisp : Int) ≤ 2 ^ 15 := by exact_mod_cast fb.ml.vdisp_le
  have hprod : y.toInt * fb.ml.hdisp ≤ 2 ^ 15 * 2 ^ 15 :=
    mul_le_mul (by omega) hh (by omega) (by omega)
  have hnonneg : 0 ≤ y.toInt * fb.ml.hdisp := mul_nonneg hy (by omega)
  have hmul : (y * fb.hdisp).toInt = y.toInt * fb.ml.hdisp := by
    rw [toInt_mul_small (by rw [toInt_hdisp]; omega) (by rw [toInt_hdisp]; omega), toInt_hdisp]
  rw [toInt_add_small (by omega) (by omega), hmul]

end Screen

section Clipping

variable {fb : Screen}

theorem mem_upTo {lo hi y : CInt} (hlo : 0 ≤ lo.toInt) :
    y ∈ upTo lo hi ↔ lo.toInt ≤ y.toInt ∧ y.toInt ≤ hi.toInt := by
  have hhigh := cInt_high hi
  rw [upTo, List.mem_map]
  constructor
  · rintro ⟨k, hk, rfl⟩
    rw [List.mem_range] at hk
    rw [toInt_add_nat hlo (by omega)]
    omega
  · rintro ⟨hle, hle'⟩
    refine ⟨(y.toInt - lo.toInt).toNat, List.mem_range.2 (by omega), ?_⟩
    apply BitVec.eq_of_toInt_eq
    rw [toInt_add_nat hlo (by omega)]
    omega

theorem toInt_clampLow (v : CInt) : (if v.slt 0 then 0 else v).toInt = max 0 v.toInt := by
  have hzero : (0 : CInt).toInt = 0 := rfl
  rw [BitVec.slt_eq_decide, hzero]
  by_cases h : v.toInt < 0
  · rw [decide_eq_true h, if_pos rfl, hzero]
    omega
  · rw [decide_eq_false h, if_neg Bool.false_ne_true]
    omega

theorem toInt_clampHigh {w : CInt} (hw : 0 ≤ w.toInt) (v : CInt) :
    (if w.sle v then w - 1 else v).toInt = min (w.toInt - 1) v.toInt := by
  have hone : (1 : CInt).toInt = 1 := rfl
  have hhigh := cInt_high w
  have hsub : (w - 1).toInt = w.toInt - 1 := by
    rw [toInt_sub_small (by omega) (by omega), hone]
  rw [BitVec.sle_eq_decide]
  by_cases h : w.toInt ≤ v.toInt
  · rw [decide_eq_true h, if_pos rfl, hsub]
    omega
  · rw [decide_eq_false h, if_neg Bool.false_ne_true]
    omega

/-- The corners of the part of a rectangle on the screen. -/
theorem clip_toInt (x0 y0 x1 y1 : CInt) :
    (clip fb x0 y0 x1 y1).x0.toInt = max 0 (min x0.toInt x1.toInt) ∧
      (clip fb x0 y0 x1 y1).x1.toInt = min ((fb.ml.hdisp : Int) - 1) (max x0.toInt x1.toInt) ∧
      (clip fb x0 y0 x1 y1).y0.toInt = max 0 (min y0.toInt y1.toInt) ∧
      (clip fb x0 y0 x1 y1).y1.toInt = min ((fb.ml.vdisp : Int) - 1) (max y0.toInt y1.toInt) := by
  have hh := toInt_hdisp fb
  have hv := toInt_vdisp fb
  simp only [clip, toInt_clampLow]
  rw [toInt_clampHigh (by omega), toInt_clampHigh (by omega), hh, hv]
  by_cases hx : x1.toInt < x0.toInt <;> by_cases hy : y1.toInt < y0.toInt <;>
    simp [BitVec.slt_eq_decide, hx, hy] <;> omega

end Clipping

end Fb
end F32c
