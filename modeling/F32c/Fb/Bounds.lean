import F32c.Fb.Line
import F32c.Fb.Rectangle
import Mathlib.Tactic

/-!
# Where the primitives write

The active framebuffer is the bytes from zero to its size.  A pixel on the
screen lies in it, and so does a row of a rectangle that meets the screen.  A
row that lies beside the screen has no length or a negative one: with single
bytes and with packed pixels the length goes to `memset`, and at 16 bits a pixel
the test for an odd pixel lets one or two through.
-/

namespace F32c
namespace Fb

section Inside

variable {fb : Screen} {d : Depth}

/-- The bytes of a store lie in the framebuffer, if there are any. -/
def Inside (fb : Screen) (b : Int × Nat) : Prop := b.2 = 0 ∨ 0 ≤ b.1 ∧ b.1 + b.2 ≤ fb.size

/-- The plot functions of the packed depths write words. -/
def WholeWords (fb : Screen) : Prop := fb.bpp < 8 → 32 ∣ fb.ml.hdisp * fb.ml.vdisp * fb.bpp

/-- All stores are made into the framebuffer. -/
def Within (fb : Screen) (stores : List Store) : Prop := ∀ s ∈ stores, Inside fb (s.bytes fb)

@[simp] theorem within_nil : Within fb [] := by
  simp [Within]

@[simp] theorem within_cons {s : Store} {stores : List Store} :
    Within fb (s :: stores) ↔ Inside fb (s.bytes fb) ∧ Within fb stores := by
  simp [Within]

@[simp] theorem within_append {stores stores' : List Store} :
    Within fb (stores ++ stores') ↔ Within fb stores ∧ Within fb stores' := by
  simp [Within, or_imp, forall_and]

@[simp] theorem within_flatMap {α : Type} {xs : List α} {f : α → List Store} :
    Within fb (xs.flatMap f) ↔ ∀ x ∈ xs, Within fb (f x) := by
  simp only [Within, List.mem_flatMap]
  constructor
  · intro h x hx s hs
    exact h s ⟨x, hx, hs⟩
  · rintro h s ⟨x, hx, hs⟩
    exact h x hx s hs

@[simp] theorem within_map {α : Type} {xs : List α} {f : α → Store} :
    Within fb (xs.map f) ↔ ∀ x ∈ xs, Inside fb ((f x).bytes fb) := by
  simp [Within]

/-- The number of pixels of the screen. -/
def pixels (fb : Screen) : Nat := fb.ml.hdisp * fb.ml.vdisp

theorem size_eq (hd : fb.depth = some d) : fb.size = pixels fb * d.bits / 8 := by
  simp [Screen.size, Screen.bpp, hd, pixels]

theorem pixels_le (fb : Screen) : pixels fb ≤ 2 ^ 30 := by
  have hprod := Nat.mul_le_mul fb.ml.hdisp_le fb.ml.vdisp_le
  rw [pixels]
  omega

theorem offset_bounds {x y : Int} (h : OnScreen fb x y) :
    0 ≤ y * fb.ml.hdisp + x ∧ y * fb.ml.hdisp + x < pixels fb := by
  rcases h with ⟨hx, hxh, hy, hyv⟩
  have hlow : 0 ≤ y * fb.ml.hdisp := mul_nonneg hy (by omega)
  have hhigh : (y + 1) * fb.ml.hdisp ≤ fb.ml.vdisp * fb.ml.hdisp :=
    mul_le_mul_of_nonneg_right (by omega) (by omega)
  have hpixels : (pixels fb : Int) = fb.ml.vdisp * fb.ml.hdisp := by
    rw [pixels]
    push_cast
    ring
  rw [hpixels]
  refine ⟨by omega, ?_⟩
  linarith

/-- A pixel is written inside exactly when its number is one of the screen. -/
theorem plot_inside_iff (hd : fb.depth = some d) (hw : WholeWords fb) (off : CInt) :
    Inside fb (fb.plotfn.plotBytes off) ↔ 0 ≤ off.toInt ∧ off.toInt < pixels fb := by
  have hsize := size_eq hd
  have hbpp : fb.bpp = d.bits := by
    simp [Screen.bpp, hd]
  rw [WholeWords, hbpp, ← pixels] at hw
  rw [fb.installed d hd, Inside, hsize]
  cases d <;> simp only [Depth.plotBytes, Depth.bits, wordAt_eq] at hw ⊢ <;> omega

/-- With the video off there is no framebuffer. -/
theorem plot_not_inside (hd : fb.depth = none) (off : CInt) :
    ¬Inside fb (fb.plotfn.plotBytes off) := by
  have hsize : fb.size = 0 := by
    simp [Screen.size, Screen.bpp, hd]
  rw [Inside, hsize]
  cases fb.plotfn <;> simp only [Depth.plotBytes] <;> omega

end Inside

section Plot

variable {fb : Screen} {d : Depth}

theorem within_plotUnbounded_iff {x y color : CInt} :
    Within fb (plotUnbounded fb x y color) ↔
      Inside fb (fb.plotfn.plotBytes (y * fb.hdisp + x)) := by
  simp [plotUnbounded, Store.bytes]

theorem within_pixel (hd : fb.depth = some d) (hw : WholeWords fb) {x y : CInt} (color : CInt)
    (h : OnScreen fb x.toInt y.toInt) : Within fb (plotUnbounded fb x y color) := by
  rw [within_plotUnbounded_iff, plot_inside_iff hd hw,
    toInt_offset fb h.1 (le_of_lt h.2.1) h.2.2.1 (le_of_lt h.2.2.2)]
  exact offset_bounds h

theorem within_fbPlot (hd : fb.depth = some d) (hw : WholeWords fb) (x y color : CInt) :
    Within fb (fbPlot fb x y color) := by
  rw [fbPlot]
  split
  · exact within_nil
  · next hon =>
      exact within_pixel hd hw color ((offScreen_eq fb x y).1 (by simpa using hon))

theorem within_fbPlot_off_iff (hd : fb.depth = none) (x y color : CInt) :
    Within fb (fbPlot fb x y color) ↔ offScreen fb x y = true := by
  rw [fbPlot]
  split
  · next hoff => simp [hoff]
  · next hon => simp [within_plotUnbounded_iff, plot_not_inside hd, hon]

end Plot

section Line

variable {fb : Screen} {d : Depth}

/-- The points of a line between two points of the screen are on the screen. -/
theorem linePoints_onScreen {x0 y0 x1 y1 : CInt} (h : OnScreen fb x0.toInt y0.toInt)
    (h' : OnScreen fb x1.toInt y1.toInt) (n : Nat) :
    ∀ p ∈ (lineAfter x0 y0 x1 y1 n).points, OnScreen fb p.1.toInt p.2.toInt := by
  have hh : (fb.ml.hdisp : Int) ≤ 2 ^ 15 := by exact_mod_cast fb.ml.hdisp_le
  have hv : (fb.ml.vdisp : Int) ≤ 2 ^ 15 := by exact_mod_cast fb.ml.vdisp_le
  rcases h with ⟨hx, hxh, hy, hyv⟩
  rcases h' with ⟨hx', hxh', hy', hyv'⟩
  rw [lineAfter_eq (by rw [dist]; omega) (by rw [dist]; omega)]
  simp only [lineState, List.mem_map, List.mem_range]
  rintro p ⟨k, hk, rfl⟩
  have hk' : k ≤ lineSteps x0 y0 x1 y1 := by omega
  have hbx := coord_between x0 x1 hk'
  have hby := coord_between y0 y1 hk'
  simp only [linePoint, coord_toInt _ _ hk']
  exact ⟨by omega, by omega, by omega, by omega⟩

theorem within_fbLine (hw : WholeWords fb) (n : Nat) (x0 y0 x1 y1 color : CInt) :
    Within fb (fbLine fb n x0 y0 x1 y1 color) := by
  rw [fbLine]
  cases hd : fb.depth with
  | none => simp [Screen.bpp, hd]
  | some d =>
      have hbpp : fb.bpp ≠ 0 := by
        have := d.bits_pos
        simp [Screen.bpp, hd]
        omega
      rw [if_neg hbpp, within_flatMap]
      intro p hp
      rw [linePlot]
      split
      · exact within_fbPlot hd hw _ _ _
      · next hon =>
          have hzero : (0 : CInt).toInt = 0 := rfl
          simp only [BitVec.slt_eq_decide, BitVec.sle_eq_decide, toInt_hdisp, toInt_vdisp, hzero,
            Bool.or_eq_true, decide_eq_true_eq, not_or, not_lt, not_le] at hon
          exact within_pixel hd hw color (@linePoints_onScreen fb _ _ _ _
            ⟨by omega, by omega, by omega, by omega⟩ ⟨by omega, by omega, by omega, by omega⟩ n p hp)

end Line

section Rows

variable {fb : Screen} {d : Depth} {color : CInt}

theorem inside_half (hsize : fb.size = 2 * pixels fb) {i : CInt} (hi : 0 ≤ i.toInt)
    (h : i.toInt + 1 ≤ pixels fb) : Inside fb ((Store.half i color).bytes fb) := by
  refine .inr ?_
  simp only [Store.bytes, hsize]
  push_cast
  omega

theorem inside_half_iff (hsize : fb.size = 2 * pixels fb) {i : CInt} :
    Inside fb ((Store.half i color).bytes fb) ↔ i.toNat < pixels fb := by
  have hpix := pixels_le fb
  have hlt := i.isLt
  have hint := BitVec.toInt_eq_toNat_cond i
  simp only [Inside, Store.bytes, hsize, Nat.reduceEqDiff, false_or]
  split at hint <;> push_cast <;> omega

theorem inside_pair (hsize : fb.size = 2 * pixels fb) {i : CInt} (hi : 0 ≤ i.toInt)
    (h : i.toInt + 2 ≤ pixels fb) : Inside fb ((Store.pair i color).bytes fb) := by
  refine .inr ?_
  simp only [Store.bytes, hsize]
  push_cast
  omega

theorem inside_word (hsize : fb.size = 4 * pixels fb) {i : CInt} (hi : 0 ≤ i.toInt)
    (h : i.toInt + 1 ≤ pixels fb) : Inside fb ((Store.word i color).bytes fb) := by
  refine .inr ?_
  simp only [Store.bytes, hsize]
  push_cast
  omega

theorem within_rowPairs (hsize : fb.size = 2 * pixels fb) {i l : CInt} (hi : 0 ≤ i.toInt)
    (hl : 0 ≤ l.toInt) (hil : i.toInt + l.toInt ≤ pixels fb) :
    Within fb (rowPairs i l color) := by
  have hpix := pixels_le fb
  rcases toInt_passes hl (n := 2) (by omega) (by omega) with ⟨hrest, hcount⟩
  push_cast at hrest hcount
  have hi' : ∀ k : Nat, k ≤ passCount l 2 →
      (i + 2 * BitVec.ofNat 32 k).toInt = i.toInt + 2 * k := fun k hk =>
    toInt_add_mul (c := 2) hi (by push_cast; omega)
  rw [rowPairs]
  simp only [within_append, within_map, List.mem_range]
  constructor
  · intro k hk
    have hik := hi' k (by omega)
    exact inside_pair hsize (by omega) (by omega)
  · split
    · next hne =>
        have hodd : (l - 2 * BitVec.ofNat 32 (passCount l 2)).toInt = l.toInt % 2 := hrest
        have hl' : (l - 2 * BitVec.ofNat 32 (passCount l 2)).toInt ≠ 0 := fun h =>
          hne (toInt_eq_zero.1 h)
        have hin := hi' _ (le_refl _)
        rw [within_cons]
        exact ⟨inside_half hsize (by omega) (by omega), within_nil⟩
    · exact within_nil

theorem within_rowEights (hsize : fb.size = 2 * pixels fb) {i l : CInt} (hi : 0 ≤ i.toInt)
    (hl : 0 ≤ l.toInt) (hil : i.toInt + l.toInt ≤ pixels fb) :
    Within fb (rowEights i l color) := by
  have hpix := pixels_le fb
  rcases toInt_passes hl (n := 8) (by omega) (by omega) with ⟨hrest, hcount⟩
  push_cast at hrest hcount
  have hi' : ∀ k : Nat, k ≤ passCount l 8 →
      (i + 8 * BitVec.ofNat 32 k).toInt = i.toInt + 8 * k := fun k hk =>
    toInt_add_mul (c := 8) hi (by push_cast; omega)
  have hl' : (l - 8 * BitVec.ofNat 32 (passCount l 8)).toInt = l.toInt % 8 := hrest
  rw [rowEights, within_append]
  constructor
  · rw [within_flatMap]
    intro k hk
    rw [List.mem_range] at hk
    have hik := hi' k (by omega)
    have hstep : ∀ c : Nat, c ≤ 6 →
        (i + 8 * BitVec.ofNat 32 k + BitVec.ofNat 32 c).toInt = i.toInt + 8 * k + c := by
      intro c hc
      rw [toInt_add_nat (by omega) (by omega), hik]
    have hpair : ∀ c : Nat, c ≤ 6 → Inside fb
        ((Store.pair (i + 8 * BitVec.ofNat 32 k + BitVec.ofNat 32 c) color).bytes fb) := by
      intro c hc
      have hic := hstep c hc
      exact inside_pair hsize (by omega) (by omega)
    simp only [within_cons, within_nil, and_true]
    exact ⟨hpair 0 (by omega), hpair 2 (by omega), hpair 4 (by omega), hpair 6 (by omega)⟩
  · exact within_rowPairs hsize (by rw [hi' _ (le_refl _)]; omega) (by omega)
      (by rw [hi' _ (le_refl _)]; omega)

/-- A row at 16 bits a pixel, on the screen. -/
theorem within_row16 (hsize : fb.size = 2 * pixels fb) {i l : CInt} (hi : 0 ≤ i.toInt)
    (hl : 1 ≤ l.toInt) (hil : i.toInt + l.toInt ≤ pixels fb) : Within fb (row16 i l color) := by
  have hpix := pixels_le fb
  rw [row16]
  split
  · have hone : (1 : CInt).toInt = 1 := rfl
    have hi' : (i + 1).toInt = i.toInt + 1 := by
      rw [toInt_add_small (by omega) (by omega), hone]
    have hl' : (l - 1).toInt = l.toInt - 1 := by
      rw [toInt_sub_small (by omega) (by omega), hone]
    rw [within_cons]
    exact ⟨inside_half hsize hi (by omega),
      within_rowEights hsize (by omega) (by omega) (by omega)⟩
  · exact within_rowEights hsize hi (by omega) hil

theorem passCount_eq_zero {l : CInt} {n : Nat} (hn : 0 < n) (h : l.toInt < n) :
    passCount l n = 0 := by
  rw [passCount, Int.toNat_eq_zero]
  by_cases hl : 0 ≤ l.toInt
  · rw [Int.ediv_eq_zero_of_lt hl h]
  · exact le_of_lt (Int.ediv_neg_of_neg_of_pos (by omega) (by omega))

/-- A row of no pixels or of a negative number of them. -/
theorem rowEights_of_le {i l : CInt} (hl : l.toInt ≤ 0) :
    rowEights i l color = if l = 0 then [] else [.half i color] := by
  have h8 := @passCount_eq_zero l 8 (by omega) (by omega)
  have h2 := @passCount_eq_zero l 2 (by omega) (by omega)
  have hi : i + 8 * BitVec.ofNat 32 0 = i := by simp
  have hi' : i + 2 * BitVec.ofNat 32 0 = i := by simp
  have hl8 : l - 8 * BitVec.ofNat 32 0 = l := by simp
  have hl2 : l - 2 * BitVec.ofNat 32 0 = l := by simp
  rw [rowEights]
  simp only [h8, List.range_zero, List.flatMap_nil, List.nil_append, hi, hl8]
  rw [rowPairs]
  simp only [h2, List.range_zero, List.map_nil, List.nil_append, hi', hl2, ite_not]

/-- The pixels that a row beside the screen lets through. -/
theorem row16_of_le {i l : CInt} (hl : l.toInt ≤ 0) (hl' : -2 ^ 31 < l.toInt) :
    row16 i l color =
      if i &&& 1#32 ≠ 0 then [.half i color, .half (i + 1) color]
      else if l = 0 then [] else [.half i color] := by
  have hone : (1 : CInt).toInt = 1 := rfl
  have hless : (l - 1).toInt = l.toInt - 1 := by
    rw [toInt_sub_small (by omega) (by omega), hone]
  rw [row16, rowEights_of_le hl]
  split
  · have hne : l - 1 ≠ 0 := by
      intro h
      rw [← toInt_eq_zero, hless] at h
      omega
    rw [rowEights_of_le (by omega), if_neg hne]
  · rfl

theorem row24_of_le {i l : CInt} (hl : l.toInt ≤ 0) : row24 i l color = [] := by
  have h4 := @passCount_eq_zero l 4 (by omega) (by omega)
  have h1 := @passCount_eq_zero l 1 (by omega) (by omega)
  rw [row24]
  simp [h4, h1]

theorem within_row24 (hsize : fb.size = 4 * pixels fb) {i l : CInt} (hi : 0 ≤ i.toInt)
    (hl : 0 ≤ l.toInt) (hil : i.toInt + l.toInt ≤ pixels fb) : Within fb (row24 i l color) := by
  have hpix := pixels_le fb
  rcases toInt_passes hl (n := 4) (by omega) (by omega) with ⟨hrest, hcount⟩
  push_cast at hrest hcount
  have hi' : ∀ k : Nat, k ≤ passCount l 4 →
      (i + 4 * BitVec.ofNat 32 k).toInt = i.toInt + 4 * k := fun k hk =>
    toInt_add_mul (c := 4) hi (by push_cast; omega)
  have hl' : (l - 4 * BitVec.ofNat 32 (passCount l 4)).toInt = l.toInt % 4 := hrest
  rw [row24]
  simp only [within_append, within_flatMap, within_map, List.mem_range]
  constructor
  · intro k hk
    have hik := hi' k (by omega)
    have hword : ∀ c : Nat, c ≤ 3 → Inside fb
        ((Store.word (i + 4 * BitVec.ofNat 32 k + BitVec.ofNat 32 c) color).bytes fb) := by
      intro c hc
      have hic := @toInt_add_nat (i + 4 * BitVec.ofNat 32 k) c (by omega) (by omega)
      exact inside_word hsize (by omega) (by omega)
    simp only [within_cons, within_nil, and_true]
    exact ⟨hword 0 (by omega), hword 1 (by omega), hword 2 (by omega), hword 3 (by omega)⟩
  · intro k hk
    have hin := hi' _ (le_refl _)
    have hcount' : (passCount (l - 4 * BitVec.ofNat 32 (passCount l 4)) 1 : Int) = l.toInt % 4 := by
      rw [passCount, hl', Nat.cast_one, Int.ediv_one]
      omega
    have hik := @toInt_add_nat (i + 4 * BitVec.ofNat 32 (passCount l 4)) k (by omega) (by omega)
    exact inside_word hsize (by omega) (by omega)

theorem size_packed (hd : fb.depth = some d) (hpacked : d.packed = true) :
    fb.size = pixels fb / 2 ^ packShift fb := by
  rw [size_eq hd, packShift, Screen.bpp, hd]
  cases d <;> simp [Depth.packed, Depth.bits] at hpacked ⊢ <;> omega

theorem within_rowPacked (hd : fb.depth = some d) (hw : WholeWords fb) (hpacked : d.packed = true)
    {x0 x1 y : CInt} (hx : 0 ≤ x0.toInt) (hx' : x0.toInt ≤ x1.toInt)
    (hx1 : x1.toInt < fb.ml.hdisp) (hy : 0 ≤ y.toInt) (hy' : y.toInt < fb.ml.vdisp) :
    Within fb (rowPacked fb x0 x1 y color) := by
  have hh : (fb.ml.hdisp : Int) ≤ 2 ^ 15 := by exact_mod_cast fb.ml.hdisp_le
  have hsize := size_packed hd hpacked
  have hn3 := @packShift_le fb
  obtain ⟨n, hn⟩ : ∃ n, packShift fb = n := ⟨_, rfl⟩
  rw [hn] at hsize hn3
  rcases rowPacked_parts hn color hx hx' hx1 hy hy' with
    ⟨h, x, l, hparts, hX, hle, -, hl, hlen, hi⟩
  have hpos : (0 : Int) < 2 ^ n := by positivity
  have hmod := Int.emod_nonneg (x1.toInt - x.toInt + 1) (by omega : (2 : Int) ^ n ≠ 0)
  have hdiv := Int.mul_ediv_add_emod (x1.toInt - x.toInt + 1) (2 ^ n)
  have hquot : 0 ≤ 2 ^ n * ((x1.toInt - x.toInt + 1) / 2 ^ n) :=
    mul_nonneg (le_of_lt hpos) (Int.ediv_nonneg (by omega) (le_of_lt hpos))
  rw [hparts, within_append, within_append]
  refine ⟨⟨?_, ?_⟩, ?_⟩
  · rw [within_flatMap]
    intro k hk
    rw [List.mem_range] at hk
    have hxk := @toInt_add_nat x0 k hx (by omega)
    exact within_pixel hd hw color ⟨by omega, by omega, hy, hy'⟩
  · rw [within_cons]
    refine ⟨?_, within_nil⟩
    rcases @offset_bounds fb _ _ ⟨by omega, hx1, hy, hy'⟩ with ⟨-, hlast⟩
    have hstart : 0 ≤ y.toInt * fb.ml.hdisp := mul_nonneg hy (by omega)
    have hlen' : ((l.sshiftRight n).toNat : Int) = (x1.toInt - x.toInt + 1) / 2 ^ n := by
      rw [toNat_eq_toInt, hlen]
      rw [hlen]
      exact Int.ediv_nonneg (by omega) (by omega)
    obtain ⟨P, hP⟩ : ∃ P, y.toInt * fb.ml.hdisp + x.toInt = P := ⟨_, rfl⟩
    rw [hP] at hi
    refine .inr ?_
    simp only [Store.bytes, hi, hlen', hsize]
    interval_cases n <;> push_cast <;> omega
  · rw [within_flatMap]
    intro x' hx''
    have hxl : (x + l).toInt = x.toInt + l.toInt := toInt_add_small (by omega) (by omega)
    rw [mem_upTo (by omega)] at hx''
    exact within_pixel hd hw color ⟨by omega, by omega, hy, hy'⟩

/-- What a row of packed pixels that lies beside the screen gives to `memset`. -/
theorem rowPacked_beside {x0 x1 y : CInt} (hx : x1.toInt < x0.toInt)
    (hgap : -2 ^ 31 ≤ x1.toInt - x0.toInt) :
    ∃ i l, .memset i color l ∈ rowPacked fb x0 x1 y color ∧
      (x1.toInt + 1 < x0.toInt → l.toInt < 0) ∧
      (x1.toInt + 1 = x0.toInt → rowPacked fb x0 x1 y color = [.memset i color 0]) := by
  obtain ⟨n, hn⟩ : ∃ n, packShift fb = n := ⟨_, rfl⟩
  have hn3 : n ≤ 3 := by
    rw [← hn]
    exact packShift_le
  have hbx0 := cInt_bounds x0
  have hbx1 := cInt_bounds x1
  -- no pixel comes before the whole bytes
  have hhead : (((List.range 8).map fun k => x0 + BitVec.ofNat 32 k).takeWhile fun x =>
      x.sle x1 && (x &&& (1#32 <<< n - 1)) != 0) = [] := by
    have hfirst : x0.sle x1 = false := by
      rw [BitVec.sle_eq_decide, decide_eq_false_iff_not]
      omega
    rw [List.range_succ_eq_map, List.map_cons, BitVec.ofNat_eq_ofNat, BitVec.add_zero,
      List.takeWhile_cons, hfirst]
    rfl
  obtain ⟨l, hl⟩ : ∃ l, (x1 - x0 + 1) &&& ~~~(1#32 <<< n - 1) = l := ⟨_, rfl⟩
  have hrow : rowPacked fb x0 x1 y color =
      [.memset ((y * fb.hdisp + x0).sshiftRight n) color (l.sshiftRight n)] ++
        (upTo (x0 + l) x1).flatMap fun x => plotUnbounded fb x y color := by
    rw [rowPacked]
    have hx0 : x0 + BitVec.ofNat 32 0 = x0 := BitVec.add_zero x0
    simp only [hn, hhead, List.flatMap_nil, List.nil_append, List.length_nil]
    rw [hx0, hl]
  have hone : (1 : CInt).toInt = 1 := rfl
  have hlen : (x1 - x0 + 1).toInt = x1.toInt - x0.toInt + 1 := by
    have hsub := @toInt_sub_small x1 x0 (by omega) (by omega)
    rw [toInt_add_small (by omega) (by omega), hsub, hone]
  refine ⟨_, _, by rw [hrow]; exact List.mem_append_left _ List.mem_cons_self, ?_, ?_⟩
  · intro hlt
    have hneg : l.toInt < 0 := by
      have hmask : (1#32 <<< n - 1 : CInt).msb = false := by
        interval_cases n <;> rfl
      have hmsb : (x1 - x0 + 1).msb = true := by
        rw [BitVec.msb_eq_toInt, decide_eq_true_eq]
        omega
      have hland : l.msb = true := by
        rw [← hl, BitVec.msb_and, BitVec.msb_not, hmask, hmsb]
        rfl
      rwa [BitVec.msb_eq_toInt, decide_eq_true_eq] at hland
    rw [BitVec.toInt_sshiftRight, Int.shiftRight_eq_div_pow]
    exact Int.ediv_neg_of_neg_of_pos hneg (by positivity)
  · intro heq
    have hzero : x1 - x0 + 1 = 0 := toInt_eq_zero.1 (by omega)
    have hl0 : l = 0 := by
      rw [← hl, hzero]
      simp
    have hnone : (x1.toInt - x0.toInt + 1).toNat = 0 := by omega
    rw [hrow, hl0, BitVec.ofNat_eq_ofNat, BitVec.add_zero, upTo, hnone]
    simp

theorem not_inside_negative (hsize : fb.size < 2 ^ 31) {a : Int} {l : CInt} (hl : l.toInt < 0) :
    ¬Inside fb (a, l.toNat) := by
  have hlt := l.isLt
  rw [BitVec.toInt_eq_toNat_cond] at hl
  rw [Inside]
  split at hl <;> simp only <;> omega

/-- The length of a row. -/
theorem toInt_rowLength {x0 x1 : CInt} (hgap : -2 ^ 31 ≤ x1.toInt - x0.toInt)
    (hx : 0 ≤ x0.toInt) (hx1 : x1.toInt < fb.ml.hdisp) :
    (x1 - x0 + 1).toInt = x1.toInt - x0.toInt + 1 := by
  have hh : (fb.ml.hdisp : Int) ≤ 2 ^ 15 := by exact_mod_cast fb.ml.hdisp_le
  have hone : (1 : CInt).toInt = 1 := rfl
  have hsub := @toInt_sub_small x1 x0 (by omega) (by omega)
  rw [toInt_add_small (by omega) (by omega), hsub, hone]

/-- When a row of a rectangle is written inside; `left` and `right` are its ends cut to the
screen, in the wrong order for a row beside the screen. -/
def RowInside (fb : Screen) (left right y : Int) : Prop :=
  match fb.depth with
  | none => left = right + 1
  | some .bpp24 => True
  | some .bpp16 =>
      left ≤ right ∨
        if (y * fb.ml.hdisp + left) % 2 = 1 then y * fb.ml.hdisp + left + 1 < pixels fb
        else left = right + 1 ∨ y * fb.ml.hdisp + left < pixels fb
  | some _ => left ≤ right + 1

section OneRow

variable {x0 x1 y : CInt}
variable (hx : 0 ≤ x0.toInt) (hx1 : x1.toInt < fb.ml.hdisp)
variable (hgap : -2 ^ 31 ≤ x1.toInt - x0.toInt)
variable (hy : 0 ≤ y.toInt) (hy' : y.toInt < fb.ml.vdisp)

include hx hx1 hgap hy hy'

theorem within_row8_iff (hd : fb.depth = some .bpp8) :
    Inside fb ((Store.memset (y * fb.hdisp + x0) color (x1 - x0 + 1)).bytes fb) ↔
      x0.toInt ≤ x1.toInt + 1 := by
  have hlen := toInt_rowLength hgap hx hx1
  have hsize : fb.size = pixels fb := by
    rw [size_eq hd, Depth.bits]
    omega
  have hpix := pixels_le fb
  constructor
  · intro hin
    by_contra hlt
    exact not_inside_negative (by omega) (by omega) hin
  · intro hle
    have hlen' := @toNat_eq_toInt (x1 - x0 + 1) (by omega)
    rcases Int.lt_or_eq_of_le hle with hlt | heq
    · rcases @offset_bounds fb x1.toInt _ ⟨by omega, hx1, hy, hy'⟩ with ⟨-, hlast⟩
      have hstart : 0 ≤ y.toInt * fb.ml.hdisp := mul_nonneg hy (by omega)
      refine .inr ?_
      simp only [Store.bytes]
      rw [toInt_offset fb hx (by omega) hy (le_of_lt hy'), hsize]
      omega
    · refine .inl ?_
      simp only [Store.bytes]
      omega

theorem within_row24' (hd : fb.depth = some .bpp24) :
    Within fb (row24 (y * fb.hdisp + x0) (x1 - x0 + 1) color) := by
  have hlen := toInt_rowLength hgap hx hx1
  rcases le_or_gt (x1 - x0 + 1).toInt 0 with hle | hgt
  · rw [row24_of_le hle]
    exact within_nil
  · have hsize : fb.size = 4 * pixels fb := by
      rw [size_eq hd, Depth.bits]
      omega
    rcases @offset_bounds fb x1.toInt _ ⟨by omega, hx1, hy, hy'⟩ with ⟨-, hlast⟩
    have hstart : 0 ≤ y.toInt * fb.ml.hdisp := mul_nonneg hy (by omega)
    have hoff := toInt_offset fb hx (by omega) hy (le_of_lt hy')
    exact within_row24 hsize (by omega) (by omega) (by omega)

theorem within_rowPacked_iff (hd : fb.depth = some d) (hw : WholeWords fb)
    (hpacked : d.packed = true) :
    Within fb (rowPacked fb x0 x1 y color) ↔ x0.toInt ≤ x1.toInt + 1 := by
  have hpix := pixels_le fb
  have hsize : fb.size < 2 ^ 31 := by
    rw [size_packed hd hpacked]
    have := Nat.div_le_self (pixels fb) (2 ^ packShift fb)
    omega
  rcases le_or_gt x0.toInt x1.toInt with hle | hlt
  · have hin := @within_rowPacked fb d color hd hw hpacked x0 x1 y hx hle hx1 hy hy'
    simp only [hin, true_iff]
    omega
  · rcases @rowPacked_beside fb color x0 x1 y hlt hgap with ⟨i, l, hmem, hneg, hzero⟩
    constructor
    · intro hin
      by_contra hgt
      exact not_inside_negative hsize (hneg (by omega)) (hin _ hmem)
    · intro hle
      rw [hzero (by omega), within_cons]
      exact ⟨.inl rfl, within_nil⟩

/-- With the video off a row is packed as at four bits a pixel. -/
theorem within_rowOff_iff (hd : fb.depth = none) :
    Within fb (rowPacked fb x0 x1 y color) ↔ x0.toInt = x1.toInt + 1 := by
  have hsize : fb.size = 0 := by
    simp [Screen.size, Screen.bpp, hd]
  constructor
  · intro hin
    rcases le_or_gt x0.toInt x1.toInt with hle | hlt
    · exfalso
      have hplot : ∀ {x : CInt}, ¬Within fb (plotUnbounded fb x y color) := fun h =>
        plot_not_inside hd _ (within_plotUnbounded_iff.1 h)
      have hshift : packShift fb = 1 := by
        simp [packShift, Screen.bpp, hd]
      rcases rowPacked_parts hshift color hx hle hx1 hy hy' with
        ⟨h, x, l, hparts, hX, hxle, -, hl, hlen, -⟩
      rw [hparts, within_append, within_append, within_flatMap, within_flatMap, within_cons] at hin
      rcases hin with ⟨⟨hhead, hmemset, -⟩, htail⟩
      -- one of the three parts writes something
      rcases Nat.eq_zero_or_pos h with h0 | hpos
      · have hlen0 : (l.sshiftRight 1).toNat = 0 := by
          rcases hmemset with hz | ⟨hlow, hhigh⟩
          · exact hz
          · simp only [Store.bytes, hsize] at hlow hhigh
            omega
        have hlen0' : (l.sshiftRight 1).toInt = 0 := by
          rw [toInt_eq_zero]
          exact BitVec.eq_of_toNat_eq hlen0
        have hxl : (x + l).toInt = x.toInt + l.toInt := by
          have := cInt_bounds x1
          exact toInt_add_small (by omega) (by omega)
        exact hplot (htail (x + l) ((mem_upTo (by omega)).2 (by omega)))
      · exact hplot (hhead 0 (List.mem_range.2 hpos))
    · rcases @rowPacked_beside fb color x0 x1 y hlt hgap with ⟨i, l, hmem, hneg, -⟩
      by_contra hne
      exact not_inside_negative (by omega) (hneg (by omega)) (hin _ hmem)
  · intro heq
    rcases @rowPacked_beside fb color x0 x1 y (by omega) hgap with ⟨i, l, -, -, hzero⟩
    rw [hzero (by omega), within_cons]
    exact ⟨.inl rfl, within_nil⟩

theorem within_row16_iff (hd : fb.depth = some .bpp16) :
    Within fb (row16 (y * fb.hdisp + x0) (x1 - x0 + 1) color) ↔
      x0.toInt ≤ x1.toInt ∨
        if (y.toInt * fb.ml.hdisp + x0.toInt) % 2 = 1 then
          y.toInt * fb.ml.hdisp + x0.toInt + 1 < pixels fb
        else x0.toInt = x1.toInt + 1 ∨ y.toInt * fb.ml.hdisp + x0.toInt < pixels fb := by
  have hh : (fb.ml.hdisp : Int) ≤ 2 ^ 15 := by exact_mod_cast fb.ml.hdisp_le
  have hv : (fb.ml.vdisp : Int) ≤ 2 ^ 15 := by exact_mod_cast fb.ml.vdisp_le
  have hlen := toInt_rowLength hgap hx hx1
  have hsize : fb.size = 2 * pixels fb := by
    rw [size_eq hd, Depth.bits]
    omega
  rcases le_or_gt x0.toInt x1.toInt with hle | hlt
  · rcases @offset_bounds fb x1.toInt _ ⟨by omega, hx1, hy, hy'⟩ with ⟨-, hlast⟩
    have hstart : 0 ≤ y.toInt * fb.ml.hdisp := mul_nonneg hy (by omega)
    have hoff := toInt_offset fb hx (by omega) hy (le_of_lt hy')
    have hin := @within_row16 fb color hsize (y * fb.hdisp + x0) (x1 - x0 + 1) (by omega) (by omega)
      (by omega)
    simp only [hin, hle, true_or]
  · -- the number of the first pixel as it is computed, without a sign
    have hoff : ((y * fb.hdisp + x0).toNat : Int) = y.toInt * fb.ml.hdisp + x0.toInt := by
      have hstart := toInt_offset fb (x := 0) (le_refl _) (by simp) hy (le_of_lt hy')
      have hzero : (0 : CInt).toInt = 0 := rfl
      have hadd : y * fb.hdisp + 0 = y * fb.hdisp := BitVec.add_zero _
      rw [hzero, hadd, add_zero] at hstart
      have hprod : y.toInt * fb.ml.hdisp ≤ 2 ^ 15 * 2 ^ 15 :=
        mul_le_mul (by omega) hh (by omega) (by omega)
      have hnonneg : 0 ≤ y.toInt * fb.ml.hdisp := mul_nonneg hy (by omega)
      have hnat := @toNat_eq_toInt (y * fb.hdisp) (by omega)
      have hnat' := toNat_eq_toInt hx
      have hbound := cInt_high x0
      rw [BitVec.toNat_add, Nat.mod_eq_of_lt (by omega)]
      push_cast
      omega
    obtain ⟨i, hi⟩ : ∃ i, y * fb.hdisp + x0 = i := ⟨_, rfl⟩
    obtain ⟨s, hs⟩ : ∃ s, y.toInt * fb.ml.hdisp + x0.toInt = s := ⟨_, rfl⟩
    rw [hi, hs] at hoff
    rw [hi, hs, row16_of_le (by omega) (by omega)]
    have hbound : s < 2 ^ 32 - 1 := by
      rw [← hs]
      have hprod : y.toInt * fb.ml.hdisp ≤ 2 ^ 15 * 2 ^ 15 :=
        mul_le_mul (by omega) hh (by omega) (by omega)
      have := cInt_high x0
      omega
    have hnext : (i + 1).toNat = i.toNat + 1 := by
      rw [BitVec.toNat_add]
      exact Nat.mod_eq_of_lt (by simp; omega)
    have hodd : i &&& 1#32 ≠ 0 ↔ s % 2 = 1 := by
      have hand : (i &&& 1#32).toNat = i.toNat % 2 := by
        rw [BitVec.toNat_and]
        exact Nat.and_one_is_mod _
      rw [Ne, ← BitVec.toNat_inj, hand]
      simp only [BitVec.ofNat_eq_ofNat, BitVec.toNat_ofNat, Nat.zero_mod]
      omega
    have hempty : x1 - x0 + 1 = 0 ↔ x0.toInt = x1.toInt + 1 := by
      rw [← toInt_eq_zero, hlen]
      omega
    simp only [hodd, not_le.2 hlt, false_or]
    by_cases hpar : s % 2 = 1
    · simp only [hpar, if_true, within_cons, within_nil, and_true, inside_half_iff hsize, hnext]
      omega
    · simp only [hpar, if_false]
      by_cases hgap0 : x0.toInt = x1.toInt + 1
      · rw [if_pos (hempty.2 hgap0)]
        simp [hgap0]
      · rw [if_neg (fun h => hgap0 (hempty.1 h)), within_cons, inside_half_iff hsize]
        simp only [within_nil, and_true, hgap0, false_or]
        omega

end OneRow

end Rows

section Rectangle

variable {fb : Screen}

/-- When a rectangle is written inside: every row of it that the screen has. -/
def RectangleInside (fb : Screen) (x0 y0 x1 y1 : Int) : Prop :=
  ∀ y, max 0 (min y0 y1) ≤ y → y ≤ min ((fb.ml.vdisp : Int) - 1) (max y0 y1) →
    RowInside fb (max 0 (min x0 x1)) (min ((fb.ml.hdisp : Int) - 1) (max x0 x1)) y

theorem within_rows_iff {lo hi : CInt} {row : CInt → List Store} {P : Int → Prop}
    (hlo : 0 ≤ lo.toInt)
    (hrow : ∀ y : CInt, lo.toInt ≤ y.toInt → y.toInt ≤ hi.toInt →
      (Within fb (row y) ↔ P y.toInt)) :
    Within fb ((upTo lo hi).flatMap row) ↔ ∀ y, lo.toInt ≤ y → y ≤ hi.toInt → P y := by
  rw [within_flatMap]
  constructor
  · intro h y hy hy'
    have hbound := cInt_high hi
    have hint : (BitVec.ofInt 32 y).toInt = y := toInt_ofInt_small (by omega) (by omega)
    have hmem : BitVec.ofInt 32 y ∈ upTo lo hi := (mem_upTo hlo).2 (by rw [hint]; exact ⟨hy, hy'⟩)
    have hP := (hrow _ (by omega) (by omega)).1 (h _ hmem)
    rwa [hint] at hP
  · intro h y hmem
    rcases (mem_upTo hlo).1 hmem with ⟨hy, hy'⟩
    exact (hrow y hy hy').2 (h _ hy hy')

theorem within_fbRectangle_iff (hw : WholeWords fb) (x0 y0 x1 y1 color : CInt) :
    Within fb (fbRectangle fb x0 y0 x1 y1 color) ↔
      RectangleInside fb x0.toInt y0.toInt x1.toInt y1.toInt := by
  rcases @clip_toInt fb x0 y0 x1 y1 with ⟨hX0, hX1, hY0, hY1⟩
  have hb0 := cInt_bounds x0
  have hb1 := cInt_bounds x1
  obtain ⟨r, hr⟩ : ∃ r, clip fb x0 y0 x1 y1 = r := ⟨_, rfl⟩
  rw [hr] at hX0 hX1 hY0 hY1
  rw [RectangleInside, ← hX0, ← hX1, ← hY0, ← hY1, fbRectangle]
  simp only [hr]
  have hrow : ∀ y : CInt, r.y0.toInt ≤ y.toInt → y.toInt ≤ r.y1.toInt →
      0 ≤ y.toInt ∧ y.toInt < fb.ml.vdisp := fun y hy hy' => by omega
  have hx : 0 ≤ r.x0.toInt := by omega
  have hx1 : r.x1.toInt < fb.ml.hdisp := by omega
  have hgap : -2 ^ 31 ≤ r.x1.toInt - r.x0.toInt := by omega
  cases hd : fb.depth with
  | none =>
      refine within_rows_iff (by omega) fun y hy hy' => ?_
      rw [RowInside, hd]
      exact within_rowOff_iff hx hx1 hgap (hrow y hy hy').1 (hrow y hy hy').2 hd
  | some d =>
      cases d with
      | bpp8 =>
          have hrows : rectangle8 fb r color = (upTo r.y0 r.y1).flatMap fun y =>
              [Store.memset (y * fb.hdisp + r.x0) color (r.x1 - r.x0 + 1)] := by
            rw [rectangle8, List.map_eq_flatMap]
            congr 1
            funext y
            congr 2
            ring
          simp only [hrows]
          refine within_rows_iff (by omega) fun y hy hy' => ?_
          rw [RowInside, hd, within_cons]
          simp only [within_nil, and_true]
          exact within_row8_iff hx hx1 hgap (hrow y hy hy').1 (hrow y hy hy').2 hd
      | bpp16 =>
          refine within_rows_iff (by omega) fun y hy hy' => ?_
          rw [RowInside, hd]
          exact within_row16_iff hx hx1 hgap (hrow y hy hy').1 (hrow y hy hy').2 hd
      | bpp24 =>
          refine within_rows_iff (by omega) fun y hy hy' => ?_
          rw [RowInside, hd]
          simp only [iff_true]
          exact within_row24' hx hx1 hgap (hrow y hy hy').1 (hrow y hy hy').2 hd
      | bpp1 | bpp2 | bpp4 =>
          refine within_rows_iff (by omega) fun y hy hy' => ?_
          rw [RowInside, hd]
          exact within_rowPacked_iff hx hx1 hgap (hrow y hy hy').1 (hrow y hy hy').2 hd hw rfl

end Rectangle

end Fb
end F32c
