import F32c.Fb.Bounds
import F32c.Fb.Flood
import Mathlib.Tactic

/-!
# Drawing inside the framebuffer

What the primitives that are built from others write: circles, filled circles,
texts and fills.  `fb_circle` decides once, with coordinates that may wrap,
whether its points need a check; a filled circle is a stack of rectangles; a fill
addresses one byte or one halfword for every pixel, whatever the depth.
-/

namespace F32c
namespace Fb

section Circle

variable {fb : Screen} {d : Depth}

/-- A step of a circle stays in the square of its radius, and the longer coordinate goes down by
one at most. -/
structure InSquare (r : CInt) (s : Circle) : Prop where
  x : 0 ≤ s.x.toInt ∧ s.x.toInt ≤ r.toInt
  y : 0 ≤ s.y.toInt ∧ s.y.toInt ≤ r.toInt
  x_le : s.x.toInt ≤ s.y.toInt + 1
  steps : ∀ p ∈ s.steps, (0 ≤ p.1.toInt ∧ p.1.toInt ≤ r.toInt) ∧ 0 ≤ p.2.toInt ∧ p.2.toInt ≤ r.toInt

/-- The coordinates after one pass. -/
theorem circleBody_coords {s : Circle} (hx : 0 ≤ s.x.toInt) (ht : circleTest s = true) :
    (circleBody s).x.toInt = s.x.toInt + 1 ∧
      ((circleBody s).y.toInt = s.y.toInt ∨ (circleBody s).y.toInt = s.y.toInt - 1) ∧
      (circleBody s).steps = s.steps ++ [((circleBody s).x, (circleBody s).y)] := by
  have hone : (1 : CInt).toInt = 1 := rfl
  have hhigh := cInt_high s.y
  rw [circleTest, BitVec.slt_eq_decide, decide_eq_true_eq] at ht
  refine ⟨toInt_add_small (by omega) (by omega), ?_, rfl⟩
  simp only [circleBody]
  split
  · right
    rw [toInt_sub_small (by omega) (by omega), hone]
  · exact Or.inl rfl

theorem InSquare.circleBody {r : CInt} {s : Circle} (h : InSquare r s)
    (ht : circleTest s = true) : InSquare r (circleBody s) := by
  rcases circleBody_coords h.x.1 ht with ⟨hx, hy, hsteps⟩
  rw [circleTest, BitVec.slt_eq_decide, decide_eq_true_eq] at ht
  rcases h.x with ⟨hx0, hxr⟩
  rcases h.y with ⟨hy0, hyr⟩
  have hnew : (0 ≤ (Fb.circleBody s).x.toInt ∧ (Fb.circleBody s).x.toInt ≤ r.toInt) ∧
      0 ≤ (Fb.circleBody s).y.toInt ∧ (Fb.circleBody s).y.toInt ≤ r.toInt := by omega
  refine ⟨hnew.1, hnew.2, by omega, ?_⟩
  rw [hsteps]
  intro p hp
  rcases List.mem_append.1 hp with hp | hp
  · exact h.steps p hp
  · obtain rfl := List.mem_singleton.1 hp
    exact hnew

theorem circleAfter_inSquare {r : CInt} (hr : 0 ≤ r.toInt) (n : Nat) :
    InSquare r (circleAfter r n) := by
  have hzero : (0 : CInt).toInt = 0 := rfl
  refine Loop.passes_keep (InSquare r) (fun s hs ht => hs.circleBody ht) n _ ?_
  refine ⟨?_, ⟨hr, le_refl _⟩, ?_, by simp⟩
  · simp only [hzero]
    omega
  · simp only [hzero]
    omega

/-- Without a positive radius the loop makes no pass. -/
theorem circleAfter_of_nonpos {r : CInt} (hr : r.toInt ≤ 0) (n : Nat) :
    (circleAfter r n).steps = [] := by
  have hzero : (0 : CInt).toInt = 0 := rfl
  rw [circleAfter]
  cases n with
  | zero => rfl
  | succ n =>
      rw [Loop.passes, if_neg]
      rw [circleTest, BitVec.slt_eq_decide, decide_eq_true_eq]
      simp only [hzero]
      omega

/-- The points of a circle, in the order they are plotted. -/
def circlePoints (x0 y0 r : CInt) (n : Nat) : List (CInt × CInt) :=
  [(x0, y0 + r), (x0, y0 - r), (x0 + r, y0), (x0 - r, y0)] ++
    (circleAfter r n).steps.flatMap fun p =>
      [(x0 + p.1, y0 + p.2), (x0 - p.1, y0 + p.2), (x0 + p.1, y0 - p.2), (x0 - p.1, y0 - p.2),
        (x0 + p.2, y0 + p.1), (x0 - p.2, y0 + p.1), (x0 + p.2, y0 - p.1), (x0 - p.2, y0 - p.1)]

theorem fbCircle_eq (hbpp : fb.bpp ≠ 0) (n : Nat) (x0 y0 r color : CInt) :
    fbCircle fb n x0 y0 r color =
      (circlePoints x0 y0 r n).flatMap fun p => circlePlot fb x0 y0 r p.1 p.2 color := by
  rw [fbCircle, circlePoints]
  simp only [if_neg hbpp, List.flatMap_append, List.flatMap_assoc, List.flatMap_cons,
    List.flatMap_nil, List.append_nil, List.append_assoc]

/-- The test with which `fb_circle` takes the function that checks each point. -/
def circleChecked (fb : Screen) (x0 y0 r : CInt) : Bool :=
  (x0 - r).slt 0 || fb.hdisp.sle (x0 + r) || (y0 - r).slt 0 || fb.vdisp.sle (y0 + r)

/-- When a circle is written inside: its points are checked, or it is on the screen, or the
radius is negative and the numbers of the four points of the axes are those of pixels. -/
def CircleInside (fb : Screen) (x0 y0 r : CInt) : Prop :=
  circleChecked fb x0 y0 r = true ∨
    (0 ≤ r.toInt ∧ r.toInt ≤ x0.toInt ∧ x0.toInt + r.toInt < fb.ml.hdisp ∧
      r.toInt ≤ y0.toInt ∧ y0.toInt + r.toInt < fb.ml.vdisp) ∨
    (r.toInt < 0 ∧ ∀ p ∈ [(x0, y0 + r), (x0, y0 - r), (x0 + r, y0), (x0 - r, y0)],
      0 ≤ (p.2 * fb.hdisp + p.1).toInt ∧ (p.2 * fb.hdisp + p.1).toInt < pixels fb)

theorem toInt_add_sub {u v : CInt} {w : Nat} (hv : 0 ≤ v.toInt) (hlow : v.toInt ≤ u.toInt)
    (hhigh : u.toInt + v.toInt < w) (hw : w ≤ 2 ^ 15) {c : CInt} (hc : 0 ≤ c.toInt)
    (hc' : c.toInt ≤ v.toInt) :
    (0 ≤ (u + c).toInt ∧ (u + c).toInt < w) ∧ 0 ≤ (u - c).toInt ∧ (u - c).toInt < w := by
  rw [toInt_add_small (by omega) (by omega), toInt_sub_small (by omega) (by omega)]
  omega

/-- The points of a circle on the screen. -/
theorem circlePoints_onScreen {x0 y0 r : CInt} (hr : 0 ≤ r.toInt) (hx : r.toInt ≤ x0.toInt)
    (hx' : x0.toInt + r.toInt < fb.ml.hdisp) (hy : r.toInt ≤ y0.toInt)
    (hy' : y0.toInt + r.toInt < fb.ml.vdisp) (n : Nat) :
    ∀ p ∈ circlePoints x0 y0 r n, OnScreen fb p.1.toInt p.2.toInt := by
  have hhor := fun {c : CInt} => @toInt_add_sub x0 r _ hr hx hx' fb.ml.hdisp_le c
  have hver := fun {c : CInt} => @toInt_add_sub y0 r _ hr hy hy' fb.ml.vdisp_le c
  have hpoint : ∀ u v : CInt, 0 ≤ u.toInt → u.toInt ≤ r.toInt → 0 ≤ v.toInt → v.toInt ≤ r.toInt →
      OnScreen fb (x0 + u).toInt (y0 + v).toInt ∧ OnScreen fb (x0 - u).toInt (y0 + v).toInt ∧
        OnScreen fb (x0 + u).toInt (y0 - v).toInt ∧ OnScreen fb (x0 - u).toInt (y0 - v).toInt := by
    intro u v hu hu' hv hv'
    rcases hhor hu hu' with ⟨⟨h1, h2⟩, h3, h4⟩
    rcases hver hv hv' with ⟨⟨h5, h6⟩, h7, h8⟩
    exact ⟨⟨h1, h2, h5, h6⟩, ⟨h3, h4, h5, h6⟩, ⟨h1, h2, h7, h8⟩, ⟨h3, h4, h7, h8⟩⟩
  have hzero : (0 : CInt).toInt = 0 := rfl
  have haxis := hpoint 0 r (le_refl _) (by omega) hr (le_refl _)
  have haxis' := hpoint r 0 hr (le_refl _) (le_refl _) (by omega)
  simp only [BitVec.ofNat_eq_ofNat, BitVec.add_zero, BitVec.sub_zero] at haxis haxis'
  rw [circlePoints]
  intro p hp
  rcases List.mem_append.1 hp with hp | hp
  · simp only [List.mem_cons, List.not_mem_nil, or_false] at hp
    rcases hp with rfl | rfl | rfl | rfl
    · exact haxis.1
    · exact haxis.2.2.1
    · exact haxis'.1
    · exact haxis'.2.1
  · rcases List.mem_flatMap.1 hp with ⟨q, hq, hp⟩
    rcases (circleAfter_inSquare hr n).steps q hq with ⟨⟨h1, h2⟩, h3, h4⟩
    have hstep := hpoint q.1 q.2 h1 h2 h3 h4
    have hstep' := hpoint q.2 q.1 h3 h4 h1 h2
    simp only [List.mem_cons, List.not_mem_nil, or_false] at hp
    rcases hp with rfl | rfl | rfl | rfl | rfl | rfl | rfl | rfl
    · exact hstep.1
    · exact hstep.2.1
    · exact hstep.2.2.1
    · exact hstep.2.2.2
    · exact hstep'.1
    · exact hstep'.2.1
    · exact hstep'.2.2.1
    · exact hstep'.2.2.2

theorem within_fbCircle (hd : fb.depth = some d) (hw : WholeWords fb) {x0 y0 r : CInt}
    (h : CircleInside fb x0 y0 r) (n : Nat) (color : CInt) :
    Within fb (fbCircle fb n x0 y0 r color) := by
  have hbpp : fb.bpp ≠ 0 := by
    have := d.bits_pos
    simp [Screen.bpp, hd]
    omega
  rw [fbCircle_eq hbpp, within_flatMap]
  intro p hp
  by_cases hcheck : circleChecked fb x0 y0 r = true
  · rw [circlePlot]
    rw [circleChecked] at hcheck
    rw [if_pos hcheck]
    exact within_fbPlot hd hw _ _ _
  · have hplot : circlePlot fb x0 y0 r = plotUnbounded fb := by
      rw [circlePlot]
      rw [circleChecked] at hcheck
      exact if_neg hcheck
    rw [hplot]
    rcases h with h | ⟨hr, hx, hx', hy, hy'⟩ | ⟨hneg, hfour⟩
    · exact absurd h hcheck
    · exact within_pixel hd hw color (circlePoints_onScreen hr hx hx' hy hy' n p hp)
    · rw [circlePoints, circleAfter_of_nonpos (le_of_lt hneg), List.flatMap_nil, List.append_nil] at hp
      rw [within_plotUnbounded_iff, plot_inside_iff hd hw]
      exact hfour p hp

/-- The state of a circle after some passes, while half the radius is not reached. -/
theorem circleAfter_reach {r : CInt} (k : Nat) (hk : 2 * (k : Int) ≤ r.toInt) :
    (circleAfter r k).x.toInt = k ∧ r.toInt - k ≤ (circleAfter r k).y.toInt ∧
      (0 < k → ((circleAfter r k).x, (circleAfter r k).y) ∈ (circleAfter r k).steps) := by
  induction k with
  | zero =>
      refine ⟨rfl, ?_, by simp⟩
      change r.toInt - (0 : Nat) ≤ r.toInt
      omega
  | succ k ih =>
      push_cast at hk
      rcases ih (by omega) with ⟨hx, hy, -⟩
      have ht : circleTest (circleAfter r k) = true := by
        rw [circleTest, BitVec.slt_eq_decide, decide_eq_true_eq]
        omega
      have hnext : circleAfter r (k + 1) = circleBody (circleAfter r k) := by
        rw [circleAfter, Loop.passes_succ, if_pos]
        · rfl
        · exact ht
      rcases circleBody_coords (by omega) ht with ⟨hx', hy', hsteps⟩
      rw [hnext]
      refine ⟨by omega, by push_cast; omega, fun _ => ?_⟩
      rw [hsteps]
      exact List.mem_append_right _ List.mem_cons_self

/-- Points that are all written inside without a check. -/
def PointsInside (fb : Screen) (x0 y0 r : CInt) : Prop :=
  ∀ n, ∀ p ∈ circlePoints x0 y0 r n,
    0 ≤ (p.2 * fb.hdisp + p.1).toInt ∧ (p.2 * fb.hdisp + p.1).toInt < pixels fb

/-- The two points above and below one another are less than a screen apart. -/
theorem PointsInside.radius_le {x0 y0 r : CInt} (h : PointsInside fb x0 y0 r) :
    r.toInt ≤ fb.ml.vdisp := by
  by_contra hgt
  have hh := fb.ml.hdisp_le
  have hv := fb.ml.vdisp_le
  have hfirst := h 0 (x0, y0 + r) (List.mem_append_left _ List.mem_cons_self)
  have hpos : 0 < pixels fb := by omega
  have hv0 : 0 < fb.ml.vdisp := Nat.pos_of_ne_zero fun hz => by simp [pixels, hz] at hpos
  obtain ⟨k, hk⟩ : ∃ k, (fb.ml.vdisp + 1) / 2 = k := ⟨_, rfl⟩
  rcases circleAfter_reach (r := r) k (by omega) with ⟨hx, -, hmem⟩
  obtain ⟨x, hxdef⟩ : ∃ x, (circleAfter r k).x = x := ⟨_, rfl⟩
  obtain ⟨y, hydef⟩ : ∃ y, (circleAfter r k).y = y := ⟨_, rfl⟩
  rw [hxdef, hydef] at hmem
  rw [hxdef] at hx
  have hstep : ∀ p ∈ [(x0 + y, y0 + x), (x0 + y, y0 - x)], p ∈ circlePoints x0 y0 r k := by
    intro p hp
    refine List.mem_append_right _ (List.mem_flatMap.2 ⟨(x, y), hmem (by omega), ?_⟩)
    simp only [List.mem_cons, List.not_mem_nil, or_false] at hp ⊢
    rcases hp with rfl | rfl
    · exact .inr (.inr (.inr (.inr (.inl rfl))))
    · exact .inr (.inr (.inr (.inr (.inr (.inr (.inl rfl))))))
  have habove := h k _ (hstep (x0 + y, y0 + x) (by simp))
  have hbelow := h k _ (hstep (x0 + y, y0 - x) (by simp))
  have hpix := pixels_le fb
  -- the difference of their numbers
  have hdiff : ((y0 + x) * fb.hdisp + (x0 + y) - ((y0 - x) * fb.hdisp + (x0 + y))).toInt =
      2 * k * fb.ml.hdisp := by
    have hring : (y0 + x) * fb.hdisp + (x0 + y) - ((y0 - x) * fb.hdisp + (x0 + y)) =
        2 * x * fb.hdisp := by ring
    have hk2 : 2 * k ≤ fb.ml.vdisp + 1 := by omega
    have hprod : 2 * (k : Int) * fb.ml.hdisp ≤ (2 ^ 15 + 1) * 2 ^ 15 :=
      mul_le_mul (by omega) (by omega) (by omega) (by omega)
    have hnonneg : 0 ≤ 2 * (k : Int) * fb.ml.hdisp := by positivity
    have htwo : (2 : CInt).toInt = 2 := rfl
    have hdouble : (2 * x).toInt = 2 * k := by
      rw [toInt_mul_small (by rw [htwo]; omega) (by rw [htwo]; omega), htwo, hx]
    rw [hring, toInt_mul_small, hdouble, toInt_hdisp]
    · rw [hdouble, toInt_hdisp]
      omega
    · rw [hdouble, toInt_hdisp]
      omega
  have hlarge : (pixels fb : Int) ≤ 2 * k * fb.ml.hdisp := by
    have : fb.ml.vdisp ≤ 2 * k := by omega
    rw [pixels, Nat.mul_comm]
    push_cast
    exact mul_le_mul_of_nonneg_right (by omega) (by omega)
  rw [toInt_sub_small (by simp only at habove hbelow; omega) (by simp only at habove hbelow; omega)]
    at hdiff
  simp only at habove hbelow
  omega

/-- The number of a point, computed with numbers that may be too large. -/
theorem toInt_offset_wrap (x y : Int) :
    (BitVec.ofInt 32 y * fb.hdisp + BitVec.ofInt 32 x).toInt =
      Int.bmod (y * fb.ml.hdisp + x) (2 ^ 32) := by
  have hh : fb.hdisp = BitVec.ofInt 32 fb.ml.hdisp := by
    rw [Screen.hdisp, BitVec.ofInt_natCast]
  rw [hh, ← BitVec.ofInt_mul, ← BitVec.ofInt_add, BitVec.toInt_ofInt]

theorem exists_of_bmod {z : Int} {n : Nat} (h : 0 ≤ Int.bmod z (2 ^ 32) ∧ Int.bmod z (2 ^ 32) < n) :
    ∃ k : Int, 0 ≤ z - 2 ^ 32 * k ∧ z - 2 ^ 32 * k < n := by
  rw [Int.bmod_def] at h
  push_cast at h
  split at h
  · exact ⟨z / 2 ^ 32, by omega⟩
  · exact ⟨z / 2 ^ 32 + 1, by omega⟩

/-- A coordinate that passes the test of `fb_circle` is on the screen with the radius, or wraps. -/
theorem passes_test {u r : CInt} {w : Nat} (hr : 0 ≤ r.toInt) (hlow : 0 ≤ (u - r).toInt)
    (hhigh : (u + r).toInt < w) (hrw : r.toInt ≤ 2 ^ 15) :
    (r.toInt ≤ u.toInt ∧ u.toInt + r.toInt < w) ∨
      ∃ b, -r.toInt ≤ b ∧ b < r.toInt ∧ (u.toInt = b + 2 ^ 31 ∨ u.toInt = b - 2 ^ 31) := by
  have hbu := cInt_bounds u
  by_cases hsmall : -2 ^ 31 ≤ u.toInt - r.toInt
  · by_cases hlarge : u.toInt + r.toInt < 2 ^ 31
    · rw [toInt_sub_small hsmall (by omega)] at hlow
      rw [toInt_add_small (by omega) hlarge] at hhigh
      omega
    · exact .inr ⟨u.toInt - 2 ^ 31, by omega, by omega, .inl (by omega)⟩
  · exact .inr ⟨u.toInt + 2 ^ 31, by omega, by omega, .inr (by omega)⟩

/-- On a screen of even width a circle whose points are written inside without a check is on
the screen, unless its radius is negative. -/
theorem PointsInside.onScreen {x0 y0 r : CInt} (h : PointsInside fb x0 y0 r)
    (heven : 2 ∣ fb.ml.hdisp) (hr : 0 ≤ r.toInt)
    (hcheck : circleChecked fb x0 y0 r = false) :
    r.toInt ≤ x0.toInt ∧ x0.toInt + r.toInt < fb.ml.hdisp ∧
      r.toInt ≤ y0.toInt ∧ y0.toInt + r.toInt < fb.ml.vdisp := by
  have hh := fb.ml.hdisp_le
  have hv := fb.ml.vdisp_le
  have hpix := pixels_le fb
  have hradius := h.radius_le
  have hzero : (0 : CInt).toInt = 0 := rfl
  simp only [circleChecked, BitVec.slt_eq_decide, BitVec.sle_eq_decide, toInt_hdisp, toInt_vdisp,
    hzero, Bool.or_eq_false_iff, decide_eq_false_iff_not, not_lt, not_le] at hcheck
  rcases hcheck with ⟨⟨⟨hx, hx'⟩, hy⟩, hy'⟩
  -- the numbers of two of the points, up to multiples of 2^32
  have hof : ∀ u : CInt, u = BitVec.ofInt 32 u.toInt := fun u => BitVec.ofInt_toInt.symm
  have hright : ∃ k : Int, 0 ≤ y0.toInt * fb.ml.hdisp + (x0.toInt + r.toInt) - 2 ^ 32 * k ∧
      y0.toInt * fb.ml.hdisp + (x0.toInt + r.toInt) - 2 ^ 32 * k < pixels fb := by
    have hpoint := h 0 (x0 + r, y0) (List.mem_append_left _ (by simp))
    apply exists_of_bmod
    rw [← toInt_offset_wrap, BitVec.ofInt_add, ← hof, ← hof, ← hof]
    exact hpoint
  have hbelow : ∃ k : Int, 0 ≤ (y0.toInt - r.toInt) * fb.ml.hdisp + x0.toInt - 2 ^ 32 * k ∧
      (y0.toInt - r.toInt) * fb.ml.hdisp + x0.toInt - 2 ^ 32 * k < pixels fb := by
    have hpoint := h 0 (x0, y0 - r) (List.mem_append_left _ (by simp))
    have hsub : BitVec.ofInt 32 (y0.toInt - r.toInt) = y0 - r := by
      apply BitVec.eq_of_toInt_eq
      rw [BitVec.toInt_ofInt, BitVec.toInt_sub]
    apply exists_of_bmod
    rw [← toInt_offset_wrap, hsub, ← hof]
    exact hpoint
  rcases hright with ⟨k, hk, hk'⟩
  rcases hbelow with ⟨j, hj, hj'⟩
  have hpixels : (pixels fb : Int) = fb.ml.vdisp * fb.ml.hdisp := by
    rw [pixels]
    push_cast
    ring
  rcases heven with ⟨c, hc⟩
  rcases passes_test hr hx hx' (by omega) with hxs | ⟨b, hb, hb', hbx⟩
  · rcases passes_test hr hy hy' (by omega) with hys | ⟨a, ha, ha', hay⟩
    · exact ⟨hxs.1, hxs.2, hys.1, hys.2⟩
    · -- the point above the centre is less than a screen before the first pixel
      exfalso
      obtain ⟨w, hw⟩ : ∃ w, (a - r.toInt) * fb.ml.hdisp = w := ⟨_, rfl⟩
      have hwlow : -(2 ^ 15 * 2 ^ 15) ≤ w := by
        rw [← hw]
        have := mul_le_mul (show r.toInt - a ≤ 2 ^ 15 by omega)
          (show (fb.ml.hdisp : Int) ≤ 2 ^ 15 by omega) (by omega) (by omega)
        linarith
      have hwhigh : w ≤ -fb.ml.hdisp := by
        rw [← hw]
        have := mul_le_mul_of_nonneg_right (show a - r.toInt ≤ -1 by omega)
          (show (0 : Int) ≤ fb.ml.hdisp by omega)
        linarith
      have hline : (2 : Int) ^ 31 * fb.ml.hdisp = 2 ^ 32 * c := by
        rw [hc]
        push_cast
        ring
      have hsplit : (y0.toInt - r.toInt) * fb.ml.hdisp = w + 2 ^ 32 * c ∨
          (y0.toInt - r.toInt) * fb.ml.hdisp = w - 2 ^ 32 * c := by
        rcases hay with hay | hay
        · left
          rw [← hw, ← hline, hay]
          ring
        · right
          rw [← hw, ← hline, hay]
          ring
      omega
  · exfalso
    rcases passes_test hr hy hy' (by omega) with hys | ⟨a, ha, ha', hay⟩
    · -- the row is on the screen, and the column half the range of an int away
      obtain ⟨w, hw⟩ : ∃ w, y0.toInt * fb.ml.hdisp = w := ⟨_, rfl⟩
      have hwlow : 0 ≤ w := by
        rw [← hw]
        exact mul_nonneg (by omega) (by omega)
      have hwhigh : w ≤ 2 ^ 15 * 2 ^ 15 := by
        rw [← hw]
        exact mul_le_mul (by omega) (by omega) (by omega) (by omega)
      rw [hw] at hk hk'
      omega
    · obtain ⟨w, hw⟩ : ∃ w, a * (fb.ml.hdisp : Int) = w := ⟨_, rfl⟩
      have hwlow : -(pixels fb : Int) ≤ w := by
        rw [← hw, hpixels]
        have := mul_le_mul_of_nonneg_right (show -a ≤ fb.ml.vdisp by omega)
          (show (0 : Int) ≤ fb.ml.hdisp by omega)
        linarith
      have hwhigh : w ≤ 2 ^ 15 * 2 ^ 15 := by
        rw [← hw]
        have := mul_le_mul_of_nonneg_right (show a ≤ 2 ^ 15 by omega)
          (show (0 : Int) ≤ fb.ml.hdisp by omega)
        have := mul_le_mul_of_nonneg_left (show (fb.ml.hdisp : Int) ≤ 2 ^ 15 by omega)
          (show (0 : Int) ≤ 2 ^ 15 by omega)
        linarith
      have hline : (2 : Int) ^ 31 * fb.ml.hdisp = 2 ^ 32 * c := by
        rw [hc]
        push_cast
        ring
      have hsplit : y0.toInt * fb.ml.hdisp = w + 2 ^ 32 * c ∨
          y0.toInt * fb.ml.hdisp = w - 2 ^ 32 * c := by
        rcases hay with hay | hay
        · left
          rw [← hw, ← hline, hay]
          ring
        · right
          rw [← hw, ← hline, hay]
          ring
      omega

theorem circleInside_of_within (hd : fb.depth = some d) (hw : WholeWords fb)
    (heven : 2 ∣ fb.ml.hdisp) {x0 y0 r color : CInt}
    (h : ∀ n, Within fb (fbCircle fb n x0 y0 r color)) : CircleInside fb x0 y0 r := by
  have hbpp : fb.bpp ≠ 0 := by
    have := d.bits_pos
    simp [Screen.bpp, hd]
    omega
  by_cases hcheck : circleChecked fb x0 y0 r = true
  · exact .inl hcheck
  · have hplot : circlePlot fb x0 y0 r = plotUnbounded fb := by
      rw [circlePlot]
      rw [circleChecked] at hcheck
      exact if_neg hcheck
    have hpoints : PointsInside fb x0 y0 r := by
      intro n p hp
      have hn := h n
      rw [fbCircle_eq hbpp, hplot, within_flatMap] at hn
      have hin := hn p hp
      rwa [within_plotUnbounded_iff, plot_inside_iff hd hw] at hin
    rcases Int.lt_or_le r.toInt 0 with hneg | hr
    · exact .inr (.inr ⟨hneg, fun p hp => hpoints 0 p (List.mem_append_left _ hp)⟩)
    · exact .inr (.inl ⟨hr, hpoints.onScreen heven hr (by simpa using hcheck)⟩)

end Circle

section Fill

section Writes

variable (acc : Access) (fb : Screen)

/-- The variables when a column is entered for the entry on top of the stack. -/
def columnStart (curcolor : Nat) (s : Fill) : Scan :=
  { mem := s.mem
    stk := s.stk
    sp := s.sp.toNat
    y := Loop.passes (upTest acc fb s.mem curcolor (s.stk s.sp.toNat).x.toInt) (· - 1)
      (fb.ml.vdisp + 1) (s.stk s.sp.toNat).y.toInt + 1
    l := false
    r := false
    abort := false }

/-- The numbers of the pixels that `fillBody` assigns to. -/
def columnWrites (curcolor : Nat) (color : CInt) (s : Fill) : List Int :=
  let x := (s.stk s.sp.toNat).x.toInt
  (Loop.visited (downTest acc fb curcolor x) (downBody acc fb curcolor color x) (fb.ml.vdisp + 1)
    (columnStart acc fb curcolor s)).map fun scan => scan.y * fb.ml.hdisp + x

def fillPixelsWrites (n : Nat) (sb : Bool) (x y : Int) (color : CInt) (m : Memory) : List Int :=
  let curcolor := pixel acc fb m x y
  if (curcolor : Int) = color.toInt || !sb then []
  else
    (Loop.visited fillTest (fillBody acc fb curcolor color) n
      { mem := m
        stk := fun _ => ⟨BitVec.ofInt 16 x, BitVec.ofInt 16 y⟩
        sp := 0
        abort := false }).flatMap (columnWrites acc fb curcolor color)

/-- The bytes that `fb_fill` writes within `n` entries of its stack. -/
def fbFillWrites (n : Nat) (sb : Bool) (x y color : CInt) (m : Memory) : List (Int × Nat) :=
  if fb.bpp = 0 || offScreen fb x y then []
  else
    (fillPixelsWrites fb.access fb n sb x.toInt y.toInt color m).map fun i =>
      ((fb.access.width / 8 : Nat) * i, fb.access.width / 8)

variable {acc fb}

theorem look_mem (curcolor : Nat) (inside flag : Bool) (x : Int) (s : Scan) :
    (look acc fb curcolor inside x flag s).1.mem = s.mem := by
  rw [look]
  split
  · rfl
  · split <;> rfl

theorem downBody_mem (curcolor : Nat) (color : CInt) (x : Int) (s : Scan) :
    (downBody acc fb curcolor color x s).mem = acc.write s.mem (s.y * fb.ml.hdisp + x) color := by
  rw [downBody]
  simp only
  split
  · exact look_mem ..
  · split <;> exact (look_mem ..).trans (look_mem ..)

/-- The memory after a column is the one before with these pixels assigned. -/
theorem fillBody_mem (curcolor : Nat) (color : CInt) (s : Fill) :
    (fillBody acc fb curcolor color s).mem =
      (columnWrites acc fb curcolor color s).foldl (fun m i => acc.write m i color) s.mem := by
  rw [columnWrites, List.foldl_map]
  exact Loop.passes_foldl Scan.mem
    (fun m scan => acc.write m (scan.y * fb.ml.hdisp + (s.stk s.sp.toNat).x.toInt) color)
    (fun scan _ => downBody_mem curcolor color _ scan) (fb.ml.vdisp + 1) _

theorem fillPixels_mem (n : Nat) (sb : Bool) (x y : Int) (color : CInt) (m : Memory) :
    (fillPixels acc fb n sb x y color m).mem =
      (fillPixelsWrites acc fb n sb x y color m).foldl (fun m i => acc.write m i color) m := by
  rw [fillPixelsWrites]
  split
  · next h => rw [fillPixels_return h, List.foldl_nil]
  · next h =>
      rw [fillPixels_run h, List.foldl_flatMap]
      exact Loop.passes_foldl Fill.mem
        (fun m s => (columnWrites acc fb (pixel acc fb _ x y) color s).foldl
          (fun m i => acc.write m i color) m)
        (fun s _ => fillBody_mem _ color s) n _

end Writes

section Component

variable {acc : Access} {fb : Screen} {m₀ : Memory} {sx sy : Int} {color : CInt}

/-- What holds in a column: the stack has pixels of the component, and the run goes on in it. -/
structure Column (acc : Access) (fb : Screen) (m₀ : Memory) (sx sy x : Int) (s : Scan) : Prop where
  spared : Spared acc fb m₀ sx sy s.mem
  entries : ∀ i < s.sp, Component acc fb m₀ sx sy (s.stk i).x.toInt (s.stk i).y.toInt
  next : OnScreen fb x s.y → pixel acc fb s.mem x s.y = pixel acc fb m₀ sx sy →
    Component acc fb m₀ sx sy x s.y
  row : 0 ≤ s.y

theorem look_cases (curcolor : Nat) (inside flag : Bool) (x : Int) (s : Scan) :
    (look acc fb curcolor inside x flag s).1 = s ∨
      inside = true ∧ pixel acc fb s.mem x s.y = curcolor ∧
        (look acc fb curcolor inside x flag s).1 = s.push x s.y := by
  rw [look]
  split
  · next h =>
      simp only [Bool.and_eq_true, beq_iff_eq] at h
      exact .inr ⟨h.1.2, h.2, rfl⟩
  · split
    · exact .inl rfl
    · exact .inl rfl

/-- A look at a neighbouring column. -/
theorem Column.look {x : Int} {s : Scan} (h : Column acc fb m₀ sx sy x s) (x' : Int)
    (inside flag : Bool) (hc : Component acc fb m₀ sx sy x s.y) (hadj : Adjacent x s.y x' s.y)
    (hin : inside = true → OnScreen fb x' s.y) :
    Column acc fb m₀ sx sy x
        (Fb.look acc fb (pixel acc fb m₀ sx sy) inside x' flag s).1 ∧
      (Fb.look acc fb (pixel acc fb m₀ sx sy) inside x' flag s).1.y = s.y := by
  rcases look_cases (pixel acc fb m₀ sx sy) inside flag x' s with hsame | ⟨hinside, hcur, hpush⟩
  · rw [hsame]
    exact ⟨h, rfl⟩
  · rw [hpush]
    have hon := hin hinside
    refine ⟨⟨h.spared, ?_, h.next, h.row⟩, rfl⟩
    intro i hi
    rcases Nat.lt_or_eq_of_le (Nat.lt_succ_iff.1 hi) with hlt | rfl
    · rw [push_below s hlt]
      exact h.entries i hlt
    · rcases push_entry s hon with ⟨hx, hy⟩
      rw [hx, hy]
      exact h.spared.closed hc hadj hon hcur

/-- One pixel painted on the way down belongs to the component. -/
theorem Column.downBody {x : Int} {s : Scan} (color : CInt) (law : acc.Lawful)
    (h : Column acc fb m₀ sx sy x s) (hx : 0 ≤ x ∧ x < fb.ml.hdisp)
    (ht : downTest acc fb (pixel acc fb m₀ sx sy) x s = true) :
    Component acc fb m₀ sx sy x s.y ∧
      Column acc fb m₀ sx sy x (downBody acc fb (pixel acc fb m₀ sx sy) color x s) := by
  simp only [downTest, Bool.and_eq_true, decide_eq_true_eq, beq_iff_eq] at ht
  rcases ht with ⟨⟨-, hyv⟩, hcur⟩
  have hon : OnScreen fb x s.y := ⟨hx.1, hx.2, h.row, hyv⟩
  have hc := h.next hon hcur
  refine ⟨hc, ?_⟩
  have hpainted : Column acc fb m₀ sx sy x
      { s with mem := acc.write s.mem (s.y * fb.ml.hdisp + x) color } :=
    ⟨h.spared.write law hc color, h.entries, fun _ _ => hc, h.row⟩
  have hleft := hpainted.look (x - 1) (decide (0 < x)) s.l hc
    (Or.inr ⟨rfl, Or.inl (by omega)⟩) (fun hpos => by
      rw [decide_eq_true_eq] at hpos
      exact ⟨by omega, by omega, h.row, hyv⟩)
  obtain ⟨s₂, hs₂⟩ : ∃ s₂, Fb.look acc fb (pixel acc fb m₀ sx sy) (decide (0 < x)) (x - 1) s.l
    { s with mem := acc.write s.mem (s.y * fb.ml.hdisp + x) color } = s₂ := ⟨_, rfl⟩
  rw [hs₂] at hleft
  rcases hleft with ⟨hleft, hrow₂⟩
  have hc₂ : Component acc fb m₀ sx sy x s₂.1.y := by
    rw [hrow₂]
    exact hc
  have hflag : Column acc fb m₀ sx sy x { s₂.1 with l := s₂.2 } :=
    ⟨hleft.spared, hleft.entries, hleft.next, hleft.row⟩
  have hright := hflag.look (x + 1) (decide (x < fb.ml.hdisp - 1)) s₂.1.r hc₂
    (Or.inr ⟨rfl, Or.inr rfl⟩) (fun hpos => by
      rw [decide_eq_true_eq] at hpos
      exact ⟨by omega, by omega, hleft.row, by simp only [hrow₂]; exact hyv⟩)
  obtain ⟨s₄, hs₄⟩ : ∃ s₄, Fb.look acc fb (pixel acc fb m₀ sx sy) (decide (x < fb.ml.hdisp - 1))
    (x + 1) s₂.1.r { s₂.1 with l := s₂.2 } = s₄ := ⟨_, rfl⟩
  rw [hs₄] at hright
  rcases hright with ⟨hright, hrow₄⟩
  have hc₄ : Component acc fb m₀ sx sy x s₄.1.y := by
    rw [hrow₄]
    exact hc₂
  have hdown : Fb.downBody acc fb (pixel acc fb m₀ sx sy) color x s =
      if s₂.1.abort then { s₂.1 with l := s₂.2 }
      else if s₄.1.abort then { s₄.1 with r := s₄.2 }
      else { s₄.1 with r := s₄.2, y := s₄.1.y + 1 } := by
    rw [← hs₄, ← hs₂]
    rfl
  rw [hdown]
  split
  · exact hflag
  · split
    · exact ⟨hright.spared, hright.entries, hright.next, hright.row⟩
    · refine ⟨hright.spared, hright.entries, fun hon' hcur' => ?_, ?_⟩
      · exact hright.spared.closed hc₄ (Or.inl ⟨rfl, Or.inr rfl⟩) hon' hcur'
      · have := hright.row
        simp only
        omega

/-- Every entry of the stack is a pixel of the component. -/
structure Stacked (acc : Access) (fb : Screen) (m₀ : Memory) (sx sy : Int) (s : Fill) : Prop where
  spared : Spared acc fb m₀ sx sy s.mem
  entries : ∀ i : Nat, (i : Int) ≤ s.sp →
    Component acc fb m₀ sx sy (s.stk i).x.toInt (s.stk i).y.toInt

theorem Stacked.column {s : Fill} (h : Stacked acc fb m₀ sx sy s) (hsp : 0 ≤ s.sp) :
    Column acc fb m₀ sx sy (s.stk s.sp.toNat).x.toInt
      (columnStart acc fb (pixel acc fb m₀ sx sy) s) := by
  have hentry := h.entries s.sp.toNat (by omega)
  have hon := hentry.onScreen
  rcases @scan_up acc fb s.mem (s.stk s.sp.toNat).x.toInt _ (pixel acc fb m₀ sx sy)
    hon.2.2.2 hon.2.2.1 with ⟨top, htop, h0, hle, hrun, -⟩
  refine ⟨h.spared, fun i hi => h.entries i ?_, ?_, ?_⟩
  · change i < s.sp.toNat at hi
    omega
  · rw [columnStart]
    simp only [htop]
    exact h.spared.top_comp hentry h0 hle hrun
  · rw [columnStart]
    simp only [htop]
    exact h0

theorem Stacked.fillBody {s : Fill} (color : CInt) (law : acc.Lawful) (h : Stacked acc fb m₀ sx sy s)
    (ht : fillTest s = true) :
    Stacked acc fb m₀ sx sy (fillBody acc fb (pixel acc fb m₀ sx sy) color s) := by
  simp only [fillTest, Bool.and_eq_true, decide_eq_true_eq] at ht
  have hon := (h.entries s.sp.toNat (by omega)).onScreen
  obtain ⟨scan, hscan⟩ : ∃ scan, Loop.passes
    (downTest acc fb (pixel acc fb m₀ sx sy) (s.stk s.sp.toNat).x.toInt)
    (downBody acc fb (pixel acc fb m₀ sx sy) color (s.stk s.sp.toNat).x.toInt) (fb.ml.vdisp + 1)
    (columnStart acc fb (pixel acc fb m₀ sx sy) s) = scan := ⟨_, rfl⟩
  have hcolumn := Loop.passes_keep
    (Column acc fb m₀ sx sy (s.stk s.sp.toNat).x.toInt)
    (fun _ hc ht => (hc.downBody color law ⟨hon.1, hon.2.1⟩ ht).2)
    (fb.ml.vdisp + 1) _ (h.column ht.2)
  rw [hscan] at hcolumn
  have hbody : Fb.fillBody acc fb (pixel acc fb m₀ sx sy) color s =
      { mem := scan.mem, stk := scan.stk, sp := scan.sp - 1, abort := scan.abort } := by
    rw [← hscan]
    rfl
  rw [hbody]
  refine ⟨hcolumn.spared, fun i hi => hcolumn.entries i ?_⟩
  change (i : Int) ≤ scan.sp - 1 at hi
  omega

/-- A column assigns to pixels of the component only. -/
theorem Stacked.columnWrites {s : Fill} (law : acc.Lawful) (h : Stacked acc fb m₀ sx sy s)
    (ht : fillTest s = true) :
    ∀ i ∈ columnWrites acc fb (pixel acc fb m₀ sx sy) color s,
      ∃ u v, Component acc fb m₀ sx sy u v ∧ v * fb.ml.hdisp + u = i := by
  simp only [fillTest, Bool.and_eq_true, decide_eq_true_eq] at ht
  have hon := (h.entries s.sp.toNat (by omega)).onScreen
  intro i hi
  rcases List.mem_map.1 hi with ⟨scan, hscan, rfl⟩
  rcases Loop.visited_keep
    (Column acc fb m₀ sx sy (s.stk s.sp.toNat).x.toInt)
    (fun _ hc ht => (hc.downBody color law ⟨hon.1, hon.2.1⟩ ht).2)
    (fb.ml.vdisp + 1) _ (h.column ht.2) scan hscan with ⟨hcolumn, htest⟩
  exact ⟨_, _, (hcolumn.downBody color law ⟨hon.1, hon.2.1⟩ htest).1, rfl⟩

theorem fillPixelsWrites_component (law : acc.Lawful) (hon : OnScreen fb sx sy) (n : Nat)
    (sb : Bool) :
    ∀ i ∈ fillPixelsWrites acc fb n sb sx sy color m₀,
      ((pixel acc fb m₀ sx sy : Int) ≠ color.toInt ∧ sb = true) ∧
        ∃ u v, Component acc fb m₀ sx sy u v ∧ v * fb.ml.hdisp + u = i := by
  intro i hi
  rw [fillPixelsWrites] at hi
  split at hi
  · simp at hi
  · next hrun =>
      simp only [Bool.or_eq_true, decide_eq_true_eq, Bool.not_eq_true', not_or,
        Bool.not_eq_false] at hrun
      refine ⟨hrun, ?_⟩
      rcases List.mem_flatMap.1 hi with ⟨s, hs, hi⟩
      have hstart : Stacked acc fb m₀ sx sy
          { mem := m₀
            stk := fun _ => ⟨BitVec.ofInt 16 sx, BitVec.ofInt 16 sy⟩
            sp := 0
            abort := false } := by
        refine ⟨fun _ _ => rfl, fun i _ => ?_⟩
        simp only [hon.toInt_entry]
        exact Component.seed hon
      rcases Loop.visited_keep (Stacked acc fb m₀ sx sy)
        (fun _ h ht => h.fillBody color law ht) n _ hstart s hs with ⟨hstacked, htest⟩
      exact hstacked.columnWrites law htest i hi

end Component

end Fill

section Filled

variable {fb : Screen} {d : Depth}

/-- When a filled circle is written inside: the span through its centre is, and with a positive
radius so is every span no wider and no farther from the centre than the radius. -/
def FilledInside (fb : Screen) (x0 y0 r : CInt) : Prop :=
  RectangleInside fb (x0 - r).toInt y0.toInt (x0 + r).toInt y0.toInt ∧
    ∀ e w : CInt, 0 ≤ e.toInt ∧ e.toInt ≤ r.toInt → 0 ≤ w.toInt ∧ w.toInt ≤ r.toInt →
      0 < r.toInt →
      RectangleInside fb (x0 - e).toInt (y0 + w).toInt (x0 + e).toInt (y0 + w).toInt ∧
        RectangleInside fb (x0 - e).toInt (y0 - w).toInt (x0 + e).toInt (y0 - w).toInt

/-- The two points above and below the centre are plotted with a check of the coordinates,
not of the mode. -/
def PolesInside (fb : Screen) (x0 y0 r : CInt) : Prop :=
  fb.depth = none → offScreen fb x0 (y0 + r) = true ∧ offScreen fb x0 (y0 - r) = true

theorem within_poles_iff (hw : WholeWords fb) (x0 y0 r color : CInt) :
    Within fb (fbPlot fb x0 (y0 + r) color ++ fbPlot fb x0 (y0 - r) color) ↔
      PolesInside fb x0 y0 r := by
  rw [within_append, PolesInside]
  cases hd : fb.depth with
  | none => simp [within_fbPlot_off_iff hd]
  | some d => simp [within_fbPlot hd hw]

theorem within_fbFilledcircle (hw : WholeWords fb) {x0 y0 r : CInt}
    (hp : PolesInside fb x0 y0 r) (h : FilledInside fb x0 y0 r) (n : Nat) (color : CInt) :
    Within fb (fbFilledcircle fb n x0 y0 r color) := by
  rw [fbFilledcircle, within_append, within_append, within_poles_iff hw,
    within_fbRectangle_iff hw, within_flatMap]
  refine ⟨⟨hp, h.1⟩, fun p hp => ?_⟩
  rcases Int.lt_or_le 0 r.toInt with hr | hr
  · rcases (circleAfter_inSquare (le_of_lt hr) n).steps p hp with ⟨hx, hy⟩
    have hspan := h.2 p.1 p.2 hx hy hr
    have hspan' := h.2 p.2 p.1 hy hx hr
    simp only [within_append, within_fbRectangle_iff hw]
    exact ⟨⟨hspan, hspan'.1⟩, hspan'.2⟩
  · rw [circleAfter_of_nonpos hr] at hp
    simp at hp

/-- Where no span is left out of account the condition is also necessary. -/
theorem filledInside_of_within (hw : WholeWords fb) {x0 y0 r color : CInt}
    (hdecided : fb.depth = some .bpp24 ∨ r.toInt ≤ 0)
    (h : Within fb (fbFilledcircle fb 0 x0 y0 r color)) :
    PolesInside fb x0 y0 r ∧ FilledInside fb x0 y0 r := by
  rw [fbFilledcircle, within_append, within_append, within_poles_iff hw,
    within_fbRectangle_iff hw] at h
  refine ⟨h.1.1, h.1.2, fun e w _ _ hr => ?_⟩
  have h24 : fb.depth = some .bpp24 := hdecided.resolve_right (by omega)
  constructor <;> intro y _ _ <;> rw [RowInside, h24] <;> trivial

/-- The spans of a circle whose centre is on a column of the screen. -/
theorem filledInside_of_centre (hd : fb.depth = some d) {x0 y0 r : CInt} (hx : 0 ≤ x0.toInt)
    (hx' : x0.toInt < fb.ml.hdisp) (hr : 0 ≤ r.toInt) (hr' : r.toInt ≤ 2 ^ 30) :
    FilledInside fb x0 y0 r := by
  have hh : (fb.ml.hdisp : Int) ≤ 2 ^ 15 := by exact_mod_cast fb.ml.hdisp_le
  have hspan : ∀ (e : CInt) (y : Int), 0 ≤ e.toInt ∧ e.toInt ≤ r.toInt →
      RectangleInside fb (x0 - e).toInt y (x0 + e).toInt y := by
    intro e y he row _ _
    rw [toInt_sub_small (by omega) (by omega), toInt_add_small (by omega) (by omega),
      RowInside, hd]
    cases d <;> simp only <;> omega
  exact ⟨hspan r _ ⟨hr, le_refl _⟩, fun e w he _ _ => ⟨hspan e _ he, hspan e _ he⟩⟩

end Filled

section Text

variable {fb : Screen} {d : Depth} {font : Nat → Byte} {p : Pen}

/-- The dots of a row of a character lie on the screen. -/
theorem dotsBody_within (hd : fb.depth = some d) (hw : WholeWords fb) {y : CInt}
    (hy : 0 ≤ y.toInt) (hy' : y.toInt < fb.ml.vdisp) {s : Dots} (h : Within fb s.stores) :
    Within fb (dotsBody fb p (y * fb.hdisp) s).stores := by
  have hzero : (0 : CInt).toInt = 0 := rfl
  by_cases hneg : s.x.slt 0
  · rw [dotsBody, if_pos hneg]
    exact h
  · by_cases hright : fb.hdisp.sle s.x
    · rw [dotsBody, if_neg hneg, if_pos hright]
      exact h
    · rw [dotsBody, if_neg hneg, if_neg hright]
      simp only [BitVec.slt_eq_decide, BitVec.sle_eq_decide, toInt_hdisp, hzero,
        decide_eq_true_eq, not_lt, not_le] at hneg hright
      generalize (if s.xs = p.scaleX then s.c <<< 1 else s.c) = c
      dsimp only
      by_cases hskip : ¬c &&& 0x80#32 ≠ 0 ∧ p.bgcolor.slt 0
      · rw [if_pos hskip]
        exact h
      · rw [if_neg hskip, within_append]
        exact ⟨h, within_pixel hd hw _ ⟨hneg, hright, hy, hy'⟩⟩

/-- A row above or below the screen leaves the stores as they are. -/
theorem rowsBody_outside {x0 : CInt} {s : Rows}
    (h : ¬(0 ≤ s.y.toInt ∧ s.y.toInt < fb.ml.vdisp)) :
    (rowsBody fb font p x0 s).stores = s.stores := by
  have hzero : (0 : CInt).toInt = 0 := rfl
  by_cases hneg : s.y.slt 0
  · rw [rowsBody, if_pos hneg]
  · by_cases hbelow : fb.vdisp.sle s.y
    · rw [rowsBody, if_neg hneg, if_pos hbelow]
    · simp only [BitVec.slt_eq_decide, BitVec.sle_eq_decide, toInt_vdisp, hzero,
        decide_eq_true_eq, not_lt, not_le] at hneg hbelow
      exact absurd ⟨hneg, hbelow⟩ h

theorem rowsBody_within (hd : fb.depth = some d) (hw : WholeWords fb) {x0 : CInt} {s : Rows}
    (h : Within fb s.stores) : Within fb (rowsBody fb font p x0 s).stores := by
  by_cases hon : 0 ≤ s.y.toInt ∧ s.y.toInt < fb.ml.vdisp
  · have hzero : (0 : CInt).toInt = 0 := rfl
    have hneg : ¬s.y.slt 0 := by
      simp only [BitVec.slt_eq_decide, hzero, decide_eq_true_eq]
      omega
    have hbelow : ¬fb.vdisp.sle s.y := by
      simp only [BitVec.sle_eq_decide, toInt_vdisp, decide_eq_true_eq]
      omega
    rw [rowsBody, if_neg hneg, if_neg hbelow, within_append]
    refine ⟨h, ?_⟩
    exact Loop.passes_keep (fun dots : Dots => Within fb dots.stores)
      (fun dots hdots _ => dotsBody_within hd hw hon.1 hon.2 hdots) _ _ within_nil
  · rw [rowsBody_outside hon]
    exact h

theorem within_fbText (hd : fb.depth = some d) (hw : WholeWords fb) (y0 : CInt)
    (text : List CInt) (x0 : CInt) : Within fb (fbText fb font p y0 x0 text) := by
  induction text generalizing x0 with
  | nil => exact within_nil
  | cons c cp ih =>
      rw [fbText]
      split
      · exact within_nil
      · rw [within_append]
        refine ⟨?_, ih _⟩
        exact Loop.passes_keep (fun rows : Rows => Within fb rows.stores)
          (fun rows hrows _ => rowsBody_within hd hw hrows) _ _ within_nil

/-- A screen without lines shows no text. -/
theorem fbText_empty (hv : fb.ml.vdisp = 0) (y0 : CInt) (text : List CInt) (x0 : CInt) :
    fbText fb font p y0 x0 text = [] := by
  induction text generalizing x0 with
  | nil => rfl
  | cons c cp ih =>
      rw [fbText]
      split
      · rfl
      · simp only [ih, List.append_nil]
        refine Loop.passes_keep (fun rows : Rows => rows.stores = [])
          (fun rows hrows _ => ?_) _ _ rfl
        rw [rowsBody_outside (by omega)]
        exact hrows

end Text

section Filling

variable {fb : Screen} {m : Memory} {x y color : CInt} {sb : Bool}

/-- When a fill is written inside: it assigns to nothing, or the pixels have bytes of their own,
or so many bytes as there are pixels of the component are in the framebuffer. -/
def FillInside (fb : Screen) (sb : Bool) (x y color : CInt) (m : Memory) : Prop :=
  fb.bpp = 0 ∨ 8 ≤ fb.bpp ∨ offScreen fb x y = true ∨ sb = false ∨
    (pixel fb.access fb m x.toInt y.toInt : Int) = color.toInt ∨
    ∀ u v, Component fb.access fb m x.toInt y.toInt u v → v * fb.ml.hdisp + u < fb.size

/-- The bytes of a pixel of a depth with whole bytes. -/
theorem access_inside (hbpp : 8 ≤ fb.bpp) {i : Int} (hi : 0 ≤ i) (h : i < pixels fb) :
    Inside fb ((fb.access.width / 8 : Nat) * i, fb.access.width / 8) := by
  refine .inr ?_
  cases hd : fb.depth with
  | none => simp [Screen.bpp, hd] at hbpp
  | some d =>
      have hsize := size_eq hd
      have hb : fb.bpp = d.bits := by
        simp [Screen.bpp, hd]
      cases d <;> simp_all [Screen.access, access8, access16, Depth.bits] <;> omega

theorem access_inside_packed (hbpp : fb.bpp < 8) {i : Int} (hi : 0 ≤ i) (h : i < fb.size) :
    Inside fb ((fb.access.width / 8 : Nat) * i, fb.access.width / 8) := by
  have hne : ¬fb.bpp = 16 := by
    omega
  rw [Screen.access, if_neg hne]
  refine .inr ?_
  simp only [access8]
  omega

theorem within_fbFill (h : FillInside fb sb x y color m) (n : Nat) :
    ∀ b ∈ fbFillWrites fb n sb x y color m, Inside fb b := by
  intro b hb
  rw [fbFillWrites] at hb
  split at hb
  · simp at hb
  · next hrun =>
      simp only [Bool.or_eq_true, decide_eq_true_eq, not_or, Bool.not_eq_true] at hrun
      have hon := (offScreen_eq fb x y).1 hrun.2
      rcases List.mem_map.1 hb with ⟨i, hi, rfl⟩
      rcases fillPixelsWrites_component fb.access_lawful hon n sb i hi with
        ⟨⟨hcolor, hsb⟩, u, v, huv, rfl⟩
      have hpixel := offset_bounds huv.onScreen
      by_cases hbpp : 8 ≤ fb.bpp
      · exact access_inside hbpp hpixel.1 hpixel.2
      · refine access_inside_packed (by omega) hpixel.1 ?_
        rcases h with h | h | h | h | h | h
        · exact absurd h hrun.1
        · exact absurd h hbpp
        · rw [h] at hrun
          exact absurd hrun.2 (by simp)
        · rw [h] at hsb
          exact absurd hsb (by simp)
        · exact absurd h hcolor
        · exact h u v huv

end Filling

section Calls

/-- A call of a drawing primitive.  `sb` tells whether the stack of a fill can be allocated. -/
inductive Call where
  | plot (x y color : CInt)
  | line (x0 y0 x1 y1 color : CInt)
  | rectangle (x0 y0 x1 y1 color : CInt)
  | circle (x0 y0 r color : CInt)
  | filledcircle (x0 y0 r color : CInt)
  | fill (sb : Bool) (x y color : CInt)
  | text (font : Nat → Byte) (p : Pen) (x0 y0 : CInt) (cp : List CInt)

namespace Call

variable (fb : Screen) (m : Memory)

/-- The bytes a call writes within `n` passes of its loop; `m` is what the memory holds. -/
def writes (n : Nat) : Call → List (Int × Nat)
  | plot x y color => (fbPlot fb x y color).map (Store.bytes fb)
  | line x0 y0 x1 y1 color => (fbLine fb n x0 y0 x1 y1 color).map (Store.bytes fb)
  | rectangle x0 y0 x1 y1 color => (fbRectangle fb x0 y0 x1 y1 color).map (Store.bytes fb)
  | circle x0 y0 r color => (fbCircle fb n x0 y0 r color).map (Store.bytes fb)
  | filledcircle x0 y0 r color => (fbFilledcircle fb n x0 y0 r color).map (Store.bytes fb)
  | fill sb x y color => fbFillWrites fb n sb x y color m
  | text font p x0 y0 cp => (fbText fb font p y0 x0 cp).map (Store.bytes fb)

/-- All bytes a call writes are in the framebuffer. -/
def Safe (call : Call) : Prop := ∀ n, ∀ b ∈ call.writes fb m n, Inside fb b

/-- The arguments with which a primitive stays in the framebuffer. -/
def Careful : Call → Prop
  | plot x y _ => fb.depth = none → offScreen fb x y = true
  | line .. => True
  | rectangle x0 y0 x1 y1 _ => RectangleInside fb x0.toInt y0.toInt x1.toInt y1.toInt
  | circle x0 y0 r _ => fb.depth = none ∨ CircleInside fb x0 y0 r
  | filledcircle x0 y0 r _ => PolesInside fb x0 y0 r ∧ FilledInside fb x0 y0 r
  | fill sb x y color => FillInside fb sb x y color m
  | text _ _ _ _ cp => fb.depth = none → fb.ml.vdisp = 0 ∨ cp.headD 0 = 0

/-- The calls that leave the framebuffer whenever they are not careful. -/
def Decided : Call → Prop
  | plot .. | line .. | rectangle .. => True
  | circle .. => 2 ∣ fb.ml.hdisp
  | filledcircle _ _ r _ => fb.depth = some .bpp24 ∨ r.toInt ≤ 0
  | fill .. => fb.bpp = 0 ∨ 8 ≤ fb.bpp
  | text .. => fb.depth ≠ none

end Call

variable {fb : Screen} {m : Memory}

theorem map_bytes_inside (stores : List Store) :
    (∀ b ∈ stores.map (Store.bytes fb), Inside fb b) ↔ Within fb stores := by
  simp [Within]

theorem within_fbText_of_careful (hw : WholeWords fb) {font : Nat → Byte} {p : Pen} {x0 y0 : CInt}
    {cp : List CInt} (h : fb.depth = none → fb.ml.vdisp = 0 ∨ cp.headD 0 = 0) :
    Within fb (fbText fb font p y0 x0 cp) := by
  cases hd : fb.depth with
  | some d => exact within_fbText hd hw y0 cp x0
  | none =>
      rcases h hd with hv | hend
      · rw [fbText_empty hv]
        exact within_nil
      · cases cp with
        | nil => exact within_nil
        | cons c cp =>
            change c = 0 at hend
            rw [fbText, if_pos hend]
            exact within_nil

theorem within_fbPlot_iff (hw : WholeWords fb) (x y color : CInt) :
    Within fb (fbPlot fb x y color) ↔ (fb.depth = none → offScreen fb x y = true) := by
  cases hd : fb.depth with
  | none => simp [within_fbPlot_off_iff hd]
  | some d => simp [within_fbPlot hd hw]

theorem within_fbCircle_of_careful (hw : WholeWords fb) {x0 y0 r : CInt}
    (h : fb.depth = none ∨ CircleInside fb x0 y0 r) (n : Nat) (color : CInt) :
    Within fb (fbCircle fb n x0 y0 r color) := by
  cases hd : fb.depth with
  | none =>
      rw [fbCircle, Screen.bpp, hd]
      exact within_nil
  | some d =>
      rcases h with h | h
      · rw [hd] at h
        exact absurd h (by simp)
      · exact within_fbCircle hd hw h n color

/-- The same screen after the video is turned off: the resolution and the plot function stay. -/
def vgaOff : Screen := { vga with depth := none, installed := by simp }

end Calls

end Fb
end F32c
