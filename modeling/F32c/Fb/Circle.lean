import F32c.Fb.Safety

/-!
# Circles

The loop that `fb_circle` and `fb_filledcircle` share decides with an error term whether
the next point is a row further in.  Its value is a quadratic form of the coordinates, so
the decision is the one that keeps the point nearest to the circle.  The two functions then
take the same points: one plots the ends of a span, the other one fills it.
-/

namespace F32c
namespace Fb

variable {fb : Screen} {d : Depth} {color : CInt}

section Midpoint

/-- `y` is the nearest number to the root of `r * r - x * x`. -/
def Nearest (r : CInt) (p : CInt × CInt) : Prop :=
  p.2.toInt ^ 2 - p.2.toInt < r.toInt ^ 2 - p.1.toInt ^ 2 ∧
    r.toInt ^ 2 - p.1.toInt ^ 2 ≤ p.2.toInt ^ 2 + p.2.toInt

/-- The error term of a state. -/
def errorTerm (r : CInt) (s : Circle) : Int :=
  (s.x.toInt + 1) ^ 2 + s.y.toInt ^ 2 - s.y.toInt - r.toInt ^ 2

/-- What holds whenever the test of the loop is made. -/
structure Midpoint (r : CInt) (s : Circle) : Prop where
  square : InSquare r s
  ddFx : s.ddFx.toInt = 2 * s.x.toInt + 1
  ddFy : s.ddFy.toInt = -2 * s.y.toInt
  f : s.f.toInt = errorTerm r s
  near : s.x.toInt < s.y.toInt → Nearest r (s.x, s.y)
  steps : ∀ p ∈ s.steps, p.1.toInt ≤ p.2.toInt → Nearest r p

/-- The error term during the loop is small. -/
theorem Midpoint.f_bounds {r : CInt} {s : Circle} (h : Midpoint r s)
    (hlt : s.x.toInt < s.y.toInt) :
    2 * s.x.toInt + 2 - 2 * s.y.toInt ≤ s.f.toInt + 1 ∧ s.f.toInt ≤ 2 * s.x.toInt := by
  obtain ⟨hlow, hhigh⟩ := h.near hlt
  rw [h.f, errorTerm]
  dsimp only at hlow hhigh
  constructor <;> linarith

/-- A pass that goes a row further in. -/
theorem circleBody_inward {s : Circle} (hf : 0 ≤ s.f.toInt) :
    circleBody s =
      { f := s.f + (s.ddFy + 2) + (s.ddFx + 2), ddFx := s.ddFx + 2, ddFy := s.ddFy + 2,
        x := s.x + 1, y := s.y - 1, steps := s.steps ++ [(s.x + 1, s.y - 1)] } := by
  have htest : (0 : CInt).sle s.f = true := by
    rw [BitVec.sle_eq_decide, decide_eq_true_eq]
    exact hf
  rw [circleBody]
  simp only [htest, if_true]

/-- A pass that stays in its row. -/
theorem circleBody_along {s : Circle} (hf : s.f.toInt < 0) :
    circleBody s =
      { f := s.f + (s.ddFx + 2), ddFx := s.ddFx + 2, ddFy := s.ddFy,
        x := s.x + 1, y := s.y, steps := s.steps ++ [(s.x + 1, s.y)] } := by
  have htest : (0 : CInt).sle s.f = false := by
    rw [BitVec.sle_eq_decide, decide_eq_false_iff_not, not_le]
    exact hf
  rw [circleBody]
  simp only [htest, Bool.false_eq_true, if_false]

/-- The new step is added to those that are near. -/
theorem nearest_append {r : CInt} {steps : List (CInt × CInt)} {q : CInt × CInt}
    (h : ∀ p ∈ steps, p.1.toInt ≤ p.2.toInt → Nearest r p)
    (hq : q.1.toInt ≤ q.2.toInt → Nearest r q) :
    ∀ p ∈ steps ++ [q], p.1.toInt ≤ p.2.toInt → Nearest r p := by
  intro p hp
  rcases List.mem_append.1 hp with hp | hp
  · exact h p hp
  · obtain rfl := List.mem_singleton.1 hp
    exact hq

/-- One pass of the loop. -/
theorem Midpoint.circleBody {r : CInt} (hr : r.toInt < 2 ^ 29) {s : Circle} (h : Midpoint r s)
    (ht : circleTest s = true) : Midpoint r (circleBody s) := by
  have hsquare := h.square.circleBody ht
  have hx0 := h.square.x
  have hy0 := h.square.y
  rw [circleTest, BitVec.slt_eq_decide, decide_eq_true_eq] at ht
  have hfb := h.f_bounds ht
  obtain ⟨hlow, hhigh⟩ := h.near ht
  have hf := h.f
  rw [errorTerm] at hf
  dsimp only at hlow hhigh
  have hone : (1 : CInt).toInt = 1 := rfl
  have htwo : (2 : CInt).toInt = 2 := rfl
  have hx : (s.x + 1).toInt = s.x.toInt + 1 := by
    rw [toInt_add_small (by omega) (by omega), hone]
  have hfx := h.ddFx
  have hfy := h.ddFy
  have hdx : (s.ddFx + 2).toInt = 2 * (s.x + 1).toInt + 1 := by
    rw [toInt_add_small (by omega) (by omega), hfx, htwo, hx]
    ring
  by_cases hout : 0 ≤ s.f.toInt
  · -- the point of the row above would be outside
    rw [circleBody_inward hout] at hsquare ⊢
    have hy : (s.y - 1).toInt = s.y.toInt - 1 := by
      rw [toInt_sub_small (by omega) (by omega), hone]
    have hdy : (s.ddFy + 2).toInt = -2 * (s.y - 1).toInt := by
      rw [toInt_add_small (by omega) (by omega), hfy, htwo, hy]
      ring
    have hsum : (s.f + (s.ddFy + 2)).toInt = s.f.toInt - 2 * (s.y - 1).toInt := by
      rw [toInt_add_small (by omega) (by omega), hdy]
      ring
    have hnear : (s.x + 1).toInt ≤ (s.y - 1).toInt → Nearest r (s.x + 1, s.y - 1) := by
      intro hle
      rw [hx, hy] at hle
      rw [Nearest]
      dsimp only
      rw [hx, hy]
      constructor <;> nlinarith only [hlow, hhigh, hf, hout, hle]
    refine ⟨hsquare, hdx, hdy, ?_, fun hlt => hnear (le_of_lt hlt),
      nearest_append h.steps hnear⟩
    dsimp only [errorTerm]
    rw [toInt_add_small (by omega) (by omega), hsum, hdx, hf, hx, hy]
    ring
  · have hin : s.f.toInt < 0 := by omega
    rw [circleBody_along hin] at hsquare ⊢
    have hnear : (s.x + 1).toInt ≤ s.y.toInt → Nearest r (s.x + 1, s.y) := by
      intro hle
      rw [Nearest]
      dsimp only
      rw [hx]
      constructor <;> nlinarith only [hlow, hhigh, hf, hin, hx0.1]
    refine ⟨hsquare, hdx, hfy, ?_, fun hlt => hnear (le_of_lt hlt),
      nearest_append h.steps hnear⟩
    dsimp only [errorTerm]
    rw [toInt_add_small (by omega) (by omega), hdx, hf, hx]
    ring

/-- The state after any number of passes. -/
theorem circleAfter_midpoint {r : CInt} (hr : 0 ≤ r.toInt) (hr' : r.toInt < 2 ^ 29) (n : Nat) :
    Midpoint r (circleAfter r n) := by
  have hone : (1 : CInt).toInt = 1 := rfl
  have hzero : (0 : CInt).toInt = 0 := rfl
  refine Loop.passes_keep (Midpoint r) (fun s h ht => h.circleBody hr' ht) n _ ?_
  refine ⟨@circleAfter_inSquare r hr 0, rfl, ?_, ?_, fun hlt => ?_, by simp⟩
  · have htwo : (-2 : CInt).toInt = -2 := rfl
    change (-2 * r).toInt = -2 * r.toInt
    rw [toInt_mul_small (by rw [htwo]; omega) (by rw [htwo]; omega), htwo]
  · rw [errorTerm]
    dsimp only
    rw [toInt_sub_small (by omega) (by omega), hone, hzero]
    ring
  · rw [Nearest]
    dsimp only at hlt ⊢
    rw [hzero] at *
    constructor <;> nlinarith only [hlt]

/-- The loop ends within as many passes as the radius has pixels. -/
theorem circleAfter_end {r : CInt} (hr : 0 ≤ r.toInt) {n : Nat} (hn : r.toInt ≤ n) :
    circleTest (circleAfter r n) = false := by
  refine (Loop.passes_end (InSquare r) (fun s => (r.toInt - s.x.toInt).toNat) ?_ n _
    (@circleAfter_inSquare r hr 0) ?_).2
  · intro s h ht
    have hcoords := circleBody_coords h.x.1 ht
    have hnext := h.circleBody ht
    have hx := hnext.x
    exact ⟨hnext, by omega⟩
  · change (r.toInt - 0).toNat ≤ n
    omega

end Midpoint

section Spans

/-- The bits of a set of pixels. -/
def bitsOf (fb : Screen) (d : Depth) (C : Set (Int × Int)) : Set Int :=
  {k | ∃ p ∈ C, k ∈ pixelBits fb d p.1 p.2}

/-- The pixels of each row from the leftmost to the rightmost one of a set. -/
def rowHull (C : Set (Int × Int)) : Set (Int × Int) :=
  {p | ∃ a b, (a, p.2) ∈ C ∧ (b, p.2) ∈ C ∧ a ≤ p.1 ∧ p.1 ≤ b}

/-- The pixels of a circle. -/
def circlePixels (x0 y0 r : CInt) (n : Nat) : Set (Int × Int) :=
  {p | ∃ q ∈ circlePoints x0 y0 r n, p = (q.1.toInt, q.2.toInt)}

/-- The spans of a circle: half the width, and the row. -/
def spans (y0 r : CInt) (n : Nat) : List (CInt × CInt) :=
  [(0, y0 + r), (0, y0 - r), (r, y0)] ++
    (circleAfter r n).steps.flatMap fun p =>
      [(p.1, y0 + p.2), (p.1, y0 - p.2), (p.2, y0 + p.1), (p.2, y0 - p.1)]

/-- The circle is on the screen. -/
structure CircleOnScreen (fb : Screen) (x0 y0 r : CInt) : Prop where
  radius : 0 ≤ r.toInt
  left : r.toInt ≤ x0.toInt
  right : x0.toInt + r.toInt < fb.ml.hdisp
  top : r.toInt ≤ y0.toInt
  bottom : y0.toInt + r.toInt < fb.ml.vdisp

variable {x0 y0 r : CInt} {n : Nat}

theorem mem_circlePoints {q : CInt × CInt} :
    q ∈ circlePoints x0 y0 r n ↔
      ∃ s ∈ spans y0 r n, q.2 = s.2 ∧ (q.1 = x0 + s.1 ∨ q.1 = x0 - s.1) := by
  obtain ⟨x, y⟩ := q
  simp only [circlePoints, spans, List.mem_append, List.mem_flatMap, List.mem_cons,
    List.not_mem_nil, or_false, Prod.mk.injEq]
  constructor
  · rintro ((h | h | h | h) | ⟨p, hp, h⟩)
    · exact ⟨(0, y0 + r), .inl (.inl rfl), h.2, .inl (by simp [h.1])⟩
    · exact ⟨(0, y0 - r), .inl (.inr (.inl rfl)), h.2, .inl (by simp [h.1])⟩
    · exact ⟨(r, y0), .inl (.inr (.inr rfl)), h.2, .inl h.1⟩
    · exact ⟨(r, y0), .inl (.inr (.inr rfl)), h.2, .inr h.1⟩
    · rcases h with h | h | h | h | h | h | h | h
      · exact ⟨_, .inr ⟨p, hp, .inl rfl⟩, h.2, .inl h.1⟩
      · exact ⟨_, .inr ⟨p, hp, .inl rfl⟩, h.2, .inr h.1⟩
      · exact ⟨_, .inr ⟨p, hp, .inr (.inl rfl)⟩, h.2, .inl h.1⟩
      · exact ⟨_, .inr ⟨p, hp, .inr (.inl rfl)⟩, h.2, .inr h.1⟩
      · exact ⟨_, .inr ⟨p, hp, .inr (.inr (.inl rfl))⟩, h.2, .inl h.1⟩
      · exact ⟨_, .inr ⟨p, hp, .inr (.inr (.inl rfl))⟩, h.2, .inr h.1⟩
      · exact ⟨_, .inr ⟨p, hp, .inr (.inr (.inr rfl))⟩, h.2, .inl h.1⟩
      · exact ⟨_, .inr ⟨p, hp, .inr (.inr (.inr rfl))⟩, h.2, .inr h.1⟩
  · rintro ⟨s, (rfl | rfl | rfl) | ⟨p, hp, rfl | rfl | rfl | rfl⟩, hy, hx⟩
    · left
      simp_all
    · left
      simp_all
    · left
      simp only at hy hx
      rcases hx with rfl | rfl <;> simp [hy]
    all_goals
      right
      refine ⟨p, hp, ?_⟩
      simp only at hy hx
      rcases hx with rfl | rfl <;> simp [hy]

/-- A span is within the radius, and its row is on the screen. -/
theorem CircleOnScreen.span (h : CircleOnScreen fb x0 y0 r) {s : CInt × CInt}
    (hs : s ∈ spans y0 r n) : (0 ≤ s.1.toInt ∧ s.1.toInt ≤ r.toInt) ∧
      0 ≤ s.2.toInt ∧ s.2.toInt < fb.ml.vdisp := by
  have hzero : (0 : CInt).toInt = 0 := rfl
  have hr := h.radius
  have hver := fun {c : CInt} => @toInt_add_sub y0 r _ hr h.top h.bottom fb.ml.vdisp_le c
  have hrow : 0 ≤ y0.toInt ∧ y0.toInt < fb.ml.vdisp := by
    have htop := h.top
    have hbottom := h.bottom
    omega
  rcases List.mem_append.1 hs with hs | hs
  · simp only [List.mem_cons, List.not_mem_nil, or_false] at hs
    rcases hs with rfl | rfl | rfl
    · exact ⟨⟨le_refl _, hr⟩, (hver hr (le_refl _)).1⟩
    · exact ⟨⟨le_refl _, hr⟩, (hver hr (le_refl _)).2⟩
    · exact ⟨⟨hr, le_refl _⟩, hrow⟩
  · rcases List.mem_flatMap.1 hs with ⟨p, hp, hs⟩
    rcases (circleAfter_inSquare hr n).steps p hp with ⟨hx, hy⟩
    simp only [List.mem_cons, List.not_mem_nil, or_false] at hs
    rcases hs with rfl | rfl | rfl | rfl
    · exact ⟨hx, (hver hy.1 hy.2).1⟩
    · exact ⟨hx, (hver hy.1 hy.2).2⟩
    · exact ⟨hy, (hver hx.1 hx.2).1⟩
    · exact ⟨hy, (hver hx.1 hx.2).2⟩

/-- The ends of a span. -/
theorem CircleOnScreen.ends (h : CircleOnScreen fb x0 y0 r) {a : CInt} (ha : 0 ≤ a.toInt)
    (har : a.toInt ≤ r.toInt) :
    (x0 + a).toInt = x0.toInt + a.toInt ∧ (x0 - a).toInt = x0.toInt - a.toInt := by
  have hh := fb.ml.hdisp_le
  have hleft := h.left
  have hright := h.right
  exact ⟨toInt_add_small (by omega) (by omega), toInt_sub_small (by omega) (by omega)⟩

theorem CircleOnScreen.mem_circlePixels (h : CircleOnScreen fb x0 y0 r) {p : Int × Int} :
    p ∈ circlePixels x0 y0 r n ↔
      ∃ s ∈ spans y0 r n, p.2 = s.2.toInt ∧
        (p.1 = x0.toInt + s.1.toInt ∨ p.1 = x0.toInt - s.1.toInt) := by
  rw [circlePixels, Set.mem_ofPred_eq]
  constructor
  · rintro ⟨q, hq, rfl⟩
    obtain ⟨s, hs, hy, hx⟩ := mem_circlePoints.1 hq
    obtain ⟨⟨ha, har⟩, -⟩ := h.span hs
    obtain ⟨hadd, hsub⟩ := h.ends ha har
    refine ⟨s, hs, by rw [hy], ?_⟩
    rcases hx with hx | hx
    · exact .inl (by rw [hx, hadd])
    · exact .inr (by rw [hx, hsub])
  · rintro ⟨s, hs, hy, hx⟩
    obtain ⟨⟨ha, har⟩, -⟩ := h.span hs
    obtain ⟨hadd, hsub⟩ := h.ends ha har
    rcases hx with hx | hx
    · refine ⟨(x0 + s.1, s.2), mem_circlePoints.2 ⟨s, hs, rfl, .inl rfl⟩, ?_⟩
      rw [hadd, ← hx, ← hy]
    · refine ⟨(x0 - s.1, s.2), mem_circlePoints.2 ⟨s, hs, rfl, .inr rfl⟩, ?_⟩
      rw [hsub, ← hx, ← hy]

/-- From the leftmost to the rightmost pixel of a row is a span. -/
theorem CircleOnScreen.mem_rowHull (h : CircleOnScreen fb x0 y0 r) {p : Int × Int} :
    p ∈ rowHull (circlePixels x0 y0 r n) ↔
      ∃ s ∈ spans y0 r n, p.2 = s.2.toInt ∧ x0.toInt - s.1.toInt ≤ p.1 ∧
        p.1 ≤ x0.toInt + s.1.toInt := by
  rw [rowHull, Set.mem_ofPred_eq]
  constructor
  · rintro ⟨a, b, ha, hb, hap, hpb⟩
    obtain ⟨s, hs, hsy, hsx⟩ := h.mem_circlePixels.1 ha
    obtain ⟨t, ht, hty, htx⟩ := h.mem_circlePixels.1 hb
    have hs0 := (h.span hs).1
    have ht0 := (h.span ht).1
    dsimp only at hsy hsx hty htx
    -- the wider one of the two spans
    rcases le_total s.1.toInt t.1.toInt with hle | hle
    · exact ⟨t, ht, hty, by omega, by omega⟩
    · exact ⟨s, hs, hsy, by omega, by omega⟩
  · rintro ⟨s, hs, hy, hlow, hhigh⟩
    exact ⟨x0.toInt - s.1.toInt, x0.toInt + s.1.toInt,
      h.mem_circlePixels.2 ⟨s, hs, hy, .inr rfl⟩, h.mem_circlePixels.2 ⟨s, hs, hy, .inl rfl⟩,
      hlow, hhigh⟩

/-- The pixels of a circle are on the screen. -/
theorem CircleOnScreen.onScreen (h : CircleOnScreen fb x0 y0 r) {p : Int × Int}
    (hp : p ∈ rowHull (circlePixels x0 y0 r n)) : OnScreen fb p.1 p.2 := by
  obtain ⟨s, hs, hy, hlow, hhigh⟩ := h.mem_rowHull.1 hp
  obtain ⟨hx, hrow⟩ := h.span hs
  have hleft := h.left
  have hright := h.right
  rw [OnScreen]
  omega

end Spans

section Paint

variable {x0 y0 r : CInt}

/-- `fb_circle` paints its pixels. -/
theorem painted_fbCircle (hd : fb.depth = some d) (h : CircleOnScreen fb x0 y0 r) (n : Nat) :
    Painted fb (pattern d color) (fbCircle fb n x0 y0 r color)
      (bitsOf fb d (circlePixels x0 y0 r n)) := by
  have hbpp : fb.bpp ≠ 0 := by
    have hpos := d.bits_pos
    simp only [Screen.bpp, hd, Option.map_some, Option.getD_some]
    omega
  have hscreen := circlePoints_onScreen h.radius h.left h.right h.top h.bottom n
  have hplot : ∀ p ∈ circlePoints x0 y0 r n,
      circlePlot fb x0 y0 r p.1 p.2 color = fbPlot fb p.1 p.2 color := by
    intro p hp
    rw [circlePlot]
    split
    · rfl
    · rw [fbPlot, (offScreen_eq fb p.1 p.2).2 (hscreen p hp), if_neg Bool.false_ne_true]
  have hset : bitsOf fb d (circlePixels x0 y0 r n) =
      {k | ∃ p ∈ circlePoints x0 y0 r n, OnScreen fb p.1.toInt p.2.toInt ∧
        k ∈ pixelBits fb d p.1.toInt p.2.toInt} := by
    ext k
    simp only [bitsOf, circlePixels, Set.mem_ofPred_eq]
    constructor
    · rintro ⟨_, ⟨q, hq, rfl⟩, hk⟩
      exact ⟨q, hq, hscreen q hq, hk⟩
    · rintro ⟨q, hq, -, hk⟩
      exact ⟨_, ⟨q, hq, rfl⟩, hk⟩
  have hflat : (circlePoints x0 y0 r n).flatMap (fun p => circlePlot fb x0 y0 r p.1 p.2 color) =
      (circlePoints x0 y0 r n).flatMap fun p => fbPlot fb p.1 p.2 color :=
    List.flatMap_congr hplot
  rw [fbCircle_eq hbpp, hflat, hset]
  exact painted_pixels hd _

/-- The bits of a span. -/
def spanBits (fb : Screen) (d : Depth) (x0 : CInt) (s : CInt × CInt) : Set Int :=
  {k | ∃ x, x0.toInt - s.1.toInt ≤ x ∧ x ≤ x0.toInt + s.1.toInt ∧
    k ∈ pixelBits fb d x s.2.toInt}

/-- A span painted as a rectangle. -/
theorem painted_span (hd : fb.depth = some d) (halign : 8 ∣ fb.ml.hdisp * d.bits)
    (h : CircleOnScreen fb x0 y0 r) {n : Nat} {a y : CInt} (hs : (a, y) ∈ spans y0 r n) :
    Painted fb (pattern d color) (fbRectangle fb (x0 - a) y (x0 + a) y color)
      (spanBits fb d x0 (a, y)) := by
  obtain ⟨⟨ha, har⟩, hrow, hrow'⟩ := h.span hs
  dsimp only at ha har hrow hrow'
  obtain ⟨hadd, hsub⟩ := h.ends ha har
  have hleft := h.left
  have hright := h.right
  have hpaint := @painted_rectangle fb d color hd halign (x0 - a) y (x0 + a) y (by omega)
  have hset : rectangleBits fb d (x0 - a) y (x0 + a) y = spanBits fb d x0 (a, y) := by
    ext k
    simp only [rectangleBits, spanBits, Set.mem_ofPred_eq, OnScreen, hadd, hsub]
    constructor
    · rintro ⟨x, y', -, hx, hx', hy, hy', hk⟩
      have hrow : y' = y.toInt := by omega
      exact ⟨x, by omega, by omega, hrow ▸ hk⟩
    · rintro ⟨x, hx, hx', hk⟩
      exact ⟨x, y.toInt, by omega, by omega, by omega, by omega, by omega, hk⟩
  rw [hset] at hpaint
  exact hpaint

/-- A span of no width painted as a point. -/
theorem painted_pole (hd : fb.depth = some d) (h : CircleOnScreen fb x0 y0 r) {n : Nat} {y : CInt}
    (hs : (0, y) ∈ spans y0 r n) :
    Painted fb (pattern d color) (fbPlot fb x0 y color) (spanBits fb d x0 (0, y)) := by
  obtain ⟨-, hrow, hrow'⟩ := h.span hs
  have hr := h.radius
  have hleft := h.left
  have hright := h.right
  have hzero : (0 : CInt).toInt = 0 := rfl
  have hpaint := @painted_pixels fb d color hd [(x0, y)]
  rw [List.flatMap_singleton] at hpaint
  have hset : {k | ∃ p ∈ [(x0, y)], OnScreen fb p.1.toInt p.2.toInt ∧
      k ∈ pixelBits fb d p.1.toInt p.2.toInt} = spanBits fb d x0 (0, y) := by
    ext k
    simp only [spanBits, Set.mem_ofPred_eq, List.mem_singleton, hzero]
    constructor
    · rintro ⟨p, rfl, -, hk⟩
      exact ⟨x0.toInt, by omega, by omega, hk⟩
    · rintro ⟨x, hx, hx', hk⟩
      have hcentre : x = x0.toInt := by omega
      exact ⟨_, rfl, ⟨by dsimp only; omega, by dsimp only; omega, hrow, hrow'⟩, hcentre ▸ hk⟩
  rw [hset] at hpaint
  exact hpaint

/-- `fb_filledcircle` paints the spans of the circle. -/
theorem painted_fbFilledcircle (hd : fb.depth = some d) (halign : 8 ∣ fb.ml.hdisp * d.bits)
    (h : CircleOnScreen fb x0 y0 r) (n : Nat) :
    Painted fb (pattern d color) (fbFilledcircle fb n x0 y0 r color)
      (bitsOf fb d (rowHull (circlePixels x0 y0 r n))) := by
  have hspans : ∀ p ∈ (circleAfter r n).steps,
      ∀ s ∈ [(p.1, y0 + p.2), (p.1, y0 - p.2), (p.2, y0 + p.1), (p.2, y0 - p.1)],
        s ∈ spans y0 r n :=
    fun p hp s hs => List.mem_append_right _ (List.mem_flatMap.2 ⟨p, hp, hs⟩)
  have hstep : ∀ p ∈ (circleAfter r n).steps,
      Painted fb (pattern d color)
        (fbRectangle fb (x0 - p.1) (y0 + p.2) (x0 + p.1) (y0 + p.2) color ++
          fbRectangle fb (x0 - p.1) (y0 - p.2) (x0 + p.1) (y0 - p.2) color ++
          fbRectangle fb (x0 - p.2) (y0 + p.1) (x0 + p.2) (y0 + p.1) color ++
          fbRectangle fb (x0 - p.2) (y0 - p.1) (x0 + p.2) (y0 - p.1) color)
        (spanBits fb d x0 (p.1, y0 + p.2) ∪ spanBits fb d x0 (p.1, y0 - p.2) ∪
          spanBits fb d x0 (p.2, y0 + p.1) ∪ spanBits fb d x0 (p.2, y0 - p.1)) := by
    intro p hp
    have hin := hspans p hp
    have h₁ := @painted_span fb d color x0 y0 r hd halign h n p.1 (y0 + p.2) (hin _ (by simp))
    have h₂ := @painted_span fb d color x0 y0 r hd halign h n p.1 (y0 - p.2) (hin _ (by simp))
    have h₃ := @painted_span fb d color x0 y0 r hd halign h n p.2 (y0 + p.1) (hin _ (by simp))
    have h₄ := @painted_span fb d color x0 y0 r hd halign h n p.2 (y0 - p.1) (hin _ (by simp))
    exact ((h₁.append h₂).append h₃).append h₄
  have htop := @painted_pole fb d color x0 y0 r hd h n (y0 + r) (by simp [spans])
  have hbottom := @painted_pole fb d color x0 y0 r hd h n (y0 - r) (by simp [spans])
  have hcentre := @painted_span fb d color x0 y0 r hd halign h n r y0 (by simp [spans])
  have hall := ((htop.append hbottom).append hcentre).append (Painted.flatMap hstep)
  have hset : bitsOf fb d (rowHull (circlePixels x0 y0 r n)) =
      {k | ∃ s ∈ spans y0 r n, k ∈ spanBits fb d x0 s} := by
    ext k
    simp only [bitsOf, Set.mem_ofPred_eq, spanBits]
    constructor
    · rintro ⟨p, hp, hk⟩
      obtain ⟨s, hs, hy, hlow, hhigh⟩ := h.mem_rowHull.1 hp
      exact ⟨s, hs, p.1, hlow, hhigh, hy ▸ hk⟩
    · rintro ⟨s, hs, x, hlow, hhigh, hk⟩
      exact ⟨(x, s.2.toInt), h.mem_rowHull.2 ⟨s, hs, rfl, hlow, hhigh⟩, hk⟩
  have hunion : {k | ∃ s ∈ spans y0 r n, k ∈ spanBits fb d x0 s} =
      spanBits fb d x0 (0, y0 + r) ∪ spanBits fb d x0 (0, y0 - r) ∪ spanBits fb d x0 (r, y0) ∪
        {k | ∃ p ∈ (circleAfter r n).steps, k ∈ spanBits fb d x0 (p.1, y0 + p.2) ∪
          spanBits fb d x0 (p.1, y0 - p.2) ∪ spanBits fb d x0 (p.2, y0 + p.1) ∪
          spanBits fb d x0 (p.2, y0 - p.1)} := by
    ext k
    simp only [spans, Set.mem_ofPred_eq, Set.mem_union, List.mem_append, List.mem_flatMap,
      List.mem_cons, List.not_mem_nil, or_false]
    constructor
    · rintro ⟨s, (rfl | rfl | rfl) | ⟨p, hp, rfl | rfl | rfl | rfl⟩, hk⟩
      · exact .inl (.inl (.inl hk))
      · exact .inl (.inl (.inr hk))
      · exact .inl (.inr hk)
      · exact .inr ⟨p, hp, .inl (.inl (.inl hk))⟩
      · exact .inr ⟨p, hp, .inl (.inl (.inr hk))⟩
      · exact .inr ⟨p, hp, .inl (.inr hk)⟩
      · exact .inr ⟨p, hp, .inr hk⟩
    · rintro (((hk | hk) | hk) | ⟨p, hp, ((hk | hk) | hk) | hk⟩)
      · exact ⟨_, .inl (.inl rfl), hk⟩
      · exact ⟨_, .inl (.inr (.inl rfl)), hk⟩
      · exact ⟨_, .inl (.inr (.inr rfl)), hk⟩
      · exact ⟨_, .inr ⟨p, hp, .inl rfl⟩, hk⟩
      · exact ⟨_, .inr ⟨p, hp, .inr (.inl rfl)⟩, hk⟩
      · exact ⟨_, .inr ⟨p, hp, .inr (.inr (.inl rfl))⟩, hk⟩
      · exact ⟨_, .inr ⟨p, hp, .inr (.inr (.inr rfl))⟩, hk⟩
  rw [fbFilledcircle, hset, hunion]
  exact hall

/-- `fb_circle` paints its pixels, and `fb_filledcircle` those of each row from the leftmost to
the rightmost one of them. -/
def FillsCircle (fb : Screen) (d : Depth) (n : Nat) (x0 y0 r color : CInt) : Prop :=
  Painted fb (pattern d color) (fbCircle fb n x0 y0 r color)
      (bitsOf fb d (circlePixels x0 y0 r n)) ∧
    Painted fb (pattern d color) (fbFilledcircle fb n x0 y0 r color)
      (bitsOf fb d (rowHull (circlePixels x0 y0 r n)))

/--
The loop of the circles: the error term, the points, its end, and what the two functions paint
on a screen whose rows are whole bytes.
-/
theorem circle_fill
    {r : CInt} (hr : 0 ≤ r.toInt) (hsquare : r.toInt * r.toInt < 2 ^ 31) (n : Nat) :
    ((circleAfter r n).f.toInt = errorTerm r (circleAfter r n) ∧ InSquare r (circleAfter r n)) ∧
      (∀ p ∈ (0, r) :: (circleAfter r n).steps,
        ((0 ≤ p.1.toInt ∧ p.1.toInt ≤ r.toInt) ∧ 0 ≤ p.2.toInt ∧ p.2.toInt ≤ r.toInt) ∧
          (0 < r.toInt → p.1.toInt ≤ p.2.toInt → Nearest r p)) ∧
      (r.toInt ≤ n → circleTest (circleAfter r n) = false) ∧
      ∀ (fb : Screen) (d : Depth), fb.depth = some d → 8 ∣ fb.ml.hdisp * d.bits →
        ∀ x0 y0 : CInt, CircleOnScreen fb x0 y0 r → ∀ color, FillsCircle fb d n x0 y0 r color := by
  have hzero : (0 : CInt).toInt = 0 := rfl
  have hsmall : r.toInt < 2 ^ 29 := by
    by_contra hlarge
    have hmul : 2 ^ 29 * 2 ^ 29 ≤ r.toInt * r.toInt :=
      mul_le_mul (by omega) (by omega) (by omega) hr
    omega
  have hmid := circleAfter_midpoint hr hsmall n
  refine ⟨⟨hmid.f, hmid.square⟩, fun p hp => ?_, circleAfter_end hr,
    fun fb d hd halign x0 y0 hon color =>
      ⟨painted_fbCircle hd hon n, painted_fbFilledcircle hd halign hon n⟩⟩
  rcases List.mem_cons.1 hp with rfl | hp
  · refine ⟨⟨⟨le_refl _, hr⟩, hr, le_refl _⟩, fun hpos _ => ?_⟩
    rw [Nearest]
    dsimp only
    rw [hzero]
    constructor <;> nlinarith only [hpos]
  · exact ⟨hmid.square.steps p hp, fun _ => hmid.steps p hp⟩

/-- A circle of radius two on a screen of 16 by 8 pixels of one bit. -/
theorem circle_fill_small :
    FillsCircle ⟨⟨16, 8, by omega, by omega⟩, some .bpp1, .bpp1, by simp⟩ .bpp1 2 4 4 2 1 :=
  (circle_fill (r := 2) (by decide) (by decide) 2).2.2.2 _ .bpp1 rfl (by decide) 4 4
    ⟨by decide, by decide, by decide, by decide, by decide⟩ 1

/-- A circle without a radius is a point at the distance of its root, and rows that do not begin
with a byte are filled beside the circle. -/
theorem circle_fill_exceptions :
    ¬Nearest 0 (0, 0) ∧ CircleOnScreen halfByteScreen 4 4 4 ∧
      ¬FillsCircle halfByteScreen .bpp1 4 4 4 4 1 := by
  have hon : CircleOnScreen halfByteScreen 4 4 4 :=
    ⟨by decide, by decide, by decide, by decide, by decide⟩
  refine ⟨by simp [Nearest], hon, fun h => ?_⟩
  have hbeside : ((4 + 4 : Int) - 0, (2 : Int)) ∉ rowHull (circlePixels 4 4 4 4) := by
    rw [hon.mem_rowHull]
    decide
  have hbit : (32 : Int) ∉ bitsOf halfByteScreen .bpp1 (rowHull (circlePixels 4 4 4 4)) := by
    rintro ⟨⟨x, y⟩, hp, hk⟩
    have hxy := hon.onScreen hp
    simp only [pixelBits, Set.mem_Ico, OnScreen, halfByteScreen, Depth.bits] at hk hxy
    have hx : x = 8 := by omega
    have hy : y = 2 := by omega
    rw [hx, hy] at hp
    exact hbeside hp
  have hkeep := (h.2 (fun _ => 0) 32).2 hbit
  revert hkeep
  decide +kernel

end Paint

end Fb
end F32c
