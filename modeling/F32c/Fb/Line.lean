import F32c.Fb.Screen
import Mathlib.Data.BitVec
import Mathlib.Tactic

/-!
# Lines

`fb_line` walks from one end point to the other with an error term.  A line
whose longer side has `N` steps is described here by a closed form: after `k`
steps each coordinate has advanced by `k / N` of its way, rounded to the nearest
pixel.  The error term decides each step exactly as the closed form does, and
the properties of the line are properties of the closed form.
-/

namespace F32c
namespace Fb

section Advance

variable {a b k N : Nat}

/-- `k / N` of the way `a`, rounded to the nearest with halves up. -/
def advance (a N k : Nat) : Nat := (2 * a * k + N) / (2 * N)

theorem le_advance_iff (hN : 0 < N) : b ≤ advance a N k ↔ 2 * N * b ≤ 2 * a * k + N := by
  rw [advance, Nat.le_div_iff_mul_le (by omega), Nat.mul_comm]

theorem advance_zero : advance a N 0 = 0 := by
  rw [advance, Nat.mul_zero, Nat.zero_add]
  rcases Nat.eq_zero_or_pos N with rfl | hN
  · rfl
  · exact Nat.div_eq_of_lt (by omega)

/-- The longer side advances with every step. -/
theorem advance_self (hN : 0 < N) : advance N N k = k := by
  have hsplit : 2 * N * k + N = N + 2 * N * k := by omega
  rw [advance, hsplit, Nat.add_mul_div_left _ _ (by omega), Nat.div_eq_of_lt (by omega),
    Nat.zero_add]

theorem advance_end (hN : 0 < N) : advance a N N = a := by
  have hsplit : 2 * a * N + N = N + 2 * N * a := by ring
  rw [advance, hsplit, Nat.add_mul_div_left _ _ (by omega), Nat.div_eq_of_lt (by omega),
    Nat.zero_add]

theorem advance_le (hk : k ≤ N) : advance a N k ≤ a := by
  rcases Nat.eq_zero_or_pos N with rfl | hN
  · simp [advance]
  · have hle : advance a N k ≤ advance a N N := by
      apply Nat.div_le_div_right
      have := Nat.mul_le_mul_left (2 * a) hk
      omega
    rwa [advance_end hN] at hle

/-- A step advances a coordinate by one or not at all. -/
theorem advance_succ (hN : 0 < N) (ha : a ≤ N) :
    advance a N k ≤ advance a N (k + 1) ∧ advance a N (k + 1) ≤ advance a N k + 1 := by
  constructor
  · apply Nat.div_le_div_right
    have := Nat.mul_le_mul_left (2 * a) (Nat.le_add_right k 1)
    omega
  · have hnot : ¬advance a N k + 2 ≤ advance a N (k + 1) := by
      rw [le_advance_iff hN]
      have hlow : ¬advance a N k + 1 ≤ advance a N k := by omega
      rw [le_advance_iff hN] at hlow
      have hone : 2 * a * (k + 1) = 2 * a * k + 2 * a := by ring
      have htwo : 2 * N * (advance a N k + 2) = 2 * N * (advance a N k + 1) + 2 * N := by ring
      omega
    omega

theorem advance_succ_iff (hN : 0 < N) (ha : a ≤ N) :
    advance a N (k + 1) = advance a N k + 1 ↔
      2 * N * (advance a N k + 1) ≤ 2 * a * (k + 1) + N := by
  have hstep := @advance_succ a k N hN ha
  rw [← le_advance_iff hN]
  omega

/-- The rounding error is at most one half. -/
theorem advance_near (hN : 0 < N) :
    2 * a * k ≤ 2 * N * advance a N k + N ∧ 2 * N * advance a N k ≤ 2 * a * k + N := by
  have hhigh : advance a N k ≤ advance a N k := le_refl _
  have hlow : ¬advance a N k + 1 ≤ advance a N k := by omega
  rw [le_advance_iff hN] at hhigh hlow
  have : 2 * N * (advance a N k + 1) = 2 * N * advance a N k + 2 * N := by ring
  omega

end Advance

section Steps

variable {D d k : Nat}

/-- The error term after `k` steps. -/
def lineErr (D d k : Nat) : Int :=
  D * (advance d (max D d) k + 1) - d * (advance D (max D d) k + 1)

/-- The error term asks for a step of `x` exactly when the closed form makes one. -/
theorem lineErr_x (hN : 0 < max D d) :
    -(d : Int) ≤ 2 * lineErr D d k ↔
      advance D (max D d) (k + 1) = advance D (max D d) k + 1 := by
  rcases Nat.le_total d D with h | h
  · rw [lineErr, max_eq_left h] at *
    have hlow : ¬advance d D k + 1 ≤ advance d D k := by omega
    rw [le_advance_iff hN] at hlow
    rw [advance_self hN, advance_self hN]
    simp only [iff_true]
    zify at hlow h
    linarith
  · rw [lineErr, advance_succ_iff hN (Nat.le_max_left ..), max_eq_right h] at *
    rw [advance_self hN]
    zify
    constructor <;> intro hle <;> linarith

/-- The error term asks for a step of `y` exactly when the closed form makes one. -/
theorem lineErr_y (hN : 0 < max D d) :
    2 * lineErr D d k ≤ (D : Int) ↔
      advance d (max D d) (k + 1) = advance d (max D d) k + 1 := by
  rcases Nat.le_total d D with h | h
  · rw [lineErr, advance_succ_iff hN (Nat.le_max_right ..), max_eq_left h] at *
    rw [advance_self hN]
    zify
    constructor <;> intro hle <;> linarith
  · rw [lineErr, max_eq_right h] at *
    have hlow : ¬advance D d k + 1 ≤ advance D d k := by omega
    rw [le_advance_iff hN] at hlow
    rw [advance_self hN, advance_self hN]
    simp only [iff_true]
    zify at hlow h
    linarith

/-- The error term stays within one and a half times the longer side. -/
theorem lineErr_bounds (hN : 0 < max D d) :
    -(3 * (max D d : Int)) ≤ 2 * lineErr D d k ∧ 2 * lineErr D d k ≤ 3 * (max D d : Int) := by
  rcases Nat.le_total d D with h | h
  · have hnear := @advance_near d k D (by simpa [max_eq_left h] using hN)
    rw [lineErr, max_eq_left h] at *
    rw [advance_self hN, max_eq_left (by exact_mod_cast h : (d : Int) ≤ D)]
    zify at hnear h
    constructor <;> linarith
  · have hnear := @advance_near D k d (by simpa [max_eq_right h] using hN)
    rw [lineErr, max_eq_right h] at *
    rw [advance_self hN, max_eq_right (by exact_mod_cast h : (D : Int) ≤ d)]
    zify at hnear h
    constructor <;> linarith

/-- How the error term follows the steps. -/
theorem lineErr_succ (hN : 0 < max D d) :
    lineErr D d (k + 1) =
      (if -(d : Int) ≤ 2 * lineErr D d k then -(d : Int) else 0) +
        (if 2 * lineErr D d k ≤ (D : Int) then (D : Int) else 0) + lineErr D d k := by
  have hx := @advance_succ D k (max D d) hN (Nat.le_max_left ..)
  have hy := @advance_succ d k (max D d) hN (Nat.le_max_right ..)
  have hxiff := @lineErr_x D d k hN
  have hyiff := @lineErr_y D d k hN
  have hxv : advance D (max D d) (k + 1) =
      advance D (max D d) k + if -(d : Int) ≤ 2 * lineErr D d k then 1 else 0 := by
    split <;> omega
  have hyv : advance d (max D d) (k + 1) =
      advance d (max D d) k + if 2 * lineErr D d k ≤ (D : Int) then 1 else 0 := by
    split <;> omega
  have hdef : lineErr D d (k + 1) = D * (advance d (max D d) (k + 1) + 1) -
      d * (advance D (max D d) (k + 1) + 1) := rfl
  have hdef' : lineErr D d k = D * (advance d (max D d) k + 1) -
      d * (advance D (max D d) k + 1) := rfl
  rw [hdef, hxv, hyv]
  split <;> split <;> push_cast <;> linarith

end Steps
section Machine

/-- The distance of two coordinates, and the direction from one to the other. -/
def dist (u v : CInt) : Nat := (v.toInt - u.toInt).natAbs

def dir (u v : CInt) : Int := if u.toInt < v.toInt then 1 else -1

theorem dist_eq_abs (u v : CInt) : (dist u v : Int) = |v.toInt - u.toInt| :=
  Int.natCast_natAbs _

theorem dir_mul_dist (u v : CInt) : u.toInt + dir u v * dist u v = v.toInt := by
  rw [dir, dist]
  split <;> omega

theorem cAbs_sub {u v : CInt} (h : dist u v < 2 ^ 29) :
    cAbs (v - u) = BitVec.ofInt 32 (dist u v) := by
  have hsub : (v - u).toInt = v.toInt - u.toInt := by
    rw [BitVec.toInt_sub]
    rw [dist] at h
    exact Int.bmod_eq_of_le (by omega) (by omega)
  have hofInt : v - u = BitVec.ofInt 32 (v.toInt - u.toInt) := by
    rw [← hsub, BitVec.ofInt_toInt]
  rw [cAbs, BitVec.slt_eq_decide, hsub, hofInt, dist]
  simp only [BitVec.ofNat_eq_ofNat, BitVec.toInt_zero, decide_eq_true_eq]
  split
  · rw [← BitVec.ofInt_neg]
    congr 1
    omega
  · congr 1
    omega

theorem dir_eq (u v : CInt) :
    (if u.slt v then (1 : CInt) else -1) = BitVec.ofInt 32 (dir u v) := by
  rw [BitVec.slt_eq_decide, dir]
  by_cases h : u.toInt < v.toInt <;> simp [h]

end Machine

section Run

variable (x0 y0 x1 y1 : CInt)

/-- The number of steps of a line. -/
def lineSteps : Nat := max (dist x0 x1) (dist y0 y1)

/-- A coordinate that goes from `u` to `v` in `N` steps, after `k` of them. -/
def coord (u v : CInt) (N k : Nat) : Int := u.toInt + dir u v * advance (dist u v) N k

def linePoint (k : Nat) : CInt × CInt :=
  (BitVec.ofInt 32 (coord x0 x1 (lineSteps x0 y0 x1 y1) k),
    BitVec.ofInt 32 (coord y0 y1 (lineSteps x0 y0 x1 y1) k))

/-- The variables of `fb_line` after `k` steps. -/
def lineState (k : Nat) : Line :=
  { x0 := (linePoint x0 y0 x1 y1 k).1
    y0 := (linePoint x0 y0 x1 y1 k).2
    err := BitVec.ofInt 32 (lineErr (dist x0 x1) (dist y0 y1) k)
    points := (List.range (k + 1)).map (linePoint x0 y0 x1 y1) }

theorem coord_succ {u v : CInt} {N k : Nat} (hN : 0 < N) (hle : dist u v ≤ N)
    {p : Prop} [Decidable p]
    (hp : p ↔ advance (dist u v) N (k + 1) = advance (dist u v) N k + 1) :
    coord u v N (k + 1) = coord u v N k + if p then dir u v else 0 := by
  have hstep := @advance_succ (dist u v) k N hN hle
  rw [coord, coord]
  split
  · next h =>
    rw [hp.1 h]
    push_cast
    ring
  · next h =>
    have hsame : advance (dist u v) N (k + 1) = advance (dist u v) N k := by
      rw [hp] at h
      omega
    rw [hsame, add_zero]

section Bounded

variable {x0 y0 x1 y1}
variable (hx : dist x0 x1 < 2 ^ 29) (hy : dist y0 y1 < 2 ^ 29)

include hx hy in
theorem lineSteps_lt : lineSteps x0 y0 x1 y1 < 2 ^ 29 := max_lt hx hy

include hx hy in
/-- One pass of the loop is one step of the closed form. -/
theorem lineBody_lineState {k : Nat} (hk : k < lineSteps x0 y0 x1 y1) :
    lineBody (BitVec.ofInt 32 (dist x0 x1)) (BitVec.ofInt 32 (-(dist y0 y1 : Int)))
        (BitVec.ofInt 32 (dir x0 x1)) (BitVec.ofInt 32 (dir y0 y1)) (lineState x0 y0 x1 y1 k) =
      lineState x0 y0 x1 y1 (k + 1) := by
  have hN : 0 < max (dist x0 x1) (dist y0 y1) := Nat.zero_lt_of_lt hk
  have hk' : 0 < lineSteps x0 y0 x1 y1 := Nat.zero_lt_of_lt hk
  have hmax := @lineSteps_lt x0 y0 x1 y1 hx hy
  rw [lineSteps] at hmax
  have hbounds := @lineErr_bounds (dist x0 x1) (dist y0 y1) k hN
  obtain ⟨e, he⟩ : ∃ e, lineErr (dist x0 x1) (dist y0 y1) k = e := ⟨_, rfl⟩
  have he2 : (2 * BitVec.ofInt 32 e : CInt).toInt = 2 * e := by
    have hmul : (2 * BitVec.ofInt 32 e : CInt) = BitVec.ofInt 32 (2 * e) := by
      rw [BitVec.ofInt_mul]
      rfl
    rw [hmul]
    exact toInt_ofInt_small (by omega) (by omega)
  have hxstep : (BitVec.ofInt 32 (-(dist y0 y1 : Int))).sle (2 * BitVec.ofInt 32 e : CInt) =
      decide (-(dist y0 y1 : Int) ≤ 2 * e) := by
    rw [BitVec.sle_eq_decide, he2, toInt_ofInt_small (by omega) (by omega)]
  have hystep : (2 * BitVec.ofInt 32 e : CInt).sle (BitVec.ofInt 32 (dist x0 x1)) =
      decide (2 * e ≤ (dist x0 x1 : Int)) := by
    rw [BitVec.sle_eq_decide, he2, toInt_ofInt_small (by omega) (by omega)]
  have hpoint : linePoint x0 y0 x1 y1 (k + 1) =
      (if -(dist y0 y1 : Int) ≤ 2 * e then
          (linePoint x0 y0 x1 y1 k).1 + BitVec.ofInt 32 (dir x0 x1)
        else (linePoint x0 y0 x1 y1 k).1,
       if 2 * e ≤ (dist x0 x1 : Int) then
          (linePoint x0 y0 x1 y1 k).2 + BitVec.ofInt 32 (dir y0 y1)
        else (linePoint x0 y0 x1 y1 k).2) := by
    rw [linePoint, coord_succ hk' (Nat.le_max_left ..) (lineErr_x hN),
      coord_succ hk' (Nat.le_max_right ..) (lineErr_y hN), he, linePoint]
    split <;> split <;> simp [BitVec.ofInt_add]
  have herr : BitVec.ofInt 32 (lineErr (dist x0 x1) (dist y0 y1) (k + 1)) =
      (if 2 * e ≤ (dist x0 x1 : Int) then
        (if -(dist y0 y1 : Int) ≤ 2 * e then
          BitVec.ofInt 32 e + BitVec.ofInt 32 (-(dist y0 y1 : Int)) else BitVec.ofInt 32 e) +
          BitVec.ofInt 32 (dist x0 x1)
      else if -(dist y0 y1 : Int) ≤ 2 * e then
          BitVec.ofInt 32 e + BitVec.ofInt 32 (-(dist y0 y1 : Int)) else BitVec.ofInt 32 e) := by
    rw [lineErr_succ hN, he]
    rw [BitVec.ofInt_add, BitVec.ofInt_add]
    split <;> split <;> simp [add_comm, add_left_comm]
  have hpoints : (List.range (k + 1 + 1)).map (linePoint x0 y0 x1 y1) =
      (List.range (k + 1)).map (linePoint x0 y0 x1 y1) ++ [linePoint x0 y0 x1 y1 (k + 1)] := by
    rw [List.range_succ, List.map_append, List.map_singleton]
  rw [lineState, lineState, lineBody, hpoints, herr, hpoint]
  simp only [he, hxstep, hystep, decide_eq_true_eq]

theorem coord_end (u v : CInt) {N : Nat} (hN : 0 < N) : coord u v N N = v.toInt := by
  rw [coord, advance_end hN, dir_mul_dist]

theorem coord_zero (u v : CInt) (N : Nat) : coord u v N 0 = u.toInt := by
  rw [coord, advance_zero, Nat.cast_zero, mul_zero, add_zero]

/-- A coordinate stays between its two ends. -/
theorem coord_between (u v : CInt) {N k : Nat} (hk : k ≤ N) :
    min u.toInt v.toInt ≤ coord u v N k ∧ coord u v N k ≤ max u.toInt v.toInt := by
  have hle := @advance_le (dist u v) k N hk
  have hend := dir_mul_dist u v
  rw [coord]
  rw [dir] at *
  split <;> rename_i h <;> simp only [h, if_true, if_false] at hend <;> omega

theorem coord_toInt (u v : CInt) {N k : Nat} (hk : k ≤ N) :
    (BitVec.ofInt 32 (coord u v N k)).toInt = coord u v N k := by
  have hbetween := coord_between u v hk
  have hu := cInt_bounds u
  have hv := cInt_bounds v
  exact toInt_ofInt_small (by omega) (by omega)

/-- The longer side reaches its end with the last step only. -/
theorem coord_before_end {u v : CInt} {k : Nat} (hk : k < dist u v) :
    coord u v (dist u v) k ≠ v.toInt := by
  have hend := dir_mul_dist u v
  rw [coord, advance_self (by omega)]
  rw [dir] at *
  split <;> rename_i h <;> simp only [h, if_true, if_false] at hend <;> omega

theorem linePoint_end : linePoint x0 y0 x1 y1 (lineSteps x0 y0 x1 y1) = (x1, y1) := by
  rcases Nat.eq_zero_or_pos (lineSteps x0 y0 x1 y1) with hz | hN
  · have hdist : dist x0 x1 = 0 ∧ dist y0 y1 = 0 := by
      rw [lineSteps] at hz
      omega
    rw [dist, dist] at hdist
    have hx : x0.toInt = x1.toInt := by omega
    have hy : y0.toInt = y1.toInt := by omega
    rw [hz, linePoint, coord_zero, coord_zero, hx, hy, BitVec.ofInt_toInt, BitVec.ofInt_toInt]
  · rw [linePoint, coord_end _ _ hN, coord_end _ _ hN, BitVec.ofInt_toInt, BitVec.ofInt_toInt]

/-- The loop goes on as long as the longer side has steps left. -/
theorem lineTest_lineState {k : Nat} (hk : k ≤ lineSteps x0 y0 x1 y1) :
    lineTest x1 y1 (lineState x0 y0 x1 y1 k) = decide (k < lineSteps x0 y0 x1 y1) := by
  rcases Nat.lt_or_eq_of_le hk with hlt | rfl
  · rw [decide_eq_true hlt, lineTest]
    simp only [lineState, linePoint, Bool.not_eq_true', Bool.and_eq_false_iff, beq_eq_false_iff_ne]
    have hne : ∀ {u v : CInt}, lineSteps x0 y0 x1 y1 = dist u v →
        BitVec.ofInt 32 (coord u v (lineSteps x0 y0 x1 y1) k) ≠ v := by
      intro u v hside heq
      have htoInt := coord_toInt u v hk
      rw [heq, hside] at htoInt
      exact coord_before_end (hside ▸ hlt) htoInt.symm
    rcases Nat.le_total (dist y0 y1) (dist x0 x1) with h | h
    · exact Or.inl (hne (max_eq_left h))
    · exact Or.inr (hne (max_eq_right h))
  · rw [decide_eq_false (by omega), lineTest]
    simp [lineState, linePoint_end]

include hx hy in
theorem passes_lineState (n k : Nat) (hk : k ≤ lineSteps x0 y0 x1 y1) :
    Loop.passes (lineTest x1 y1)
        (lineBody (BitVec.ofInt 32 (dist x0 x1)) (BitVec.ofInt 32 (-(dist y0 y1 : Int)))
          (BitVec.ofInt 32 (dir x0 x1)) (BitVec.ofInt 32 (dir y0 y1))) n
        (lineState x0 y0 x1 y1 k) =
      lineState x0 y0 x1 y1 (min (k + n) (lineSteps x0 y0 x1 y1)) := by
  induction n generalizing k with
  | zero => rw [Nat.add_zero, min_eq_left hk, Loop.passes]
  | succ n ih =>
      rw [Loop.passes, lineTest_lineState hk]
      rcases Nat.lt_or_eq_of_le hk with hlt | rfl
      · rw [if_pos (decide_eq_true hlt), lineBody_lineState hx hy hlt, ih (k + 1) hlt]
        congr 2
        omega
      · rw [if_neg (by simp)]
        congr 1
        omega

include hx hy in
/-- The variables of `fb_line` after any number of passes. -/
theorem lineAfter_eq (n : Nat) :
    lineAfter x0 y0 x1 y1 n = lineState x0 y0 x1 y1 (min n (lineSteps x0 y0 x1 y1)) := by
  have hinit : (⟨x0, y0, BitVec.ofInt 32 (dist x0 x1) + BitVec.ofInt 32 (-(dist y0 y1 : Int)),
      [(x0, y0)]⟩ : Line) = lineState x0 y0 x1 y1 0 := by
    have hpoint : linePoint x0 y0 x1 y1 0 = (x0, y0) := by
      simp [linePoint, coord_zero]
    have herr : lineErr (dist x0 x1) (dist y0 y1) 0 = dist x0 x1 + -(dist y0 y1 : Int) := by
      rw [lineErr, advance_zero, advance_zero]
      ring
    rw [lineState, hpoint, herr, BitVec.ofInt_add]
    simp [hpoint]
  rw [lineAfter]
  simp only [cAbs_sub hx, cAbs_sub hy, dir_eq, ← BitVec.ofInt_neg]
  rw [hinit, passes_lineState hx hy n 0 (by omega), Nat.zero_add]

end Bounded

end Run

section Properties

/-- The distance of a point from the ideal line along the shorter side is at most half a pixel. -/
def NearLine (x0 y0 x1 y1 x y : Int) : Prop :=
  if |y1 - y0| ≤ |x1 - x0| then
    |(y : ℚ) - (y0 + (x - x0) * (y1 - y0) / (x1 - x0))| ≤ 1 / 2
  else
    |(x : ℚ) - (x0 + (y - y0) * (x1 - x0) / (y1 - y0))| ≤ 1 / 2

theorem dir_cases (u v : CInt) : dir u v = 1 ∨ dir u v = -1 := by
  rw [dir]
  split <;> simp

/-- The coordinate of the shorter side follows the ideal line through the longer one. -/
theorem coord_near {u u' v v' : CInt} {k : Nat} (hN : 0 < dist u u') :
    |(coord v v' (dist u u') k : ℚ) -
      (v.toInt + (coord u u' (dist u u') k - u.toInt) * (v'.toInt - v.toInt) /
        (u'.toInt - u.toInt))| ≤ 1 / 2 := by
  have hnear := @advance_near (dist v v') k (dist u u') hN
  obtain ⟨j, hj⟩ : ∃ j, advance (dist v v') (dist u u') k = j := ⟨_, rfl⟩
  have hu : (u'.toInt : ℚ) - u.toInt = dir u u' * dist u u' := by
    rw [← dir_mul_dist u u']
    push_cast
    ring
  have hv : (v'.toInt : ℚ) - v.toInt = dir v v' * dist v v' := by
    rw [← dir_mul_dist v v']
    push_cast
    ring
  have hmajor : ((coord u u' (dist u u') k : ℚ) - u.toInt) = dir u u' * k := by
    rw [coord, advance_self hN]
    push_cast
    ring
  have hNq : (0 : ℚ) < dist u u' := by exact_mod_cast hN
  have hdir : (dir u u' : ℚ) ≠ 0 := by
    rcases dir_cases u u' with h | h <;> simp [h]
  have hquot : (dir u u' * k : ℚ) * (dir v v' * dist v v') / (dir u u' * dist u u') =
      dir v v' * (k * dist v v' / dist u u') := by
    field_simp
  have hratio : |(j : ℚ) - k * dist v v' / dist u u'| ≤ 1 / 2 := by
    rw [hj] at hnear
    have h1 : 2 * (dist v v' : ℚ) * k ≤ 2 * dist u u' * j + dist u u' := by exact_mod_cast hnear.1
    have h2 : 2 * (dist u u' : ℚ) * j ≤ 2 * dist v v' * k + dist u u' := by exact_mod_cast hnear.2
    rw [abs_le]
    constructor
    · rw [← sub_nonneg]
      have : (j : ℚ) - k * dist v v' / dist u u' - -(1 / 2) =
          (2 * dist u u' * j + dist u u' - 2 * dist v v' * k) / (2 * dist u u') := by
        field_simp
        ring
      rw [this]
      exact div_nonneg (by linarith) (by linarith)
    · rw [← sub_nonneg]
      have : 1 / 2 - ((j : ℚ) - k * dist v v' / dist u u') =
          (2 * dist v v' * k + dist u u' - 2 * dist u u' * j) / (2 * dist u u') := by
        field_simp
        ring
      rw [this]
      exact div_nonneg (by linarith) (by linarith)
  have hminor : (coord v v' (dist u u') k : ℚ) = v.toInt + dir v v' * j := by
    rw [coord, hj]
    push_cast
    ring
  rw [hmajor, hu, hv, hquot, hminor]
  have hcancel : (v.toInt + dir v v' * j : ℚ) -
      (v.toInt + dir v v' * (k * dist v v' / dist u u')) =
      dir v v' * (j - k * dist v v' / dist u u') := by ring
  rw [hcancel, abs_mul]
  rcases dir_cases v v' with h | h <;> simpa [h] using hratio

/-- What a line is to be. -/
structure GoodLine (x0 y0 x1 y1 : CInt) (points : List (CInt × CInt)) : Prop where
  length : points.length = max (x1.toInt - x0.toInt).natAbs (y1.toInt - y0.toInt).natAbs + 1
  first : points.head? = some (x0, y0)
  last : points.getLast? = some (x1, y1)
  adjacent : points.IsChain fun p q =>
    |q.1.toInt - p.1.toInt| ≤ 1 ∧ |q.2.toInt - p.2.toInt| ≤ 1
  box : ∀ p ∈ points,
    min x0.toInt x1.toInt ≤ p.1.toInt ∧ p.1.toInt ≤ max x0.toInt x1.toInt ∧
    min y0.toInt y1.toInt ≤ p.2.toInt ∧ p.2.toInt ≤ max y0.toInt y1.toInt
  near : ∀ p ∈ points,
    NearLine x0.toInt y0.toInt x1.toInt y1.toInt p.1.toInt p.2.toInt

section Good

variable {x0 y0 x1 y1 : CInt}

theorem linePoint_toInt {k : Nat} (hk : k ≤ lineSteps x0 y0 x1 y1) :
    (linePoint x0 y0 x1 y1 k).1.toInt = coord x0 x1 (lineSteps x0 y0 x1 y1) k ∧
      (linePoint x0 y0 x1 y1 k).2.toInt = coord y0 y1 (lineSteps x0 y0 x1 y1) k :=
  ⟨coord_toInt x0 x1 hk, coord_toInt y0 y1 hk⟩

theorem coord_step {u v : CInt} {N k : Nat} (hN : 0 < N) (hle : dist u v ≤ N) :
    |coord u v N (k + 1) - coord u v N k| ≤ 1 := by
  rw [coord_succ hN hle Iff.rfl, add_sub_cancel_left]
  split
  · rcases dir_cases u v with h | h <;> simp [h]
  · simp

theorem linePoint_near {k : Nat} (hk : k ≤ lineSteps x0 y0 x1 y1) :
    NearLine x0.toInt y0.toInt x1.toInt y1.toInt
      (linePoint x0 y0 x1 y1 k).1.toInt (linePoint x0 y0 x1 y1 k).2.toInt := by
  rcases linePoint_toInt hk with ⟨hx, hy⟩
  rw [hx, hy, NearLine]
  split
  · next h =>
    have hmajor : dist y0 y1 ≤ dist x0 x1 := by
      zify
      rwa [dist_eq_abs, dist_eq_abs]
    have hN : lineSteps x0 y0 x1 y1 = dist x0 x1 := max_eq_left hmajor
    rw [hN] at hk ⊢
    rcases Nat.eq_zero_or_pos (dist x0 x1) with hz | hpos
    · obtain rfl : k = 0 := by omega
      simp [coord_zero]
    · exact coord_near hpos
  · next h =>
    have hmajor : dist x0 x1 < dist y0 y1 := by
      zify
      rw [dist_eq_abs, dist_eq_abs]
      exact not_le.1 h
    have hN : lineSteps x0 y0 x1 y1 = dist y0 y1 := max_eq_right (le_of_lt hmajor)
    rw [hN]
    exact coord_near (by omega)

theorem goodLine :
    GoodLine x0 y0 x1 y1
      ((List.range (lineSteps x0 y0 x1 y1 + 1)).map (linePoint x0 y0 x1 y1)) := by
  have hmem : ∀ p ∈ (List.range (lineSteps x0 y0 x1 y1 + 1)).map (linePoint x0 y0 x1 y1),
      ∃ k ≤ lineSteps x0 y0 x1 y1, p = linePoint x0 y0 x1 y1 k := by
    intro p hp
    rcases List.mem_map.1 hp with ⟨k, hk, rfl⟩
    exact ⟨k, by simpa using hk, rfl⟩
  constructor
  · rw [List.length_map, List.length_range]
    rfl
  · simp [List.range_succ_eq_map, linePoint, coord_zero]
  · rw [List.range_succ, List.map_append, List.map_singleton, List.getLast?_append]
    simp [linePoint_end]
  · rw [List.isChain_map, List.isChain_range_succ]
    intro k hk
    have hN : 0 < lineSteps x0 y0 x1 y1 := by omega
    rcases linePoint_toInt (le_of_lt hk) with ⟨hx, hy⟩
    rcases linePoint_toInt (Nat.succ_le_of_lt hk) with ⟨hx', hy'⟩
    rw [hx, hy, hx', hy']
    exact ⟨coord_step hN (Nat.le_max_left ..), coord_step hN (Nat.le_max_right ..)⟩
  · intro p hp
    rcases hmem p hp with ⟨k, hk, rfl⟩
    rcases linePoint_toInt hk with ⟨hx, hy⟩
    rw [hx, hy]
    exact ⟨(coord_between x0 x1 hk).1, (coord_between x0 x1 hk).2,
      (coord_between y0 y1 hk).1, (coord_between y0 y1 hk).2⟩
  · intro p hp
    rcases hmem p hp with ⟨k, hk, rfl⟩
    exact linePoint_near hk

end Good

end Properties

end Fb
end F32c
