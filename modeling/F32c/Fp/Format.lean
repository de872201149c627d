import Mathlib.Tactic

/-!
# Binary floating-point magnitudes and rounding to nearest

The bits of a floating-point number below its sign, read as one natural number,
grow with the value they stand for. This module works with that number. The
value `mag p r` of a magnitude `r` with `p` stored significand bits is counted in
units of the least denormal, so that it is a natural number, and the magnitudes
one apart differ by a power of two.

`Nearest` says that a magnitude is the closest one to a quotient `n / d` of
natural numbers, ties going to the even magnitude. An algorithm works with the
two midpoints around its result; `nearest_of_midpoints` connects the two.
-/

namespace F32c
namespace Fp

section Magnitudes

variable {p : ℕ}

/-- The significand of a magnitude with `p` stored bits, the implicit bit included. -/
def significand (p r : ℕ) : ℕ :=
  if r < 2 ^ p then r else 2 ^ p + r % 2 ^ p

/-- The value of a magnitude in units of the least denormal. -/
def mag (p r : ℕ) : ℕ :=
  significand p r * 2 ^ (r / 2 ^ p - 1)

/-- Below the first normal number the magnitude is the value. -/
theorem mag_of_lt {r : ℕ} (h : r < 2 ^ p) : mag p r = r := by
  rw [mag, significand, if_pos h, Nat.div_eq_of_lt h]
  simp

/-- The value of a normal number, from its exponent and its stored bits. -/
theorem mag_normal {e f : ℕ} (he : 1 ≤ e) (hf : f < 2 ^ p) :
    mag p (e * 2 ^ p + f) = (2 ^ p + f) * 2 ^ (e - 1) := by
  have hpos : 0 < 2 ^ p := Nat.two_pow_pos p
  have hge : ¬ e * 2 ^ p + f < 2 ^ p := by
    have := Nat.mul_le_mul_right (2 ^ p) he
    omega
  have hdiv : (e * 2 ^ p + f) / 2 ^ p = e := by
    rw [Nat.mul_comm, Nat.mul_add_div hpos, Nat.div_eq_of_lt hf, Nat.add_zero]
  have hmod : (e * 2 ^ p + f) % 2 ^ p = f := by
    rw [Nat.mul_comm, Nat.mul_add_mod, Nat.mod_eq_of_lt hf]
  rw [mag, significand, if_neg hge, hdiv, hmod]

/-- A magnitude is its exponent and its stored bits. -/
theorem eq_exponent_add (p r : ℕ) : r = r / 2 ^ p * 2 ^ p + r % 2 ^ p := by
  have := Nat.div_add_mod r (2 ^ p)
  rw [Nat.mul_comm] at this
  exact this.symm

/-- The next magnitude is one unit in the last place further. -/
theorem mag_succ (p r : ℕ) : mag p (r + 1) = mag p r + 2 ^ (r / 2 ^ p - 1) := by
  have hpos : 0 < 2 ^ p := Nat.two_pow_pos p
  by_cases hr : r + 1 < 2 ^ p
  · have hlt : r < 2 ^ p := by omega
    rw [mag_of_lt hr, mag_of_lt hlt, Nat.div_eq_of_lt hlt]
    simp
  by_cases hlt : r < 2 ^ p
  · -- the step from the last denormal to the first normal number
    have heq : r + 1 = 1 * 2 ^ p + 0 := by omega
    rw [heq, mag_normal (Nat.le_refl 1) hpos, mag_of_lt hlt, Nat.div_eq_of_lt hlt]
    simp
    omega
  have he : 1 ≤ r / 2 ^ p := (Nat.one_le_div_iff hpos).2 (by omega)
  have hmod : r % 2 ^ p < 2 ^ p := Nat.mod_lt _ hpos
  have hcur : mag p r = (2 ^ p + r % 2 ^ p) * 2 ^ (r / 2 ^ p - 1) := by
    conv_lhs => rw [eq_exponent_add p r]
    exact mag_normal he hmod
  by_cases htop : r % 2 ^ p + 1 < 2 ^ p
  · have hnext : r + 1 = r / 2 ^ p * 2 ^ p + (r % 2 ^ p + 1) := by
      have := eq_exponent_add p r
      omega
    have hval := mag_normal he htop
    rw [← hnext] at hval
    rw [hval, hcur]
    ring
  · -- the stored bits run over into the exponent
    have hnext : r + 1 = (r / 2 ^ p + 1) * 2 ^ p + 0 := by
      have := eq_exponent_add p r
      rw [Nat.add_mul]
      omega
    have hfull : r % 2 ^ p + 1 = 2 ^ p := by omega
    have hval := mag_normal (p := p) (show 1 ≤ r / 2 ^ p + 1 by omega) hpos
    rw [← hnext] at hval
    rw [hval, hcur]
    obtain ⟨k, hk⟩ : ∃ k, r / 2 ^ p = k + 1 := ⟨r / 2 ^ p - 1, by omega⟩
    rw [hk, Nat.add_sub_cancel, Nat.add_sub_cancel, pow_succ]
    calc (2 ^ p + 0) * (2 ^ k * 2) = (2 ^ p + 2 ^ p) * 2 ^ k := by ring
      _ = (2 ^ p + (r % 2 ^ p + 1)) * 2 ^ k := by rw [hfull]
      _ = (2 ^ p + r % 2 ^ p) * 2 ^ k + 2 ^ k := by ring

/-- Larger magnitudes stand for larger values. -/
theorem mag_strictMono (p : ℕ) : StrictMono (mag p) := by
  apply strictMono_nat_of_lt_succ
  intro r
  rw [mag_succ]
  have := Nat.two_pow_pos (r / 2 ^ p - 1)
  omega

@[simp] theorem mag_zero (p : ℕ) : mag p 0 = 0 :=
  mag_of_lt (Nat.two_pow_pos p)

theorem mag_le_mag {q r : ℕ} : mag p q ≤ mag p r ↔ q ≤ r :=
  (mag_strictMono p).le_iff_le

theorem mag_lt_mag {q r : ℕ} : mag p q < mag p r ↔ q < r :=
  (mag_strictMono p).lt_iff_lt

theorem mag_inj {q r : ℕ} : mag p q = mag p r ↔ q = r :=
  (mag_strictMono p).injective.eq_iff

theorem mag_pos {r : ℕ} : 0 < mag p r ↔ 0 < r := by
  have := mag_lt_mag (p := p) (q := 0) (r := r)
  rwa [mag_zero] at this

end Magnitudes


section Nearest

variable {p top n d r : ℕ}

/-- How far the magnitude `r` is from the quotient `n / d`, times the denominator. -/
def dist (p n d r : ℕ) : ℤ :=
  |(n : ℤ) - (mag p r : ℤ) * d|

/--
The magnitude `r` is the closest one to `n / d` among those up to `top`, and an even one
where a second is as close. With the magnitude of infinity as `top`, which counts as the
number that would follow the largest finite one, this is rounding to nearest, ties to even,
with overflow to infinity.
-/
def Nearest (p top n d r : ℕ) : Prop :=
  r ≤ top ∧
    ∀ q, q ≤ top → q ≠ r →
      dist p n d r < dist p n d q ∨ dist p n d r = dist p n d q ∧ r % 2 = 0

/-- The midpoint below the result: the quotient is not on its far side. -/
def AboveMidpoint (p n d r : ℕ) : Prop :=
  ∀ q, q + 1 = r →
    (mag p q + mag p r) * d < 2 * n ∨ (mag p q + mag p r) * d = 2 * n ∧ r % 2 = 0

/-- The midpoint above the result: the quotient is not on its far side. -/
def BelowMidpoint (p n d r : ℕ) : Prop :=
  2 * n < (mag p r + mag p (r + 1)) * d ∨
    2 * n = (mag p r + mag p (r + 1)) * d ∧ r % 2 = 0

/-- Two magnitudes are compared by the side of their midpoint that the quotient is on. -/
theorem dist_lt_dist_of_midpoint {a b : ℕ} (hab : a ≤ b) (hd : 0 < d) (hne : a ≠ b)
    (h : 2 * n < (a + b) * d) :
    |(n : ℤ) - (a : ℤ) * d| < |(n : ℤ) - (b : ℤ) * d| := by
  have hlt : a * d < b * d := by
    apply Nat.mul_lt_mul_of_pos_right _ hd
    omega
  rw [Nat.add_mul] at h
  zify at h hlt
  have hb : |(n : ℤ) - (b : ℤ) * d| = (b : ℤ) * d - n := by
    rw [abs_of_neg (by linarith), neg_sub]
  rw [hb, abs_lt]
  constructor <;> linarith

theorem dist_lt_dist_of_midpoint' {a b : ℕ} (hab : b ≤ a) (hd : 0 < d) (hne : a ≠ b)
    (h : (b + a) * d < 2 * n) :
    |(n : ℤ) - (a : ℤ) * d| < |(n : ℤ) - (b : ℤ) * d| := by
  have hlt : b * d < a * d := by
    apply Nat.mul_lt_mul_of_pos_right _ hd
    omega
  rw [Nat.add_mul] at h
  zify at h hlt
  have hb : |(n : ℤ) - (b : ℤ) * d| = (n : ℤ) - (b : ℤ) * d :=
    abs_of_pos (by linarith)
  rw [hb, abs_lt]
  constructor <;> linarith

/-- A quotient at a midpoint is equally far from both sides. -/
theorem dist_eq_dist_of_midpoint {a b : ℕ} (h : (a + b) * d = 2 * n) :
    |(n : ℤ) - (a : ℤ) * d| = |(n : ℤ) - (b : ℤ) * d| := by
  rw [Nat.add_mul] at h
  zify at h
  have hneg : (n : ℤ) - (a : ℤ) * d = -((n : ℤ) - (b : ℤ) * d) := by linarith
  rw [hneg, abs_neg]

/-- The two midpoints next to a magnitude decide whether it is the nearest. -/
theorem nearest_of_midpoints (hd : 0 < d) (hr : r ≤ top)
    (hbelow : AboveMidpoint p n d r) (habove : r < top → BelowMidpoint p n d r) :
    Nearest p top n d r := by
  refine ⟨hr, ?_⟩
  intro q hq hne
  rcases Nat.lt_or_gt_of_ne hne with hlt | hgt
  · -- a smaller magnitude: the midpoint below is at or above the one with `q`
    obtain ⟨q', rfl⟩ : ∃ q', r = q' + 1 := ⟨r - 1, by omega⟩
    have hq' : mag p q ≤ mag p q' := mag_le_mag.2 (by omega)
    have hmag : mag p q < mag p (q' + 1) := mag_lt_mag.2 hlt
    rcases hbelow q' rfl with h | ⟨h, heven⟩
    · left
      apply dist_lt_dist_of_midpoint' (Nat.le_of_lt hmag) hd (by omega)
      exact Nat.lt_of_le_of_lt (Nat.mul_le_mul_right d (by omega)) h
    · rcases Nat.lt_or_ge q q' with hqq | hqq
      · left
        apply dist_lt_dist_of_midpoint' (Nat.le_of_lt hmag) hd (by omega)
        rw [← h]
        apply Nat.mul_lt_mul_of_pos_right _ hd
        have := mag_lt_mag (p := p).2 hqq
        omega
      · right
        have hqeq : q = q' := by omega
        subst hqeq
        refine ⟨?_, heven⟩
        exact dist_eq_dist_of_midpoint (by rw [Nat.add_comm]; exact h)
  · have hmag : mag p r < mag p q := mag_lt_mag.2 hgt
    have hq' : mag p (r + 1) ≤ mag p q := mag_le_mag.2 hgt
    rcases habove (by omega) with h | ⟨h, heven⟩
    · left
      apply dist_lt_dist_of_midpoint (Nat.le_of_lt hmag) hd (by omega)
      exact Nat.lt_of_lt_of_le h (Nat.mul_le_mul_right d (by omega))
    · rcases Nat.lt_or_ge (r + 1) q with hqq | hqq
      · left
        apply dist_lt_dist_of_midpoint (Nat.le_of_lt hmag) hd (by omega)
        rw [h]
        apply Nat.mul_lt_mul_of_pos_right _ hd
        have := mag_lt_mag (p := p).2 hqq
        omega
      · right
        have hqeq : q = r + 1 := by omega
        subst hqeq
        exact ⟨dist_eq_dist_of_midpoint h.symm, heven⟩

/-- A quotient that has reached the magnitude is past the midpoint below it. -/
theorem aboveMidpoint_of_le (hd : 0 < d) (h : mag p r * d ≤ n) : AboveMidpoint p n d r := by
  rintro q rfl
  left
  have hlt := mag_lt_mag (p := p).2 (show q < q + 1 by omega)
  calc (mag p q + mag p (q + 1)) * d < (mag p (q + 1) + mag p (q + 1)) * d := by
        apply Nat.mul_lt_mul_of_pos_right _ hd
        omega
    _ = 2 * (mag p (q + 1) * d) := by ring
    _ ≤ 2 * n := Nat.mul_le_mul_left 2 h

/-- A quotient that has not passed the magnitude has not reached the midpoint above it. -/
theorem belowMidpoint_of_le (hd : 0 < d) (h : n ≤ mag p r * d) : BelowMidpoint p n d r := by
  left
  have hlt := mag_lt_mag (p := p).2 (show r < r + 1 by omega)
  calc 2 * n ≤ 2 * (mag p r * d) := Nat.mul_le_mul_left 2 h
    _ = (mag p r + mag p r) * d := by ring
    _ < (mag p r + mag p (r + 1)) * d := by
        apply Nat.mul_lt_mul_of_pos_right _ hd
        omega

/-- A quotient that is the value of a magnitude rounds to that magnitude. -/
theorem nearest_exact (hd : 0 < d) (hr : r ≤ top) : Nearest p top (mag p r * d) d r :=
  nearest_of_midpoints hd hr (aboveMidpoint_of_le hd (Nat.le_refl _))
    fun _ => belowMidpoint_of_le hd (Nat.le_refl _)

/-- The same quotient with numerator and denominator scaled. -/
theorem Nearest.scale {c : ℕ} (h : Nearest p top n d r) (hc : 0 < c) :
    Nearest p top (n * c) (d * c) r := by
  have hdist : ∀ q, dist p (n * c) (d * c) q = dist p n d q * c := by
    intro q
    have hfactor : ((n * c : ℕ) : ℤ) - (mag p q : ℤ) * (d * c : ℕ)
        = ((n : ℤ) - (mag p q : ℤ) * d) * c := by
      push_cast
      ring
    rw [dist, dist, hfactor, abs_mul, Nat.abs_cast]
  have hcz : (0 : ℤ) < c := by exact_mod_cast hc
  refine ⟨h.1, ?_⟩
  intro q hq hne
  rw [hdist, hdist]
  obtain hlt | ⟨heq, heven⟩ := h.2 q hq hne
  · exact Or.inl (Int.mul_lt_mul_of_pos_right hlt hcz)
  · exact Or.inr ⟨by rw [heq], heven⟩

/-- Only one magnitude is nearest. -/
theorem Nearest.unique {r' : ℕ} (hd : 0 < d) (h : Nearest p top n d r)
    (h' : Nearest p top n d r') : r = r' := by
  by_contra hne
  -- between two even magnitudes at equal distances lies one that is closer
  have key : ∀ a b : ℕ, Nearest p top n d a → Nearest p top n d b → a < b → False := by
    intro a b ha hb hlt
    obtain hab | ⟨heq, haEven⟩ := ha.2 b hb.1 (by omega)
    · obtain hba | ⟨hba, _⟩ := hb.2 a ha.1 (by omega) <;> linarith
    obtain hba | ⟨_, hbEven⟩ := hb.2 a ha.1 (by omega)
    · linarith
    have hm1 := mag_lt_mag (p := p).2 (show a < a + 1 by omega)
    have hm2 := mag_lt_mag (p := p).2 (show a + 1 < b by omega)
    have hmid : dist p n d (a + 1) < dist p n d a := by
      rw [dist, dist] at heq
      rw [dist, dist]
      have h1 : (mag p a : ℤ) * d < (mag p (a + 1) : ℤ) * d := by
        have := Nat.mul_lt_mul_of_pos_right hm1 hd
        exact_mod_cast this
      have h2 : (mag p (a + 1) : ℤ) * d < (mag p b : ℤ) * d := by
        have := Nat.mul_lt_mul_of_pos_right hm2 hd
        exact_mod_cast this
      rcases abs_choice ((n : ℤ) - (mag p a : ℤ) * d) with h3 | h3 <;>
        rcases abs_choice ((n : ℤ) - (mag p b : ℤ) * d) with h4 | h4 <;>
        rw [h3, h4] at heq <;> rw [abs_lt, h3] <;>
        have h5 := abs_nonneg ((n : ℤ) - (mag p a : ℤ) * d) <;>
        have h6 := abs_nonneg ((n : ℤ) - (mag p b : ℤ) * d) <;>
        rw [h3] at h5 <;> rw [h4] at h6 <;> constructor <;> linarith
    obtain hc | ⟨hc, _⟩ := ha.2 (a + 1) (by have := hb.1; omega) (by omega) <;> linarith
  rcases Nat.lt_or_gt_of_ne hne with hlt | hgt
  · exact key r r' h h' hlt
  · exact key r' r h' h hgt

end Nearest

end Fp
end F32c
