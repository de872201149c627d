import F32c.Fp.Format

/-!
# Rounding a bit string with a sticky bit

Software arithmetic computes a result to a few bits more than the format stores
and gathers all that is left over in one last bit, the sticky bit. `Agrees` is
what such a string still tells about the exact quotient: it compares in the same
way with every multiple of a fixed number. `jam` shifts a string to the right and
keeps the sticky bit, and `Agrees.jam` says what survives.

`roundBits` is the last step of every algorithm: look at the bits below the
result and go to the next magnitude, or not. `nearest_roundBits` says that this is
rounding to nearest whenever the string agrees with the quotient at its midpoints.
-/

namespace F32c
namespace Fp

section Sticky

variable {g n d m : ℕ}

/-- The string `m` compares with every multiple of `g` as the quotient `n / d` does. -/
def Agrees (g n d m : ℕ) : Prop :=
  ∀ c, (g * c * d < n ↔ g * c < m) ∧ (g * c * d = n ↔ g * c = m)

/-- A string that is the quotient agrees with it everywhere. -/
theorem Agrees.exact (hd : 0 < d) (g m : ℕ) : Agrees g (m * d) d m := by
  intro c
  constructor
  · exact Nat.mul_lt_mul_right hd
  · exact Nat.mul_left_inj (by omega)

/-- Comparisons with multiples of `g` answer those with multiples of a multiple of `g`. -/
theorem Agrees.of_dvd {k : ℕ} (h : Agrees g n d m) (hg : g ∣ k) : Agrees k n d m := by
  obtain ⟨q, rfl⟩ := hg
  intro c
  rw [Nat.mul_assoc g q c]
  exact h (q * c)

/-- What lies above a multiple of `g` or at it, in the other direction. -/
theorem Agrees.lt_iff (h : Agrees g n d m) (c : ℕ) : n < g * c * d ↔ m < g * c := by
  have h1 := (h c).1
  have h2 := (h c).2
  constructor
  · intro hlt
    by_contra hge
    rcases Nat.lt_or_eq_of_le (Nat.le_of_not_lt hge) with h3 | h3
    · have := h1.2 h3
      omega
    · have := h2.2 h3
      omega
  · intro hlt
    by_contra hge
    rcases Nat.lt_or_eq_of_le (Nat.le_of_not_lt hge) with h3 | h3
    · have := h1.1 h3
      omega
    · have := h2.1 h3
      omega

theorem Agrees.le_iff (h : Agrees g n d m) (c : ℕ) : g * c * d ≤ n ↔ g * c ≤ m := by
  have := h.lt_iff c
  omega

/-- The same quotient, written with another numerator and denominator. -/
theorem Agrees.congr {n' d' : ℕ} (h : Agrees g n d m) (hd : 0 < d) (hd' : 0 < d')
    (heq : n * d' = n' * d) : Agrees g n' d' m := by
  intro c
  have hcross : g * c * d * d' = g * c * d' * d := by ring
  rw [← Nat.mul_lt_mul_right hd, ← Nat.mul_left_inj (Nat.ne_of_gt hd), ← heq, ← hcross,
    Nat.mul_lt_mul_right hd', Nat.mul_left_inj (Nat.ne_of_gt hd')]
  exact h c

/-- Scaling the string and the quotient by the same number. -/
theorem Agrees.mul (h : Agrees g n d m) {k : ℕ} (hk : 0 < k) :
    Agrees (g * k) (n * k) d (m * k) := by
  intro c
  have hnum : g * k * c * d = g * c * d * k := by ring
  have hstr : g * k * c = g * c * k := by ring
  rw [hnum, hstr, Nat.mul_lt_mul_right hk, Nat.mul_lt_mul_right hk,
    Nat.mul_left_inj (by omega), Nat.mul_left_inj (by omega)]
  exact h c

/-- An even string that is exact less a string that agrees on even numbers. -/
theorem Agrees.sub {a : ℕ} (h : Agrees 2 n d m) (ha : 2 ∣ a) (hle : n ≤ a * d) :
    Agrees 2 (a * d - n) d (a - m) := by
  obtain ⟨a, rfl⟩ := ha
  have hm : m ≤ 2 * a := by
    have := h.lt_iff a
    have h2 := (h a).1
    omega
  intro c
  rcases Nat.lt_or_ge a c with hac | hac
  · -- a bound above the larger operand is above both differences
    have h1 : 2 * a * d ≤ 2 * c * d := Nat.mul_le_mul_right d (by omega)
    constructor
    · constructor <;> intro _ <;> omega
    · constructor
      · intro heq
        have hn : n = 0 := by omega
        rcases Nat.eq_zero_or_pos d with hd | hd
        · subst hd
          have h3 := (h 0).2
          have h4 := (h 1).1
          have h5 := (h 1).2
          simp at h3 h4 h5
          omega
        · have h3 : 2 * a * d < 2 * c * d := Nat.mul_lt_mul_of_pos_right (by omega) hd
          omega
      · intro heq
        omega
  · obtain ⟨b, rfl⟩ : ∃ b, a = c + b := ⟨a - c, by omega⟩
    have hsplit : 2 * (c + b) * d = 2 * c * d + 2 * b * d := by ring
    have h1 := h.lt_iff b
    have h2 := (h b).2
    constructor
    · rw [hsplit]
      omega
    · rw [hsplit]
      omega

/-- An even string that is exact and a string that agrees on even numbers. -/
theorem Agrees.add {a : ℕ} (h : Agrees 2 n d m) (ha : 2 ∣ a) :
    Agrees 2 (a * d + n) d (a + m) := by
  obtain ⟨a, rfl⟩ := ha
  intro c
  rcases Nat.lt_or_ge c a with hac | hac
  · have h1 : 2 * c * d ≤ 2 * a * d := Nat.mul_le_mul_right d (by omega)
    rcases Nat.eq_zero_or_pos d with hd | hd
    · subst hd
      have h3 := (h 0).1
      have h4 := (h 0).2
      have h5 := (h (m + 1)).1
      have h6 := (h (m + 1)).2
      simp at h1 h3 h4 h5 h6 ⊢
      omega
    · have h3 : 2 * c * d < 2 * a * d := Nat.mul_lt_mul_of_pos_right (by omega) hd
      constructor
      · constructor <;> intro _ <;> omega
      · constructor <;> intro _ <;> omega
  · obtain ⟨b, rfl⟩ : ∃ b, c = a + b := ⟨c - a, by omega⟩
    have hsplit : 2 * (a + b) * d = 2 * a * d + 2 * b * d := by ring
    rw [hsplit, Nat.mul_add]
    have h1 := (h b).1
    have h2 := (h b).2
    constructor <;> omega

/-- Shift a string to the right by `k`, or-ing into its last bit whether a bit was lost. -/
def jam (m k : ℕ) : ℕ :=
  m / 2 ^ k ||| (if m % 2 ^ k = 0 then 0 else 1)

/-- An odd number stays, an even one is followed by the odd one above it. -/
theorem or_one_eq (x : ℕ) : x ||| 1 = 2 * (x / 2) + 1 := by
  have h := Nat.two_pow_add_eq_or_of_lt (i := 1) (b := x % 2) (by omega) (x / 2)
  have hx : x = 2 ^ 1 * (x / 2) ||| x % 2 := by
    rw [← h]
    omega
  have h1 := Nat.two_pow_add_eq_or_of_lt (i := 1) (b := 1) (by omega) (x / 2)
  rcases Nat.mod_two_eq_zero_or_one x with hm | hm
  · rw [hm, Nat.or_zero] at hx
    conv_lhs => rw [hx]
    rw [← h1, pow_one]
  · rw [hm] at hx
    conv_lhs => rw [hx]
    rw [Nat.or_assoc, Nat.or_self, ← h1, pow_one]

theorem jam_eq (m k : ℕ) :
    jam m k = if m % 2 ^ k = 0 then m / 2 ^ k else 2 * (m / 2 ^ k / 2) + 1 := by
  rw [jam]
  split
  · rw [Nat.or_zero]
  · rw [or_one_eq]

/-- Comparing a jammed string with an even number. -/
theorem jam_compare (m k c : ℕ) :
    (2 * c < jam m k ↔ 2 * c * 2 ^ k < m) ∧ (2 * c = jam m k ↔ 2 * c * 2 ^ k = m) := by
  have hpos : 0 < 2 ^ k := Nat.two_pow_pos k
  have hsplit := Nat.div_add_mod m (2 ^ k)
  have hmod : m % 2 ^ k < 2 ^ k := Nat.mod_lt _ hpos
  rw [jam_eq, Nat.mul_comm (2 * c)]
  generalize m / 2 ^ k = q at *
  generalize m % 2 ^ k = t at *
  generalize 2 ^ k = w at *
  subst hsplit
  have hlt : ∀ x y : ℕ, w * x < w * y ↔ x < y := fun x y => Nat.mul_lt_mul_left hpos
  split
  next h0 =>
    subst h0
    rw [Nat.add_zero, hlt, Nat.mul_right_inj (by omega)]
    exact ⟨Iff.rfl, Iff.rfl⟩
  next h0 =>
    rcases Nat.lt_or_ge q (2 * c) with hc | hc
    · have h1 : w * (q + 1) ≤ w * (2 * c) := Nat.mul_le_mul_left w hc
      rw [Nat.mul_add] at h1
      omega
    · have h1 : w * (2 * c) ≤ w * q := Nat.mul_le_mul_left w hc
      omega

/-- A string that agrees with a quotient still does on even numbers after a jamming shift. -/
theorem Agrees.jam (h : Agrees g n d m) {k : ℕ} (hg : g ∣ 2 * 2 ^ k) :
    Agrees 2 n (d * 2 ^ k) (jam m k) := by
  intro c
  have h' := h.of_dvd hg c
  have hscale : 2 * c * (d * 2 ^ k) = 2 * 2 ^ k * c * d := by ring
  have hstr : 2 * c * 2 ^ k = 2 * 2 ^ k * c := by ring
  rw [hscale, (jam_compare m k c).1, (jam_compare m k c).2, hstr]
  exact h'

end Sticky


section RoundBits

variable {p top n d r w lo : ℕ}

/-- The magnitude after the low `w` bits of the string have been looked at. -/
def roundBits (w lo r : ℕ) : ℕ :=
  if 2 ^ (w - 1) < lo then r + 1
  else if lo = 2 ^ (w - 1) then r + r % 2
  else r

/--
Rounding by the bits below the result. The string is the significand of `r` with `w` more
bits, and the quotient is at the scale of that string.
-/
theorem nearest_roundBits (hd : 0 < d) (hw : 1 ≤ w) (hr : r < top) (hlo : lo < 2 ^ w)
    (h : Agrees (2 ^ (w - 1)) (n * 2 ^ w) (d * 2 ^ (r / 2 ^ p - 1))
      (significand p r * 2 ^ w + lo)) :
    Nearest p top n d (roundBits w lo r) := by
  obtain ⟨v, rfl⟩ : ∃ v, w = v + 1 := ⟨w - 1, by omega⟩
  rw [Nat.add_sub_cancel] at h
  have hpos : 0 < 2 ^ v := Nat.two_pow_pos v
  have hmag : mag p r = significand p r * 2 ^ (r / 2 ^ p - 1) := rfl
  have hnext := mag_succ p r
  -- the string at the magnitude, at the midpoint above it and at the next magnitude
  have hfloor : mag p r * d ≤ n := by
    have := (h.le_iff (significand p r * 2)).2 (by rw [pow_succ] at *; linarith [hlo])
    have hscale : 2 ^ v * (significand p r * 2) * (d * 2 ^ (r / 2 ^ p - 1))
        = mag p r * d * 2 ^ (v + 1) := by
      rw [hmag, pow_succ]
      ring
    rw [hscale] at this
    exact Nat.le_of_mul_le_mul_right this (Nat.two_pow_pos _)
  have hceil : n < mag p (r + 1) * d := by
    have := (h.lt_iff (significand p r * 2 + 2)).2 (by
      rw [pow_succ] at *
      linarith [hlo])
    have hscale : 2 ^ v * (significand p r * 2 + 2) * (d * 2 ^ (r / 2 ^ p - 1))
        = mag p (r + 1) * d * 2 ^ (v + 1) := by
      rw [hnext, hmag, pow_succ]
      ring
    rw [hscale] at this
    exact Nat.lt_of_mul_lt_mul_right this
  have hscale : 2 ^ v * (significand p r * 2 + 1) * (d * 2 ^ (r / 2 ^ p - 1))
      = (mag p r + mag p (r + 1)) * d * 2 ^ v := by
    rw [hnext, hmag]
    ring
  have hnum : n * 2 ^ (v + 1) = 2 * n * 2 ^ v := by
    rw [pow_succ]
    ring
  have hstring : 2 ^ v * (significand p r * 2 + 1) = significand p r * 2 ^ (v + 1) + 2 ^ v := by
    rw [pow_succ]
    ring
  have hmid_lt : (mag p r + mag p (r + 1)) * d < 2 * n ↔ 2 ^ v < lo := by
    have := (h (significand p r * 2 + 1)).1
    rw [hstring, Nat.add_lt_add_iff_left, ← hstring] at this
    rw [← this, hscale, hnum, Nat.mul_lt_mul_right hpos]
  have hmid_eq : (mag p r + mag p (r + 1)) * d = 2 * n ↔ 2 ^ v = lo := by
    have := (h (significand p r * 2 + 1)).2
    rw [hstring, Nat.add_left_cancel_iff, ← hstring] at this
    rw [← this, hscale, hnum, Nat.mul_left_inj hpos.ne']
  have hlow : AboveMidpoint p n d r := aboveMidpoint_of_le hd hfloor
  have hhigh : BelowMidpoint p n d (r + 1) := belowMidpoint_of_le hd (Nat.le_of_lt hceil)
  rw [roundBits, Nat.add_sub_cancel]
  split
  next hgt =>
    -- past the midpoint: the next magnitude
    apply nearest_of_midpoints hd hr
    · intro q hq
      obtain rfl : q = r := by omega
      exact Or.inl (hmid_lt.2 hgt)
    · intro _
      exact hhigh
  next hgt =>
    split
    next heq =>
      have hmid := hmid_eq.2 heq.symm
      rcases Nat.mod_two_eq_zero_or_one r with heven | hodd
      · rw [heven, Nat.add_zero]
        apply nearest_of_midpoints hd (Nat.le_of_lt hr) hlow
        intro _
        exact Or.inr ⟨hmid.symm, heven⟩
      · rw [hodd]
        apply nearest_of_midpoints hd hr
        · intro q hq
          obtain rfl : q = r := by omega
          exact Or.inr ⟨hmid, by omega⟩
        · intro _
          exact hhigh
    next hne =>
      apply nearest_of_midpoints hd (Nat.le_of_lt hr) hlow
      intro _
      left
      have h1 := hmid_lt
      have h2 := hmid_eq
      omega

/-- A quotient that has reached the value of `top` rounds to `top`. -/
theorem nearest_top (hd : 0 < d) (h : mag p top * d ≤ n) : Nearest p top n d top := by
  apply nearest_of_midpoints hd (Nat.le_refl top) (aboveMidpoint_of_le hd h)
  intro hlt
  omega

/-- A quotient below half of the least denormal rounds to zero. -/
theorem nearest_zero (hp : 1 ≤ p) (h : 2 * n < d) : Nearest p top n d 0 := by
  have hd : 0 < d := by omega
  apply nearest_of_midpoints hd (Nat.zero_le top)
  · intro q hq
    omega
  · intro _
    left
    have hone : (1 : ℕ) < 2 ^ p := Nat.one_lt_two_pow (by omega)
    rw [mag_zero, mag_of_lt hone]
    omega

/--
The string `m` is the quotient `n / d` read at the exponent `e`: the unit of the number in
front of its low `w` bits is `2 ^ (e - 1)` least denormals. Two bits at the end of the
string may have been disturbed by a sticky bit.
-/
def Scaled (w n d : ℕ) (e : ℤ) (m : ℕ) : Prop :=
  Agrees 4 (n * 2 ^ w * 2 ^ (1 - e).toNat) (d * 2 ^ (e - 1).toNat) m

/-- Three bits below the result leave the midpoints undisturbed. -/
theorem four_dvd_half (hw : 3 ≤ w) : 4 ∣ 2 ^ (w - 1) :=
  pow_dvd_pow 2 (show 2 ≤ w - 1 by omega)

/-- A string with an exponent too large for the format rounds to `top`. -/
theorem nearest_of_overflow {e : ℤ} {m maxExponent : ℕ} (hd : 0 < d) (hw : 3 ≤ w)
    (hmax : 1 ≤ maxExponent) (h : Scaled w n d e m) (hm : 2 ^ p * 2 ^ w ≤ m)
    (he : (maxExponent : ℤ) ≤ e) :
    Nearest p (maxExponent * 2 ^ p) n d (maxExponent * 2 ^ p) := by
  apply nearest_top hd
  obtain ⟨v, rfl⟩ : ∃ v, w = v + 1 := ⟨w - 1, by omega⟩
  obtain ⟨k, rfl⟩ : ∃ k : ℕ, e = (maxExponent + k : ℕ) :=
    ⟨(e - maxExponent).toNat, by omega⟩
  have hdown : (1 - ((maxExponent + k : ℕ) : ℤ)).toNat = 0 := by omega
  have hup : (((maxExponent + k : ℕ) : ℤ) - 1).toNat = maxExponent - 1 + k := by omega
  have hg := h.of_dvd (four_dvd_half hw)
  rw [hdown, hup, pow_zero, Nat.mul_one, Nat.add_sub_cancel] at hg
  have hle := (hg.le_iff (2 ^ p * 2)).2 (by
    rw [pow_succ] at hm
    linarith)
  have hval := mag_normal (p := p) hmax (Nat.two_pow_pos p)
  rw [Nat.add_zero, Nat.add_zero] at hval
  rw [hval]
  have hscale : 2 ^ v * (2 ^ p * 2) * (d * 2 ^ (maxExponent - 1 + k))
      = 2 ^ p * 2 ^ (maxExponent - 1) * d * 2 ^ k * 2 ^ (v + 1) := by
    rw [pow_add, pow_succ]
    ring
  rw [hscale] at hle
  have hle' := Nat.le_of_mul_le_mul_right hle (Nat.two_pow_pos _)
  exact Nat.le_trans (Nat.le_mul_of_pos_right _ (Nat.two_pow_pos k)) hle'

/-- A string with an exponent of the format is rounded where it stands. -/
theorem nearest_of_normal {e f : ℕ} (maxExponent : ℕ) (hd : 0 < d) (hw : 3 ≤ w) (hlo : lo < 2 ^ w)
    (hf : f < 2 ^ p) (he : 1 ≤ e) (hmax : e < maxExponent)
    (h : Scaled w n d e ((2 ^ p + f) * 2 ^ w + lo)) :
    Nearest p (maxExponent * 2 ^ p) n d (roundBits w lo (e * 2 ^ p + f)) := by
  have hpos : 0 < 2 ^ p := Nat.two_pow_pos p
  have hdiv : (e * 2 ^ p + f) / 2 ^ p = e := by
    rw [Nat.mul_comm, Nat.mul_add_div hpos, Nat.div_eq_of_lt hf, Nat.add_zero]
  have hmod : (e * 2 ^ p + f) % 2 ^ p = f := by
    rw [Nat.mul_comm, Nat.mul_add_mod, Nat.mod_eq_of_lt hf]
  have hge : 2 ^ p ≤ e * 2 ^ p := Nat.le_mul_of_pos_left _ he
  have hlt : e * 2 ^ p + f < maxExponent * 2 ^ p := by
    have := Nat.mul_le_mul_right (2 ^ p) hmax
    rw [Nat.succ_mul] at this
    omega
  apply nearest_roundBits hd (by omega) hlt hlo
  have hdown : (1 - (e : ℤ)).toNat = 0 := by omega
  have hup : ((e : ℤ) - 1).toNat = e - 1 := by omega
  have hg := h.of_dvd (four_dvd_half hw)
  rw [hdown, hup, pow_zero, Nat.mul_one] at hg
  rw [significand, if_neg (by omega), hdiv, hmod]
  exact hg

/-- A jammed string is not longer than a plain shift of it would be, up to the last bit. -/
theorem jam_lt {m k b : ℕ} (h : m < 2 ^ (b + 1 + k)) : jam m k < 2 ^ (b + 1) := by
  have hdiv : m / 2 ^ k < 2 ^ (b + 1) := by
    rw [Nat.div_lt_iff_lt_mul (Nat.two_pow_pos k), ← pow_add]
    exact h
  rw [jam_eq]
  rw [pow_succ] at hdiv ⊢
  split <;> omega

/-- A string with an exponent below the format's is shifted into the denormals first. -/
theorem nearest_of_denormal {e : ℤ} {m : ℕ} (maxExponent : ℕ) (hd : 0 < d) (hw : 3 ≤ w)
    (hmax : 1 ≤ maxExponent) (h : Scaled w n d e m) (hm : m < 2 ^ (p + 1 + w)) (he : e ≤ 0) :
    Nearest p (maxExponent * 2 ^ p) n d
      (roundBits w (jam m (1 - e).toNat % 2 ^ w) (jam m (1 - e).toNat / 2 ^ w)) := by
  obtain ⟨k, rfl⟩ : ∃ k : ℕ, e = -(k : ℤ) := ⟨(-e).toNat, by omega⟩
  have hdown : (1 - -(k : ℤ)).toNat = k + 1 := by omega
  have hup : (-(k : ℤ) - 1).toNat = 0 := by omega
  rw [Scaled, hdown, hup, pow_zero, Nat.mul_one] at h
  rw [hdown]
  have hfour : 4 ∣ 2 * 2 ^ (k + 1) := ⟨2 ^ k, by rw [pow_succ]; ring⟩
  have hjam := (h.jam hfour).of_dvd (k := 2 ^ (w - 1)) (dvd_pow_self 2 (by omega))
  have hlt : jam m (k + 1) < 2 ^ (p + w) := by
    obtain ⟨b, hb⟩ : ∃ b, p + w = b + 1 := ⟨p + w - 1, by omega⟩
    rw [hb]
    apply jam_lt
    apply Nat.lt_of_lt_of_le hm
    exact Nat.pow_le_pow_right (by omega) (by omega)
  have hden : jam m (k + 1) / 2 ^ w < 2 ^ p := by
    rw [Nat.div_lt_iff_lt_mul (Nat.two_pow_pos w), ← pow_add]
    exact hlt
  have htop : jam m (k + 1) / 2 ^ w < maxExponent * 2 ^ p :=
    Nat.lt_of_lt_of_le hden (Nat.le_mul_of_pos_left _ hmax)
  apply nearest_roundBits hd (by omega) htop (Nat.mod_lt _ (Nat.two_pow_pos w))
  rw [significand, if_pos hden, Nat.div_eq_of_lt hden, Nat.zero_sub, pow_zero, Nat.mul_one,
    Nat.div_add_mod']
  apply hjam.congr (by positivity) hd
  ring

end RoundBits

end Fp
end F32c
