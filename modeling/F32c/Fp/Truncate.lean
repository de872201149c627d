import F32c.Fp.Extend

/-!
# Narrowing

`__truncdfsf2`. The range of normal results is found by one test with the two limits. What
lies below is denormalized with a sticky bit, what lies above becomes an infinity. The
upper limit itself, `2 ^ 128`, is compared with the wrong sign of equality and reaches the
denormalizing branch, whose shift then has a negative count.
-/

namespace F32c
namespace Fp

namespace FpLib

/-- The rounding of the significand, with the bits that do not fit. -/
def roundNarrow (roundMask halfway bits absResult : ℕ) : ℕ :=
  let roundBits := bits &&& roundMask
  if halfway < roundBits then absResult + 1
  else if roundBits = halfway then absResult + (absResult &&& 1)
  else absResult

/-- The magnitude of the narrower number; `negativeShift` is a shift by a negative count. -/
def truncateAbs (W N : FpLib) (negativeShift : ℕ → ℤ → ℕ) (aRep : ℕ) : ℕ :=
  let roundMask := 1 <<< (W.significandBits - N.significandBits) - 1
  let halfway := 1 <<< (W.significandBits - N.significandBits - 1)
  let underflow := W.shl (W.exponentBias + 1 - N.exponentBias) W.significandBits
  let overflow := W.shl (W.exponentBias + N.maxExponent - N.exponentBias) W.significandBits
  let dstQNaN := N.quietBit
  let dstNaNCode := dstQNaN - 1
  let aAbs := aRep &&& W.absMask
  if wrapSub W.typeWidth aAbs underflow < wrapSub W.typeWidth aAbs overflow then
    let absResult := aAbs >>> (W.significandBits - N.significandBits) % 2 ^ N.typeWidth
    let absResult := wrapSub N.typeWidth absResult
      (N.shl (W.exponentBias - N.exponentBias) N.significandBits)
    roundNarrow roundMask halfway aAbs absResult
  else if W.infRep < aAbs then
    N.shl N.maxExponent N.significandBits ||| dstQNaN ||| aAbs &&& dstNaNCode
  else if overflow < aAbs then
    N.shl N.maxExponent N.significandBits
  else
    let aExp := aAbs >>> W.significandBits
    let shift : ℤ := (W.exponentBias : ℤ) - N.exponentBias - aExp + 1
    let significand := aRep &&& W.significandMask ||| W.implicitBit
    if W.significandBits < shift then
      0
    else
      let sticky := bit (W.shl significand (W.typeWidth - shift).toNat ≠ 0)
      let shifted :=
        if 0 ≤ shift then significand >>> shift.toNat else negativeShift significand shift
      let denormalizedSignificand := shifted ||| sticky
      let absResult := denormalizedSignificand >>> (W.significandBits - N.significandBits)
        % 2 ^ N.typeWidth
      roundNarrow roundMask halfway denormalizedSignificand absResult

/-- The text of `__truncdfsf2`, from the format `W` to the format `N`. -/
def truncate (W N : FpLib) (negativeShift : ℕ → ℤ → ℕ) (a : ℕ) : ℕ :=
  let sign := a &&& W.signBit
  truncateAbs W N negativeShift a ||| sign >>> (W.typeWidth - N.typeWidth)

/-- The narrower number is the value rounded to nearest. -/
structure NarrowsSpec (W N : FpLib) (a r : ℕ) : Prop where
  negative : N.negative r = W.negative a
  nan : W.IsNaN a → N.IsNaN r
  inf : W.IsInf a → N.IsInf r
  finite : W.IsFinite a →
    Nearest N.significandBits N.infRep (W.units a * N.units N.oneRep) (W.units W.oneRep)
      (N.magnitude r)

end FpLib

/-- `__truncdfsf2` -/
def truncdfsf2 (overshift : ℕ → ℕ → ℕ) (negativeShift : ℕ → ℤ → ℕ) (a : ℕ) : ℕ :=
  FpLib.truncate (double overshift) (single overshift) negativeShift a


section Narrowing

variable {N W : FpLib} {t b x p n d : ℕ}

open FpLib

theorem roundNarrow_eq (t bits r : ℕ) :
    roundNarrow (1 <<< t - 1) (1 <<< (t - 1)) bits r = roundBits t (bits % 2 ^ t) r := by
  simp only [roundNarrow, roundBits, Nat.one_shiftLeft, Nat.and_two_pow_sub_one_eq_mod,
    Nat.and_one_is_mod]

/-- A subtraction of truncated words is that of the numbers when the difference fits. -/
theorem wrapSub_mod {w y c : ℕ} (hle : c ≤ y) (hlt : y - c < 2 ^ w) :
    wrapSub w (y % 2 ^ w) (c % 2 ^ w) = y - c := by
  obtain ⟨r, rfl⟩ : ∃ r, y = c + r := ⟨y - c, by omega⟩
  rw [Nat.add_sub_cancel_left] at hlt ⊢
  have hpos := Nat.two_pow_pos w
  have hc := Nat.mod_lt c hpos
  rw [wrapSub, Nat.add_mod c r, Nat.mod_eq_of_lt hlt]
  generalize c % 2 ^ w = c' at *
  generalize 2 ^ w = m at *
  rcases Nat.lt_or_ge (c' + r) m with h | h
  · rw [Nat.mod_eq_of_lt h, show c' + r + m - c' = m + r by omega, Nat.add_mod_left,
      Nat.mod_eq_of_lt hlt]
  · rw [Nat.mod_eq_sub_mod h, Nat.mod_eq_of_lt (show c' + r - m < m by omega),
      show c' + r - m + m - c' = r by omega, Nat.mod_eq_of_lt hlt]

/-- The one test for normal results: between the two limits. -/
theorem wrapSub_lt_wrapSub_iff {w low high : ℕ} (hlow : low < high) (hhigh : high < 2 ^ w)
    (hx : x < 2 ^ w) :
    wrapSub (w + 1) x low < wrapSub (w + 1) x high ↔ low ≤ x ∧ x < high := by
  rw [wrapSub, wrapSub, pow_succ]
  generalize 2 ^ w = m at *
  have hword : ∀ l, l < m → (x + m * 2 - l) % (m * 2) = if l ≤ x then x - l else x + m * 2 - l := by
    intro l hl
    split
    next h =>
      rw [show x + m * 2 - l = m * 2 + (x - l) by omega, Nat.add_mod_left, Nat.mod_eq_of_lt]
      omega
    next h => exact Nat.mod_eq_of_lt (by omega)
  rw [hword low (by omega), hword high hhigh]
  split <;> split <;> omega

/-- A value with a normal result is rounded where it stands. -/
theorem nearest_narrow_normal {top e f : ℕ} (ht : 1 ≤ t) (he : 1 ≤ e) (hf : f < 2 ^ (p + t))
    (htop : e * 2 ^ p + f / 2 ^ t < top) (b : ℕ) :
    Nearest p top (mag (p + t) ((e + b) * 2 ^ (p + t) + f)) (2 ^ (t + b))
      (roundBits t (f % 2 ^ t) (e * 2 ^ p + f / 2 ^ t)) := by
  have hpos := Nat.two_pow_pos p
  have hfield : f / 2 ^ t < 2 ^ p := by
    rw [Nat.div_lt_iff_lt_mul (Nat.two_pow_pos t), ← pow_add]
    exact hf
  have hdiv : (e * 2 ^ p + f / 2 ^ t) / 2 ^ p = e := by
    rw [Nat.mul_comm, Nat.mul_add_div hpos, Nat.div_eq_of_lt hfield, Nat.add_zero]
  have hmod : (e * 2 ^ p + f / 2 ^ t) % 2 ^ p = f / 2 ^ t := by
    rw [Nat.mul_comm, Nat.mul_add_mod, Nat.mod_eq_of_lt hfield]
  have hge : 2 ^ p ≤ e * 2 ^ p := Nat.le_mul_of_pos_left _ he
  have hstring : significand p (e * 2 ^ p + f / 2 ^ t) * 2 ^ t + f % 2 ^ t = 2 ^ (p + t) + f := by
    rw [significand, if_neg (by omega), hmod, Nat.add_mul, Nat.add_assoc, Nat.div_add_mod',
      ← pow_add]
  have hscale : mag (p + t) ((e + b) * 2 ^ (p + t) + f) * 2 ^ t
      = (2 ^ (p + t) + f) * (2 ^ (t + b) * 2 ^ (e - 1)) := by
    rw [mag_normal (by omega) hf, Nat.mul_assoc, ← pow_add, ← pow_add]
    congr 2
    omega
  apply nearest_roundBits (Nat.two_pow_pos _) ht htop (Nat.mod_lt _ (Nat.two_pow_pos t))
  rw [hdiv, hstring, hscale]
  exact Agrees.exact (by positivity) _ _

/-- The upper limit is the value of the narrower format's infinity. -/
theorem mag_upper_limit {maxExponent : ℕ} (hmax : 1 ≤ maxExponent) (t b : ℕ) :
    mag (p + t) ((maxExponent + b) * 2 ^ (p + t))
      = mag p (maxExponent * 2 ^ p) * 2 ^ (t + b) := by
  have h := mag_widen_normal (Nat.le_mul_of_pos_left (2 ^ p) hmax) t b
  rw [Nat.mul_assoc, ← pow_add, ← Nat.add_mul] at h
  exact h

/-- A value from the upper limit on rounds to infinity. -/
theorem nearest_narrow_overflow (maxExponent : ℕ) (hmax : 1 ≤ maxExponent)
    (hx : (maxExponent + b) * 2 ^ (p + t) ≤ x) :
    Nearest p (maxExponent * 2 ^ p) (mag (p + t) x) (2 ^ (t + b)) (maxExponent * 2 ^ p) := by
  apply nearest_top (Nat.two_pow_pos _)
  rw [← mag_upper_limit hmax, mag_le_mag]
  exact hx

/-- A value whose bits are all shifted out rounds to zero. -/
theorem nearest_narrow_zero {top : ℕ} (hp : 1 ≤ p) (ht : 1 ≤ t)
    (hx : x / 2 ^ (p + t) + (p + t) ≤ b) :
    Nearest p top (mag (p + t) x) (2 ^ (t + b)) 0 := by
  apply nearest_zero hp
  have hpb : p + t ≤ b := Nat.le_trans (Nat.le_add_left _ _) hx
  have hlt : x < (b - (p + t) + 1) * 2 ^ (p + t) :=
    (Nat.div_lt_iff_lt_mul (Nat.two_pow_pos _)).1 (by omega)
  have hlimit := mag_normal (p := p + t) (show 1 ≤ b - (p + t) + 1 by omega)
    (Nat.two_pow_pos (p + t))
  simp only [Nat.add_zero, Nat.add_sub_cancel] at hlimit
  rw [← pow_add,
    show p + t + (b - (p + t)) = b by omega] at hlimit
  have hmag := (mag_lt_mag (p := p + t)).2 hlt
  rw [hlimit] at hmag
  have hdouble : 2 * 2 ^ b ≤ 2 ^ (t + b) := by
    rw [Nat.mul_comm, ← pow_succ]
    exact Nat.pow_le_pow_right (by decide) (by omega)
  omega

/-- A value with a denormal result is shifted down with a sticky bit and rounded. -/
theorem nearest_narrow_denormal {e f : ℕ} (maxExponent : ℕ) (hmax : 1 ≤ maxExponent) (ht : 3 ≤ t)
    (he : 1 ≤ e) (heb : e ≤ b) (hf : f < 2 ^ (p + t)) :
    Nearest p (maxExponent * 2 ^ p) (mag (p + t) (e * 2 ^ (p + t) + f)) (2 ^ (t + b))
      (roundBits t (jam (2 ^ (p + t) + f) (b + 1 - e) % 2 ^ t)
        (jam (2 ^ (p + t) + f) (b + 1 - e) / 2 ^ t)) := by
  have hcount : (1 - ((e : ℤ) - b)).toNat = b + 1 - e := by omega
  have hup : ((e : ℤ) - b - 1).toNat = 0 := by omega
  have hnum : mag (p + t) (e * 2 ^ (p + t) + f) * 2 ^ t * 2 ^ (b + 1 - e)
      = (2 ^ (p + t) + f) * 2 ^ (t + b) := by
    rw [mag_normal he hf, Nat.mul_assoc, Nat.mul_assoc, ← pow_add, ← pow_add]
    congr 2
    omega
  have hscaled : Scaled t (mag (p + t) (e * 2 ^ (p + t) + f)) (2 ^ (t + b)) ((e : ℤ) - b)
      (2 ^ (p + t) + f) := by
    rw [Scaled, hcount, hup, hnum, pow_zero, Nat.mul_one]
    exact Agrees.exact (Nat.two_pow_pos _) _ _
  have hlt : 2 ^ (p + t) + f < 2 ^ (p + 1 + t) := by
    rw [Nat.add_right_comm, pow_succ]
    omega
  have hnear := nearest_of_denormal maxExponent (Nat.two_pow_pos (t + b)) ht hmax hscaled hlt
    (by omega)
  rw [hcount] at hnear
  exact hnear

/-- The two limits, and that both are finite numbers of the wider format. -/
theorem narrow_limits (h : Wider N W t b) :
    W.shl (W.exponentBias + 1 - N.exponentBias) W.significandBits
        = (b + 1) * 2 ^ W.significandBits ∧
      W.shl (W.exponentBias + N.maxExponent - N.exponentBias) W.significandBits
        = (N.maxExponent + b) * 2 ^ W.significandBits ∧
      (b + 1) * 2 ^ W.significandBits < (N.maxExponent + b) * 2 ^ W.significandBits ∧
      (N.maxExponent + b) * 2 ^ W.significandBits < W.infRep := by
  have hbias := h.exponentBias_eq
  have hmax := h.source.seven_le_maxExponent
  have hroom := h.room
  have hwidth := h.target.typeWidth_eq
  have hexp := h.target.four_le_exponentBits
  have hpos := Nat.two_pow_pos W.significandBits
  have hlow : (b + 1) * 2 ^ W.significandBits < (N.maxExponent + b) * 2 ^ W.significandBits :=
    Nat.mul_lt_mul_of_pos_right (by omega) hpos
  have hhigh : (N.maxExponent + b) * 2 ^ W.significandBits < W.infRep := by
    rw [infRep_eq W]
    exact Nat.mul_lt_mul_of_pos_right hroom hpos
  have hfit := lt_word_of_lt_infRep h.target hhigh
  rw [show W.exponentBias + 1 - N.exponentBias = b + 1 by omega,
    show W.exponentBias + N.maxExponent - N.exponentBias = N.maxExponent + b by omega,
    shl_eq (by omega) hfit, shl_eq (by omega) (Nat.lt_trans hlow hfit)]
  exact ⟨rfl, rfl, hlow, hhigh⟩

/-- The test for a normal result. -/
theorem narrow_test (h : Wider N W t b) (a : ℕ) :
    wrapSub W.typeWidth (W.magnitude a) ((b + 1) * 2 ^ W.significandBits)
        < wrapSub W.typeWidth (W.magnitude a) ((N.maxExponent + b) * 2 ^ W.significandBits) ↔
      (b + 1) * 2 ^ W.significandBits ≤ W.magnitude a ∧
        W.magnitude a < (N.maxExponent + b) * 2 ^ W.significandBits := by
  obtain ⟨-, -, hlow, hhigh⟩ := narrow_limits h
  rw [show W.typeWidth = W.significandBits + W.exponentBits + 1 by
    rw [h.target.typeWidth_eq]
    omega]
  exact wrapSub_lt_wrapSub_iff hlow (Nat.lt_trans hhigh (infRep_lt W)) (magnitude_lt W a)

section Cases

variable (negativeShift : ℕ → ℤ → ℕ) {a : ℕ}

/-- A normal result. -/
theorem truncateAbs_normal (h : Wider N W t b) (ht : 1 ≤ t)
    (hlow : (b + 1) * 2 ^ W.significandBits ≤ W.magnitude a)
    (hhigh : W.magnitude a < (N.maxExponent + b) * 2 ^ W.significandBits) :
    Nearest N.significandBits N.infRep (mag W.significandBits (W.magnitude a)) (2 ^ (t + b))
      (truncateAbs W N negativeShift a) := by
  obtain ⟨hunder, hover, -, -⟩ := narrow_limits h
  have htest := (narrow_test h a).2 ⟨hlow, hhigh⟩
  have hbits := h.significandBits_eq
  have hbias := h.exponentBias_eq
  have hwidth := h.source.typeWidth_eq
  have hexp := h.source.four_le_exponentBits
  have hWpos := Nat.two_pow_pos W.significandBits
  have hfield := Nat.mod_lt (W.magnitude a) hWpos
  have hsplit := eq_exponent_add W.significandBits (W.magnitude a)
  have he1 : b + 1 ≤ W.magnitude a / 2 ^ W.significandBits := (Nat.le_div_iff_mul_le hWpos).2 hlow
  have he2 : W.magnitude a / 2 ^ W.significandBits < N.maxExponent + b :=
    (Nat.div_lt_iff_lt_mul hWpos).2 hhigh
  generalize W.magnitude a / 2 ^ W.significandBits = E at hsplit he1 he2
  generalize W.magnitude a % 2 ^ W.significandBits = f at hsplit hfield
  obtain ⟨e, rfl⟩ : ∃ e, E = e + b := ⟨E - b, by omega⟩
  rw [hbits] at hsplit hfield
  have hpow : 2 ^ (N.significandBits + t) = 2 ^ N.significandBits * 2 ^ t := pow_add _ _ _
  have hdiv : W.magnitude a / 2 ^ t = (e + b) * 2 ^ N.significandBits + f / 2 ^ t := by
    rw [hsplit, hpow, ← Nat.mul_assoc, Nat.mul_comm _ (2 ^ t), Nat.mul_add_div (Nat.two_pow_pos t)]
  have hmod : W.magnitude a % 2 ^ t = f % 2 ^ t := by
    rw [hsplit, hpow, ← Nat.mul_assoc, Nat.mul_comm _ (2 ^ t), Nat.mul_add_mod]
  have hsmall : f / 2 ^ t < 2 ^ N.significandBits := by
    rw [Nat.div_lt_iff_lt_mul (Nat.two_pow_pos t), ← hpow]
    exact hfield
  have htop : e * 2 ^ N.significandBits + f / 2 ^ t < N.infRep := by
    have := Nat.mul_le_mul_right (2 ^ N.significandBits) (show e + 1 ≤ N.maxExponent by omega)
    rw [Nat.succ_mul, ← infRep_eq] at this
    omega
  have hrebias : N.shl (W.exponentBias - N.exponentBias) N.significandBits
      = b * 2 ^ N.significandBits % 2 ^ N.typeWidth := by
    rw [shl, if_pos (by omega), Nat.shiftLeft_eq, show W.exponentBias - N.exponentBias = b by omega]
  have hresult : wrapSub N.typeWidth (W.magnitude a / 2 ^ t % 2 ^ N.typeWidth)
      (b * 2 ^ N.significandBits % 2 ^ N.typeWidth) = e * 2 ^ N.significandBits + f / 2 ^ t := by
    have hsub : W.magnitude a / 2 ^ t - b * 2 ^ N.significandBits
        = e * 2 ^ N.significandBits + f / 2 ^ t := by
      rw [hdiv, Nat.add_mul, Nat.add_right_comm, Nat.add_sub_cancel]
    have hle : b * 2 ^ N.significandBits ≤ W.magnitude a / 2 ^ t := by
      rw [hdiv, Nat.add_mul]
      exact Nat.le_trans (Nat.le_add_left _ _) (Nat.le_add_right _ _)
    rw [wrapSub_mod hle, hsub]
    rw [hsub]
    exact lt_word_of_lt_infRep h.source htop
  have hnear := nearest_narrow_normal ht (show 1 ≤ e by omega) hfield htop b
  rw [← hsplit, ← hbits, ← hmod, ← hresult] at hnear
  simp only [truncateAbs, hunder, hover, and_absMask, if_pos htest, Nat.shiftRight_eq_div_pow,
    show W.significandBits - N.significandBits = t by omega, roundNarrow_eq, hrebias]
  exact hnear

/-- A result that is denormal or zero. -/
theorem truncateAbs_small (h : Wider N W t b) (ht : 3 ≤ t) (hfar : W.significandBits ≤ b)
    (hsmall : W.magnitude a < (b + 1) * 2 ^ W.significandBits) :
    Nearest N.significandBits N.infRep (mag W.significandBits (W.magnitude a)) (2 ^ (t + b))
      (truncateAbs W N negativeShift a) := by
  obtain ⟨hunder, hover, hlow, hhigh⟩ := narrow_limits h
  have htest : ¬ _ := mt (narrow_test h a).1 (fun hn => Nat.not_le_of_gt hsmall hn.1)
  have hbits := h.significandBits_eq
  have hbias := h.exponentBias_eq
  have hwidth := h.target.typeWidth_eq
  have hexp := h.target.four_le_exponentBits
  have hp := h.source.two_le_significandBits
  have hWpos := Nat.two_pow_pos W.significandBits
  have hfield := Nat.mod_lt (W.magnitude a) hWpos
  have hsplit := eq_exponent_add W.significandBits (W.magnitude a)
  have heb : W.magnitude a / 2 ^ W.significandBits < b + 1 :=
    (Nat.div_lt_iff_lt_mul hWpos).2 hsmall
  have hsig : a &&& W.significandMask ||| W.implicitBit
      = 2 ^ W.significandBits + W.magnitude a % 2 ^ W.significandBits := by
    rw [significand_eq]
    exact or_implicitBit_of_lt hfield
  generalize hE : W.magnitude a / 2 ^ W.significandBits = E at hsplit heb
  generalize W.magnitude a % 2 ^ W.significandBits = f at hsplit hfield hsig
  have hshift : (W.exponentBias : ℤ) - N.exponentBias - E + 1 = (b + 1 - E : ℕ) := by omega
  simp only [truncateAbs, hunder, hover, and_absMask, if_neg htest,
    if_neg (show ¬ W.infRep < W.magnitude a by omega),
    if_neg (show ¬ (N.maxExponent + b) * 2 ^ W.significandBits < W.magnitude a by omega),
    Nat.shiftRight_eq_div_pow, hE, hsig, hshift]
  by_cases hzero : W.significandBits < b + 1 - E
  · rw [if_pos (by omega), hbits]
    exact nearest_narrow_zero (by omega) (by omega) (by rw [← hbits, hE]; omega)
  · have hsticky := shift_sticky_eq (L := W) (show 1 ≤ b + 1 - E by omega) (by omega)
      (2 ^ W.significandBits + f)
    have hcount : ((W.typeWidth : ℤ) - (b + 1 - E : ℕ)).toNat = W.typeWidth - (b + 1 - E) := by
      omega
    have hlt : jam (2 ^ W.significandBits + f) (b + 1 - E) < 2 ^ (W.significandBits + 1) := by
      have htop : 2 ^ W.significandBits + f < 2 ^ (W.significandBits + 1) := by
        rw [pow_succ]
        omega
      apply jam_lt
      exact Nat.lt_of_lt_of_le htop (Nat.pow_le_pow_right (by decide) (by omega))
    have hword : jam (2 ^ W.significandBits + f) (b + 1 - E) / 2 ^ t % 2 ^ N.typeWidth
        = jam (2 ^ W.significandBits + f) (b + 1 - E) / 2 ^ t := by
      apply Nat.mod_eq_of_lt
      rw [Nat.div_lt_iff_lt_mul (Nat.two_pow_pos t), ← pow_add]
      apply Nat.lt_of_lt_of_le hlt
      have := h.source.typeWidth_eq
      exact Nat.pow_le_pow_right (by decide) (by omega)
    rw [Nat.shiftRight_eq_div_pow] at hsticky
    have hnear := nearest_narrow_denormal (p := N.significandBits) N.maxExponent
      (by have := h.source.seven_le_maxExponent; omega) ht (show 1 ≤ E by omega)
      (show E ≤ b by omega) (by rwa [← hbits])
    rw [← hbits, ← hsplit, ← infRep_eq] at hnear
    rw [if_neg (by omega), if_pos (by omega), Int.toNat_natCast, hcount, hsticky,
      show W.significandBits - N.significandBits = t by omega, roundNarrow_eq, hword]
    exact hnear

/-- A result that is too large, or was infinite before. -/
theorem truncateAbs_large (h : Wider N W t b)
    (hlarge : (N.maxExponent + b) * 2 ^ W.significandBits < W.magnitude a)
    (hnan : W.magnitude a ≤ W.infRep) : truncateAbs W N negativeShift a = N.infRep := by
  obtain ⟨hunder, hover, -, -⟩ := narrow_limits h
  have htest : ¬ _ := mt (narrow_test h a).1 (fun hn => Nat.lt_asymm hlarge hn.2)
  simp only [truncateAbs, hunder, hover, and_absMask, if_neg htest,
    if_neg (Nat.not_lt_of_le hnan), if_pos hlarge, shl_maxExponent h.source]

/-- A NaN keeps the low stored bits and gets the quiet one. -/
theorem truncateAbs_nan (h : Wider N W t b) (hnan : W.infRep < W.magnitude a) :
    ∃ y, 0 < y ∧ y < 2 ^ N.significandBits ∧
      truncateAbs W N negativeShift a = N.infRep + y := by
  obtain ⟨hunder, hover, -, hhigh⟩ := narrow_limits h
  have htest : ¬ _ := mt (narrow_test h a).1
    (fun hn => Nat.lt_asymm (Nat.lt_trans hhigh hnan) hn.2)
  obtain ⟨q, hq⟩ : ∃ q, N.significandBits = q + 1 :=
    ⟨N.significandBits - 1, by have := h.source.two_le_significandBits; omega⟩
  have hquiet : N.quietBit = 2 ^ q := by
    rw [quietBit_eq h.source, hq, Nat.add_sub_cancel]
  have hmod := Nat.mod_lt (W.magnitude a) (Nat.two_pow_pos q)
  have hor : 2 ^ q ||| W.magnitude a % 2 ^ q = 2 ^ q + W.magnitude a % 2 ^ q := by
    have := Nat.two_pow_add_eq_or_of_lt hmod 1
    rw [Nat.mul_one] at this
    exact this.symm
  have hlt : 2 ^ q + W.magnitude a % 2 ^ q < 2 ^ N.significandBits := by
    rw [hq, pow_succ]
    omega
  refine ⟨2 ^ q + W.magnitude a % 2 ^ q, by have := Nat.two_pow_pos q; omega, hlt, ?_⟩
  simp only [truncateAbs, hunder, hover, and_absMask, if_neg htest, if_pos hnan,
    shl_maxExponent h.source, hquiet, Nat.and_two_pow_sub_one_eq_mod]
  rw [Nat.or_assoc, hor, infRep_eq, Nat.mul_comm, Nat.two_pow_add_eq_or_of_lt hlt]

/-- Every finite magnitude but the upper limit is rounded to nearest. -/
theorem truncateAbs_finite (h : Wider N W t b) (ht : 3 ≤ t) (hfar : W.significandBits ≤ b)
    (hfin : W.magnitude a < W.infRep)
    (hne : W.magnitude a ≠ (N.maxExponent + b) * 2 ^ W.significandBits) :
    Nearest N.significandBits N.infRep (mag W.significandBits (W.magnitude a)) (2 ^ (t + b))
      (truncateAbs W N negativeShift a) := by
  rcases Nat.lt_or_ge (W.magnitude a) ((b + 1) * 2 ^ W.significandBits) with hsmall | hlow
  · exact truncateAbs_small negativeShift h ht hfar hsmall
  rcases Nat.lt_or_ge (W.magnitude a) ((N.maxExponent + b) * 2 ^ W.significandBits) with
    hhigh | hlarge
  · exact truncateAbs_normal negativeShift h (by omega) hlow hhigh
  · rw [truncateAbs_large negativeShift h (by omega) (Nat.le_of_lt hfin), infRep_eq,
      h.significandBits_eq]
    rw [h.significandBits_eq] at hlarge
    have hmax := h.source.seven_le_maxExponent
    exact nearest_narrow_overflow N.maxExponent (by omega) hlarge

/-- The sign is shifted down to the top of the narrower word. -/
theorem shiftRight_sign (h : Wider N W t b) (s : Bool) :
    W.withSign s 0 >>> (W.typeWidth - N.typeWidth) = N.withSign s 0 := by
  have hsource := h.source.typeWidth_eq
  have htarget := h.target.typeWidth_eq
  have hbits := h.significandBits_eq
  have hexp := h.exponentBits_le
  have hsplit : W.significandBits + W.exponentBits
      = N.significandBits + N.exponentBits + (W.typeWidth - N.typeWidth) := by omega
  rw [withSign, withSign, Nat.add_zero, Nat.add_zero, Nat.shiftRight_eq_div_pow, hsplit, pow_add,
    ← Nat.mul_assoc, Nat.mul_div_cancel _ (Nat.two_pow_pos _)]

theorem truncate_eq (h : Wider N W t b) {m : ℕ} (hm : truncateAbs W N negativeShift a = m)
    (hlt : m < 2 ^ (N.significandBits + N.exponentBits)) :
    truncate W N negativeShift a = N.withSign (W.negative a) m := by
  simp only [truncate, and_signBit, hm, shiftRight_sign h]
  exact or_withSign _ hlt

/-- The conversion of every number but the two at the upper limit. -/
theorem truncate_spec (h : Wider N W t b) (ht : 3 ≤ t) (hfar : W.significandBits ≤ b)
    (hne : W.magnitude a ≠ (N.maxExponent + b) * 2 ^ W.significandBits) :
    NarrowsSpec W N a (truncate W N negativeShift a) := by
  obtain ⟨-, -, -, hhigh⟩ := narrow_limits h
  rcases Nat.lt_trichotomy (W.magnitude a) W.infRep with hfin | hinf | hnan
  · have hnear := truncateAbs_finite negativeShift h ht hfar hfin hne
    have hroom := Nat.lt_of_le_of_lt hnear.1 (infRep_lt N)
    rw [truncate_eq negativeShift h rfl hroom]
    refine ⟨negative_withSign _ hroom, fun hn => absurd hn (Nat.lt_asymm hfin),
      fun hi => absurd hi (Nat.ne_of_lt hfin), fun _ => ?_⟩
    rw [magnitude_withSign _ hroom, h.units_oneRep, Nat.mul_comm (N.units N.oneRep)]
    exact hnear.scale (units_oneRep_pos h.source)
  · have hlarge := truncateAbs_large negativeShift h (by rwa [hinf])
      (Nat.le_of_eq hinf)
    have hroom := infRep_lt N
    rw [truncate_eq negativeShift h hlarge hroom]
    refine ⟨negative_withSign _ hroom, fun hn => absurd hinf (Nat.ne_of_gt hn),
      fun _ => magnitude_withSign _ hroom, fun hf => absurd hinf (Nat.ne_of_lt hf)⟩
  · obtain ⟨y, hpos, hlt, hm⟩ := truncateAbs_nan negativeShift h hnan
    have hroom : N.infRep + y < 2 ^ (N.significandBits + N.exponentBits) := infRep_add_lt N hlt
    rw [truncate_eq negativeShift h hm hroom]
    refine ⟨negative_withSign _ hroom, fun _ => ?_, fun hi => absurd hi (Nat.ne_of_gt hnan),
      fun hf => absurd hf (Nat.lt_asymm hnan)⟩
    rw [IsNaN, magnitude_withSign _ hroom]
    omega

/-- Widening and narrowing again changes nothing but NaNs. -/
theorem truncate_extend (h : Wider N W t b) (ht : 3 ≤ t) (hfar : W.significandBits ≤ b) {x : ℕ}
    (hx : x < 2 ^ N.typeWidth) (hnan : ¬ N.IsNaN x) :
    truncate W N negativeShift (FpLib.extend N W x) = x := by
  obtain ⟨-, -, -, hhigh⟩ := narrow_limits h
  have hwide := extend_spec h x
  have hone := h.units_oneRep
  have honepos := units_oneRep_pos h.source
  rcases Nat.lt_or_ge (N.magnitude x) N.infRep with hfin | hinf
  · obtain ⟨hm, hval⟩ := extendAbs_finite h hfin
    have hroom := Nat.lt_trans hm (infRep_lt W)
    have hshape := extend_eq h rfl hroom
    have hmag : W.magnitude (FpLib.extend N W x) = extendAbs N W (N.magnitude x) := by
      rw [hshape, magnitude_withSign _ hroom]
    have hne : W.magnitude (FpLib.extend N W x)
        ≠ (N.maxExponent + b) * 2 ^ W.significandBits := by
      intro heq
      rw [hmag] at heq
      rw [heq, h.significandBits_eq,
        mag_upper_limit (by have := h.source.seven_le_maxExponent; omega), ← infRep_eq] at hval
      exact Nat.ne_of_gt (mag_lt_mag.2 hfin) (Nat.eq_of_mul_eq_mul_right (Nat.two_pow_pos _) hval)
    have hnear := truncateAbs_finite negativeShift h ht hfar
      (by rwa [hmag]) hne
    rw [hmag, hval] at hnear
    have hexact := hnear.unique (Nat.two_pow_pos _)
      (nearest_exact (Nat.two_pow_pos _) (Nat.le_of_lt hfin))
    rw [truncate_eq negativeShift h hexact (Nat.lt_trans hfin (infRep_lt N)), hwide.negative,
      withSign_negative_magnitude h.source hx]
  · have hi : N.magnitude x = N.infRep := Nat.le_antisymm (Nat.le_of_not_lt hnan) hinf
    have hwi : W.magnitude (FpLib.extend N W x) = W.infRep := hwide.inf hi
    have hlarge := truncateAbs_large negativeShift h (by rwa [hwi])
      (Nat.le_of_eq hwi)
    rw [truncate_eq negativeShift h hlarge (infRep_lt N), hwide.negative, ← hi,
      withSign_negative_magnitude h.source hx]

/-- At the upper limit itself the shifts decide; here both give zero. -/
theorem truncateAbs_limit (h : Wider N W t b) (hover : ∀ x n, W.overshift x n = 0)
    (hlimit : W.magnitude a = (N.maxExponent + b) * 2 ^ W.significandBits) :
    truncateAbs W N (fun _ _ => 0) a = 0 := by
  obtain ⟨hunder, hupper, hlow, hhigh⟩ := narrow_limits h
  have hbias := h.exponentBias_eq
  have hmax := h.source.seven_le_maxExponent
  have htest : ¬ _ := mt (narrow_test h a).1 (fun hn => absurd hlimit (Nat.ne_of_lt hn.2))
  have hexponent : W.magnitude a / 2 ^ W.significandBits = N.maxExponent + b := by
    rw [hlimit, Nat.mul_div_cancel _ (Nat.two_pow_pos _)]
  have hshift : (W.exponentBias : ℤ) - N.exponentBias - (N.maxExponent + b : ℕ) + 1
      = 1 - N.maxExponent := by omega
  have hsticky : ∀ x : ℕ, W.shl x ((W.typeWidth : ℤ) - (1 - N.maxExponent)).toNat = 0 := by
    intro x
    rw [shl, if_neg (by omega), hover]
  simp only [truncateAbs, hunder, hupper, and_absMask, if_neg htest,
    if_neg (show ¬ W.infRep < W.magnitude a by omega),
    if_neg (show ¬ (N.maxExponent + b) * 2 ^ W.significandBits < W.magnitude a by omega),
    Nat.shiftRight_eq_div_pow, hexponent, hshift, hsticky]
  rw [if_neg (by omega), if_neg (by omega)]
  have hpos := Nat.two_pow_pos (W.significandBits - N.significandBits - 1)
  simp [roundNarrow, bit, Nat.one_shiftLeft]

end Cases

/-- The result for `2 ^ 128` is right only if the shifts the language leaves open are. -/
theorem not_narrows_limit (h : Wider N W t b) (hover : ∀ x n, W.overshift x n = 0) {a : ℕ}
    (hlimit : W.magnitude a = (N.maxExponent + b) * 2 ^ W.significandBits) :
    ¬ NarrowsSpec W N a (truncate W N (fun _ _ => 0) a) := by
  intro hspec
  obtain ⟨-, -, -, hhigh⟩ := narrow_limits h
  have hmax := h.source.seven_le_maxExponent
  have hfin : W.IsFinite a := by
    rw [IsFinite, hlimit]
    exact hhigh
  have hzero : N.magnitude (truncate W N (fun _ _ => 0) a) = 0 := by
    rw [truncate_eq (fun _ _ => 0) h (truncateAbs_limit h hover hlimit) (Nat.two_pow_pos _),
      magnitude_withSign _ (Nat.two_pow_pos _)]
  have hnear := hspec.finite hfin
  rw [hzero, h.units_oneRep, Nat.mul_comm (N.units N.oneRep)] at hnear
  have htop := (nearest_narrow_overflow (p := N.significandBits) (t := t) (b := b)
    N.maxExponent (by omega) (Nat.le_refl _)).scale (units_oneRep_pos h.source)
  rw [← h.significandBits_eq, ← hlimit, ← infRep_eq] at htop
  have hpos := infRep_pos h.source
  have hone := units_oneRep_pos h.source
  have heq := hnear.unique (Nat.mul_pos (Nat.two_pow_pos _) hone) htop
  omega

/--
`__truncdfsf2` rounds every number to nearest, whatever the shifts by too much or too little
give, if and only if the magnitude is not that of `2 ^ 128`.
-/
theorem truncdfsf2_spec (a : ℕ) :
    (∀ overshift negativeShift, NarrowsSpec (double overshift) (single overshift) a
      (truncdfsf2 overshift negativeShift a)) ↔ a % 2 ^ 63 ≠ 0x47f0000000000000 := by
  have hlimit : ∀ overshift, ((single overshift).maxExponent + 896)
      * 2 ^ (double overshift).significandBits = 0x47f0000000000000 := by
    intro overshift
    rw [single_maxExponent]
    show (255 + 896) * 2 ^ 52 = 0x47f0000000000000
    norm_num
  have hmag : ∀ overshift, (double overshift).magnitude a = a % 2 ^ 63 := by
    intro overshift
    rw [magnitude, double_exponentBits]
    show a % 2 ^ (52 + 11) = a % 2 ^ 63
    rw [show 52 + 11 = 63 by decide]
  constructor
  · intro hall heq
    exact not_narrows_limit (single_double_wider fun _ _ => 0) (fun _ _ => rfl)
      (by rw [hmag, hlimit, heq]) (hall (fun _ _ => 0) fun _ _ => 0)
  · intro hne overshift negativeShift
    exact truncate_spec negativeShift (single_double_wider overshift) (show 3 ≤ 29 by decide)
      (show 52 ≤ 896 by decide) (by rw [hmag, hlimit]; exact hne)

/-- A single-precision number comes back from double precision as it was. -/
theorem truncdfsf2_extendsfdf2 (overshift : ℕ → ℕ → ℕ) (negativeShift : ℕ → ℤ → ℕ) {a : ℕ}
    (ha : a < 2 ^ 32) (hnan : ¬ (single overshift).IsNaN a) :
    truncdfsf2 overshift negativeShift (extendsfdf2 overshift a) = a :=
  truncate_extend negativeShift (single_double_wider overshift) (show 3 ≤ 29 by decide)
    (show 52 ≤ 896 by decide) ha hnan

/-- The least denormal number, which is a normal one in between. -/
theorem truncdfsf2_extendsfdf2_denormal :
    truncdfsf2 (fun _ _ => 0) (fun _ _ => 0) (extendsfdf2 (fun _ _ => 0) 1) = 1 :=
  truncdfsf2_extendsfdf2 (fun _ _ => 0) (fun _ _ => 0) (by decide)
    (by rw [IsNaN]; decide)

end Narrowing

end Fp
end F32c
