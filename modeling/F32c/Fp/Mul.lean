import F32c.Fp.Lib

/-!
# Soft-float multiplication

`__mulsf3` and `__muldf3`. The two source files are the same text but for one guard:
at double precision a result that has been shifted out altogether is returned as a
zero before the shift. `multiply` is the common text, with what is done about a
result below the normal range as a parameter.

The product of two finite numbers is the exact product rounded to nearest, ties to
even, for every pair of operands, denormal or not, and with overflow and underflow.
That holds with the guard and without it, so the guard changes nothing.
-/

namespace F32c
namespace Fp

namespace FpLib

variable (L : FpLib)

/-- The results that do not need a product. -/
def mulSpecial (a b : ℕ) : Option ℕ :=
  let productSign := (a ^^^ b) &&& L.signBit
  let aAbs := a &&& L.absMask
  let bAbs := b &&& L.absMask
  if L.infRep < aAbs then
    some (a ||| L.quietBit)
  else if L.infRep < bAbs then
    some (b ||| L.quietBit)
  else if aAbs = L.infRep then
    if bAbs ≠ 0 then some (aAbs ||| productSign) else some L.qnanRep
  else if bAbs = L.infRep then
    if aAbs ≠ 0 then some (bAbs ||| productSign) else some L.qnanRep
  else if aAbs = 0 then
    some productSign
  else if bAbs = 0 then
    some productSign
  else
    none

/-- The two words of the product, normalized, and its exponent. -/
def product (a b aSignificand bSignificand : ℕ) (scale : ℤ) : ℕ × ℕ × ℤ :=
  let aExponent := a >>> L.significandBits &&& L.maxExponent
  let bExponent := b >>> L.significandBits &&& L.maxExponent
  let aSignificand := aSignificand ||| L.implicitBit
  let bSignificand := bSignificand ||| L.implicitBit
  let (productHi, productLo) := L.wideMultiply aSignificand (L.shl bSignificand L.exponentBits)
  let productExponent : ℤ := aExponent + bExponent - L.exponentBias + scale
  if productHi &&& L.implicitBit ≠ 0 then
    (productHi, productLo, productExponent + 1)
  else
    let (productHi, productLo) := L.wideLeftShift productHi productLo 1
    (productHi, productLo, productExponent)

/-- The sign and the final rounding. -/
def roundProduct (productSign productHi productLo : ℕ) : ℕ :=
  L.roundRep L.signBit productLo (productHi ||| productSign)

/-- A result below the normal range, as at single precision. -/
def underflow (productSign productHi productLo : ℕ) (productExponent : ℤ) : ℕ :=
  let (productHi, productLo) :=
    L.wideRightShiftWithSticky productHi productLo (1 - productExponent).toNat
  L.roundProduct productSign productHi productLo

/-- A result below the normal range, as at double precision. -/
def underflowGuarded (productSign productHi productLo : ℕ) (productExponent : ℤ) : ℕ :=
  let shift := 1 - productExponent
  if (L.typeWidth : ℤ) ≤ shift then
    productSign
  else
    let (productHi, productLo) := L.wideRightShiftWithSticky productHi productLo shift.toNat
    L.roundProduct productSign productHi productLo

/-- From the normalized product to the result. -/
def finishProduct (underflow : ℕ → ℕ → ℕ → ℤ → ℕ) (productSign productHi productLo : ℕ)
    (productExponent : ℤ) : ℕ :=
  if (L.maxExponent : ℤ) ≤ productExponent then
    L.infRep ||| productSign
  else if productExponent ≤ 0 then
    underflow productSign productHi productLo productExponent
  else
    L.roundProduct productSign
      (productHi &&& L.significandMask ||| L.shl productExponent.toNat L.significandBits)
      productLo

/-- The text that the two precisions share. -/
def multiply (underflow : ℕ → ℕ → ℕ → ℤ → ℕ) (a b : ℕ) : ℕ :=
  let productSign := (a ^^^ b) &&& L.signBit
  let finish (aSignificand bSignificand : ℕ) (scale : ℤ) :=
    let (productHi, productLo, productExponent) :=
      L.product a b aSignificand bSignificand scale
    L.finishProduct underflow productSign productHi productLo productExponent
  if L.special a b then
    match L.mulSpecial a b with
    | some r => r
    | none =>
        let (aSignificand, aScale) := L.renormalize a
        let (bSignificand, bScale) := L.renormalize b
        finish aSignificand bSignificand (aScale + bScale)
  else
    finish (a &&& L.significandMask) (b &&& L.significandMask) 0

end FpLib

/-- `__mulsf3` -/
def mulsf3 (overshift : ℕ → ℕ → ℕ) (a b : ℕ) : ℕ :=
  (single overshift).multiply (single overshift).underflow a b

/-- `__muldf3` -/
def muldf3 (overshift : ℕ → ℕ → ℕ) (a b : ℕ) : ℕ :=
  (double overshift).multiply (double overshift).underflowGuarded a b


section Words

variable {L : FpLib} {hi lo k : ℕ}

open FpLib

/-- Two words shifted right with a sticky bit are the jammed two-word number. -/
theorem wideRightShiftWithSticky_eq (hlo : lo < 2 ^ L.typeWidth) (hk : 1 ≤ k)
    (hkw : k < L.typeWidth) :
    L.wideRightShiftWithSticky hi lo k
      = (jam (hi * 2 ^ L.typeWidth + lo) k / 2 ^ L.typeWidth,
          jam (hi * 2 ^ L.typeWidth + lo) k % 2 ^ L.typeWidth) := by
  obtain ⟨v, hv⟩ : ∃ v, L.typeWidth = k + v := ⟨L.typeWidth - k, by omega⟩
  have hvk : L.typeWidth - k = v := by omega
  have hpos : 0 < 2 ^ k := Nat.two_pow_pos k
  have hw : 2 ^ L.typeWidth = 2 ^ k * 2 ^ v := by rw [hv, pow_add]
  -- the low word of the result is what was shifted out of `hi` beside what is left of `lo`
  have hlodiv : lo / 2 ^ k < 2 ^ v := by
    rw [Nat.div_lt_iff_lt_mul hpos, Nat.mul_comm, ← hw]
    exact hlo
  have hshift : L.shl hi v ||| lo >>> k = hi % 2 ^ k * 2 ^ v + lo / 2 ^ k := by
    rw [shl, if_pos (by omega), Nat.shiftLeft_eq, hw, Nat.mul_mod_mul_right,
      Nat.shiftRight_eq_div_pow, Nat.mul_comm, ← Nat.two_pow_add_eq_or_of_lt hlodiv]
  have hsum : (hi * 2 ^ L.typeWidth + lo) / 2 ^ k
      = hi / 2 ^ k * 2 ^ L.typeWidth + (hi % 2 ^ k * 2 ^ v + lo / 2 ^ k) := by
    rw [hw, show hi * (2 ^ k * 2 ^ v) + lo = 2 ^ k * (hi * 2 ^ v) + lo by ring,
      Nat.mul_add_div hpos]
    conv_lhs => rw [← Nat.div_add_mod hi (2 ^ k)]
    ring
  have hlow : hi % 2 ^ k * 2 ^ v + lo / 2 ^ k < 2 ^ L.typeWidth := by
    have h1 : (hi % 2 ^ k + 1) * 2 ^ v ≤ 2 ^ k * 2 ^ v :=
      Nat.mul_le_mul_right _ (Nat.mod_lt hi hpos)
    rw [Nat.add_mul] at h1
    omega
  have hmod : (hi * 2 ^ L.typeWidth + lo) % 2 ^ k = lo % 2 ^ k := by
    rw [hw, show hi * (2 ^ k * 2 ^ v) + lo = 2 ^ k * (hi * 2 ^ v) + lo by ring, Nat.mul_add_mod]
  have hsticky : (if L.shl lo v ≠ 0 then 1 else 0) = if lo % 2 ^ k = 0 then 0 else 1 := by
    have := shl_ne_zero_iff (L := L) hk (by omega) lo
    rw [hvk] at this
    by_cases h0 : lo % 2 ^ k = 0
    · rw [if_neg (by rw [this]; simpa using h0), if_pos h0]
    · rw [if_pos (this.2 h0), if_neg h0]
  have hbit : (if lo % 2 ^ k = 0 then 0 else 1) < 2 ^ L.typeWidth := by
    have : 1 < 2 ^ L.typeWidth := Nat.one_lt_two_pow (by omega)
    split <;> omega
  have hor := Nat.or_lt_two_pow hlow hbit
  have hjam : jam (hi * 2 ^ L.typeWidth + lo) k
      = 2 ^ L.typeWidth * (hi / 2 ^ k)
        + (hi % 2 ^ k * 2 ^ v + lo / 2 ^ k ||| if lo % 2 ^ k = 0 then 0 else 1) := by
    rw [jam, hmod, hsum, Nat.two_pow_add_eq_or_of_lt hor, ← Nat.or_assoc,
      ← Nat.two_pow_add_eq_or_of_lt hlow, Nat.mul_comm (2 ^ L.typeWidth)]
  rw [wideRightShiftWithSticky, if_pos hkw, hvk]
  simp only [bit]
  rw [hsticky, hshift, hjam, Nat.mul_add_div (Nat.two_pow_pos _), Nat.mul_add_mod,
    Nat.div_eq_of_lt hor, Nat.mod_eq_of_lt hor, Nat.add_zero, Nat.shiftRight_eq_div_pow]

/-- Shifted by a word or more, nothing but less than half of the last place is left. -/
theorem wideRightShiftWithSticky_far {b : ℕ} (lo : ℕ) (hhi : hi < 2 ^ (b + 1))
    (hk : L.typeWidth ≤ k) :
    (L.wideRightShiftWithSticky hi lo k).1 = 0 ∧
      (L.wideRightShiftWithSticky hi lo k).2 < 2 ^ (b + 1) := by
  have hor : ∀ x : ℕ, x < 2 ^ (b + 1) → ∀ c : Prop, ∀ _ : Decidable c,
      x ||| bit c < 2 ^ (b + 1) := by
    intro x hx c _
    apply Nat.or_lt_two_pow hx
    have : 1 < 2 ^ (b + 1) := Nat.one_lt_two_pow (by omega)
    rw [bit]
    split <;> omega
  rw [wideRightShiftWithSticky, if_neg (by omega)]
  split
  · refine ⟨rfl, hor _ ?_ _ _⟩
    rw [Nat.shiftRight_eq_div_pow]
    exact Nat.lt_of_le_of_lt (Nat.div_le_self _ _) hhi
  · refine ⟨rfl, ?_⟩
    have := hor 0 (Nat.two_pow_pos _) ((hi ||| lo) ≠ 0) inferInstance
    rwa [Nat.zero_or] at this

/-- The final rounding, on a magnitude that has room for it. -/
theorem roundProduct_eq (hL : L.Lawful) (s : Bool) {lo r : ℕ} (hr : r < L.infRep) :
    L.roundProduct (L.withSign s 0) r lo = L.withSign s (roundBits L.typeWidth lo r) := by
  have hinf := infRep_lt L
  have hhalf : L.signBit = 2 ^ (L.typeWidth - 1) := by
    rw [signBit_eq, hL.typeWidth_eq]
    congr 1
    omega
  rw [roundProduct, or_withSign s (by omega), hhalf, roundRep_eq hL s hr]

end Words


section Finishing

variable {L : FpLib} {hi lo n d : ℕ} {e : ℤ}

open FpLib

/-- What is to be done about a result below the normal range: round it. -/
def RoundsUnderflow (L : FpLib) (u : ℕ → ℕ → ℕ → ℤ → ℕ) : Prop :=
  ∀ (s : Bool) (hi lo n d : ℕ) (e : ℤ), 0 < d → hi < 2 ^ (L.significandBits + 1) →
    lo < 2 ^ L.typeWidth → Scaled L.typeWidth n d e (hi * 2 ^ L.typeWidth + lo) → e ≤ 0 →
      ∃ r, u (L.withSign s 0) hi lo e = L.withSign s r ∧
        Nearest L.significandBits L.infRep n d r

theorem two_words_lt (hhi : hi < 2 ^ (L.significandBits + 1)) (hlo : lo < 2 ^ L.typeWidth) :
    hi * 2 ^ L.typeWidth + lo < 2 ^ (L.significandBits + 1 + L.typeWidth) := by
  have h1 : (hi + 1) * 2 ^ L.typeWidth ≤ 2 ^ (L.significandBits + 1) * 2 ^ L.typeWidth :=
    Nat.mul_le_mul_right _ hhi
  rw [Nat.add_mul] at h1
  rw [pow_add]
  omega

/-- Shifted by less than a word, the result is rounded where the shift has put it. -/
theorem underflow_near (hL : L.Lawful) (s : Bool) (hd : 0 < d)
    (hhi : hi < 2 ^ (L.significandBits + 1)) (hlo : lo < 2 ^ L.typeWidth)
    (h : Scaled L.typeWidth n d e (hi * 2 ^ L.typeWidth + lo)) (he : e ≤ 0)
    (hnear : (1 - e).toNat < L.typeWidth) :
    ∃ r, L.underflow (L.withSign s 0) hi lo e = L.withSign s r ∧
      Nearest L.significandBits L.infRep n d r := by
  have hmax := hL.seven_le_maxExponent
  have hnearest := nearest_of_denormal (p := L.significandBits) L.maxExponent
    hd hL.three_le_typeWidth (by omega) h (two_words_lt hhi hlo) he
  rw [← infRep_eq] at hnearest
  refine ⟨_, ?_, hnearest⟩
  have hden : jam (hi * 2 ^ L.typeWidth + lo) (1 - e).toNat / 2 ^ L.typeWidth < L.infRep := by
    have hjam : jam (hi * 2 ^ L.typeWidth + lo) (1 - e).toNat
        < 2 ^ (L.significandBits + L.typeWidth) := by
      obtain ⟨b, hb⟩ : ∃ b, L.significandBits + L.typeWidth = b + 1 :=
        ⟨L.significandBits + L.typeWidth - 1, by have := hL.three_le_typeWidth; omega⟩
      rw [hb]
      apply jam_lt
      apply Nat.lt_of_lt_of_le (two_words_lt hhi hlo)
      exact Nat.pow_le_pow_right (by decide) (by omega)
    have hlt : jam (hi * 2 ^ L.typeWidth + lo) (1 - e).toNat / 2 ^ L.typeWidth
        < 2 ^ L.significandBits := by
      rw [Nat.div_lt_iff_lt_mul (Nat.two_pow_pos _), ← pow_add]
      exact hjam
    apply Nat.lt_of_lt_of_le hlt
    rw [infRep_eq]
    exact Nat.le_mul_of_pos_left _ (by omega)
  simp only [underflow, wideRightShiftWithSticky_eq hlo (show 1 ≤ (1 - e).toNat by omega) hnear]
  exact roundProduct_eq hL s hden

/-- A quotient this far below the least denormal is nearest to zero. -/
theorem nearest_zero_of_far (hL : L.Lawful) (hhi : hi < 2 ^ (L.significandBits + 1))
    (hlo : lo < 2 ^ L.typeWidth) (h : Scaled L.typeWidth n d e (hi * 2 ^ L.typeWidth + lo))
    (hfar : L.typeWidth ≤ (1 - e).toNat) : Nearest L.significandBits L.infRep n d 0 := by
  have hwidth := hL.typeWidth_eq
  have hexp := hL.four_le_exponentBits
  have hsig := hL.two_le_significandBits
  have hup : (e - 1).toNat = 0 := by omega
  rw [Scaled, hup, pow_zero, Nat.mul_one] at h
  have hbound : (2 : ℕ) ^ (L.significandBits + 1 + L.typeWidth)
      = 4 * 2 ^ (L.significandBits + L.typeWidth - 1) := by
    rw [show L.significandBits + 1 + L.typeWidth = 2 + (L.significandBits + L.typeWidth - 1) by
      omega, pow_add, show (2 : ℕ) ^ 2 = 4 by decide]
  have hlt := two_words_lt hhi hlo
  rw [hbound] at hlt
  have hquot := (h.lt_iff _).2 hlt
  rw [← hbound] at hquot
  obtain ⟨k, hk⟩ : ∃ k, (1 - e).toNat = L.significandBits + 1 + 1 + k :=
    ⟨(1 - e).toNat - (L.significandBits + 2), by omega⟩
  rw [hk] at hquot
  have hscale : n * 2 ^ L.typeWidth * 2 ^ (L.significandBits + 1 + 1 + k)
      = 2 ^ (L.significandBits + 1 + L.typeWidth) * (2 * n * 2 ^ k) := by
    simp only [pow_add, pow_one]
    ring
  rw [hscale] at hquot
  have hle := Nat.lt_of_mul_lt_mul_left hquot
  apply nearest_zero (by omega)
  apply Nat.lt_of_le_of_lt _ hle
  exact Nat.le_mul_of_pos_right _ (Nat.two_pow_pos k)

/-- Single precision: the shift itself deals with every distance. -/
theorem underflow_rounds (hL : L.Lawful) : RoundsUnderflow L L.underflow := by
  intro s hi lo n d e hd hhi hlo h he
  by_cases hnear : (1 - e).toNat < L.typeWidth
  · exact underflow_near hL s hd hhi hlo h he hnear
  refine ⟨0, ?_, nearest_zero_of_far hL hhi hlo h (by omega)⟩
  obtain ⟨hzero, hsmall⟩ := wideRightShiftWithSticky_far lo hhi (Nat.le_of_not_lt hnear)
  have hinf : 0 < L.infRep := by
    rw [infRep_eq]
    have := hL.seven_le_maxExponent
    exact Nat.mul_pos (by omega) (Nat.two_pow_pos _)
  have hhalf : 2 ^ (L.significandBits + 1) ≤ 2 ^ (L.typeWidth - 1) := by
    apply Nat.pow_le_pow_right (by decide)
    have := hL.typeWidth_eq
    have := hL.four_le_exponentBits
    omega
  simp only [underflow]
  rw [hzero, roundProduct_eq hL s hinf, roundBits, if_neg (by omega), if_neg (by omega)]

/-- Double precision: the guard returns what the shift would have led to. -/
theorem underflowGuarded_rounds (hL : L.Lawful) : RoundsUnderflow L L.underflowGuarded := by
  intro s hi lo n d e hd hhi hlo h he
  by_cases hfar : (L.typeWidth : ℤ) ≤ 1 - e
  · refine ⟨0, ?_, nearest_zero_of_far hL hhi hlo h (by omega)⟩
    simp only [underflowGuarded, if_pos hfar]
  · obtain ⟨r, hr, hnearest⟩ := underflow_near hL s hd hhi hlo h he (by omega)
    refine ⟨r, ?_, hnearest⟩
    simp only [underflowGuarded, if_neg hfar]
    exact hr

/-- From a normalized product to the nearest number. -/
theorem finishProduct_rounds (hL : L.Lawful) {u : ℕ → ℕ → ℕ → ℤ → ℕ}
    (hu : RoundsUnderflow L u) (s : Bool) (hd : 0 < d) (hlower : 2 ^ L.significandBits ≤ hi)
    (hupper : hi < 2 ^ (L.significandBits + 1)) (hlo : lo < 2 ^ L.typeWidth)
    (h : Scaled L.typeWidth n d e (hi * 2 ^ L.typeWidth + lo)) :
    ∃ r, L.finishProduct u (L.withSign s 0) hi lo e = L.withSign s r ∧
      Nearest L.significandBits L.infRep n d r := by
  have hmax := hL.seven_le_maxExponent
  have hwidth := hL.typeWidth_eq
  have hinf := infRep_lt L
  unfold finishProduct
  by_cases hover : (L.maxExponent : ℤ) ≤ e
  · refine ⟨L.infRep, ?_, ?_⟩
    · rw [if_pos hover, or_withSign s hinf]
    · rw [infRep_eq]
      apply nearest_of_overflow hd hL.three_le_typeWidth (by omega) h _ hover
      have := Nat.mul_le_mul_right (2 ^ L.typeWidth) hlower
      omega
  rw [if_neg hover]
  by_cases hunder : e ≤ 0
  · rw [if_pos hunder]
    exact hu s hi lo n d e hd hupper hlo h hunder
  rw [if_neg hunder]
  obtain ⟨x, rfl⟩ : ∃ x : ℕ, e = x := ⟨e.toNat, by omega⟩
  obtain ⟨f, rfl⟩ : ∃ f, hi = 2 ^ L.significandBits + f :=
    ⟨hi - 2 ^ L.significandBits, by omega⟩
  have hf : f < 2 ^ L.significandBits := by
    rw [pow_succ] at hupper
    omega
  have hx : x < L.maxExponent := by omega
  have hlt : x * 2 ^ L.significandBits + f < L.infRep := by
    have := Nat.mul_le_mul_right (2 ^ L.significandBits) (show x + 1 ≤ L.maxExponent by omega)
    rw [Nat.add_mul] at this
    rw [infRep_eq]
    omega
  have hwide : L.infRep < 2 ^ L.typeWidth := by
    apply Nat.lt_of_lt_of_le hinf
    exact Nat.pow_le_pow_right (by decide) (by omega)
  have hmask : (2 ^ L.significandBits + f) &&& L.significandMask = f := by
    rw [and_significandMask, Nat.add_mod_left, Nat.mod_eq_of_lt hf]
  have hpacked : f ||| L.shl x L.significandBits = x * 2 ^ L.significandBits + f := by
    rw [shl_eq (by omega) (by omega), Nat.or_comm, Nat.mul_comm,
      Nat.two_pow_add_eq_or_of_lt hf]
  have hnearest := nearest_of_normal L.maxExponent hd hL.three_le_typeWidth
    hlo hf (by omega) hx h
  rw [← infRep_eq] at hnearest
  refine ⟨_, ?_, hnearest⟩
  rw [hmask, Int.toNat_natCast, hpacked]
  exact roundProduct_eq hL s hlt

end Finishing


section Product

variable {L : FpLib}

open FpLib

/-- Two words shifted left by one, when there is room. -/
theorem wideLeftShift_one (hL : L.Lawful) {m : ℕ} (h : 2 * m < 2 ^ L.typeWidth * 2 ^ L.typeWidth) :
    L.wideLeftShift (m / 2 ^ L.typeWidth) (m % 2 ^ L.typeWidth) 1
      = (2 * m / 2 ^ L.typeWidth, 2 * m % 2 ^ L.typeWidth) := by
  have hthree := hL.three_le_typeWidth
  obtain ⟨v, hv⟩ : ∃ v, L.typeWidth = v + 1 := ⟨L.typeWidth - 1, by omega⟩
  rw [wideLeftShift, shl, if_pos (by omega), shl, if_pos (by omega), hv, Nat.add_sub_cancel,
    Nat.shiftLeft_eq, Nat.shiftLeft_eq, Nat.shiftRight_eq_div_pow, pow_one]
  rw [hv] at h
  have hpos : 0 < 2 ^ (v + 1) := Nat.two_pow_pos _
  have hsplit := Nat.div_add_mod m (2 ^ (v + 1))
  have hmod := Nat.mod_lt m hpos
  generalize m / 2 ^ (v + 1) = q at *
  generalize m % 2 ^ (v + 1) = t at *
  subst hsplit
  have hhalf : 2 ^ (v + 1) = 2 * 2 ^ v := by rw [pow_succ, Nat.mul_comm]
  have hq : q * 2 < 2 ^ (v + 1) := by
    have h1 : 2 ^ (v + 1) * (q * 2) < 2 ^ (v + 1) * 2 ^ (v + 1) := by
      have h2 : 2 ^ (v + 1) * (q * 2) ≤ 2 * (2 ^ (v + 1) * q + t) := by
        rw [← Nat.mul_assoc, Nat.mul_add, Nat.mul_comm _ 2]
        omega
      omega
    exact Nat.lt_of_mul_lt_mul_left h1
  -- the top bit of the low word moves to the high one
  have hcarry : t / 2 ^ v < 2 := by
    rw [Nat.div_lt_iff_lt_mul (Nat.two_pow_pos v), ← hhalf]
    exact hmod
  have hor : q * 2 ||| t / 2 ^ v = q * 2 + t / 2 ^ v := by
    have := Nat.two_pow_add_eq_or_of_lt (i := 1) (b := t / 2 ^ v) (by omega) q
    rw [pow_one, Nat.mul_comm] at this
    exact this.symm
  have hdiv : 2 * (2 ^ (v + 1) * q + t) / 2 ^ (v + 1) = q * 2 + t / 2 ^ v := by
    rw [show 2 * (2 ^ (v + 1) * q + t) = 2 ^ (v + 1) * (q * 2) + 2 * t by ring,
      Nat.mul_add_div hpos, hhalf, Nat.mul_div_mul_left _ _ (by decide)]
  have hlow : 2 * (2 ^ (v + 1) * q + t) % 2 ^ (v + 1) = t * 2 % 2 ^ (v + 1) := by
    rw [show 2 * (2 ^ (v + 1) * q + t) = 2 ^ (v + 1) * (q * 2) + t * 2 by ring,
      Nat.mul_add_mod]
  rw [Nat.mod_eq_of_lt hq, hor, hdiv, hlow]

/-- The scale of the product, from the scales of the operands. -/
theorem scaled_product (hL : L.Lawful) {x y sa sb k : ℕ} {ea eb e : ℤ}
    (hx : Unpacked L x sa ea) (hy : Unpacked L y sb eb)
    (he : e + k = ea + eb - L.exponentBias + 1) :
    Scaled L.typeWidth (mag L.significandBits x * mag L.significandBits y)
      (mag L.significandBits L.oneRep) e (sa * sb * 2 ^ L.exponentBits * 2 ^ k) := by
  have hwidth := hL.typeWidth_eq
  have hbias := hL.one_le_exponentBias
  have hvx := hx.value
  have hvy := hy.value
  rw [mag_oneRep hL]
  have hexact := Agrees.exact (d := 1) (by decide) 4 (sa * sb * 2 ^ L.exponentBits * 2 ^ k)
  refine hexact.congr (by decide) (by positivity) ?_
  obtain ⟨u, hu⟩ : ∃ u, (1 - ea).toNat = u := ⟨_, rfl⟩
  obtain ⟨u', hu'⟩ : ∃ u', (ea - 1).toNat = u' := ⟨_, rfl⟩
  obtain ⟨v, hv⟩ : ∃ v, (1 - eb).toNat = v := ⟨_, rfl⟩
  obtain ⟨v', hv'⟩ : ∃ v', (eb - 1).toNat = v' := ⟨_, rfl⟩
  obtain ⟨t, ht⟩ : ∃ t, (1 - e).toNat = t := ⟨_, rfl⟩
  obtain ⟨t', ht'⟩ : ∃ t', (e - 1).toNat = t' := ⟨_, rfl⟩
  rw [hu, hu'] at hvx
  rw [hv, hv'] at hvy
  rw [ht, ht', hwidth]
  have hexps : L.exponentBits + k + L.significandBits + (L.exponentBias - 1) + t' + u + v
      = u' + v' + (L.significandBits + 1 + L.exponentBits) + t := by omega
  apply Nat.eq_of_mul_eq_mul_right (show 0 < 2 ^ u * 2 ^ v by positivity)
  calc sa * sb * 2 ^ L.exponentBits * 2 ^ k * 1
        * (2 ^ L.significandBits * 2 ^ (L.exponentBias - 1) * 2 ^ t') * (2 ^ u * 2 ^ v)
      = sa * sb * 2 ^ (L.exponentBits + k + L.significandBits + (L.exponentBias - 1)
          + t' + u + v) := by
        simp only [pow_add]
        ring
    _ = (sa * 2 ^ u') * (sb * 2 ^ v') * 2 ^ (L.significandBits + 1 + L.exponentBits) * 2 ^ t := by
        rw [hexps]
        simp only [pow_add]
        ring
    _ = mag L.significandBits x * mag L.significandBits y
          * 2 ^ (L.significandBits + 1 + L.exponentBits) * 2 ^ t * 1 * (2 ^ u * 2 ^ v) := by
        rw [← hvx, ← hvy]
        ring

/-- The normalized product, from the operands with their implicit bits. -/
theorem product_spec (hL : L.Lawful) {a b aSignificand bSignificand x y sa sb : ℕ}
    {scale ea eb : ℤ} (hsa : aSignificand ||| L.implicitBit = sa)
    (hsb : bSignificand ||| L.implicitBit = sb)
    (hx : Unpacked L x sa ea) (hy : Unpacked L y sb eb)
    (hscale : ((a >>> L.significandBits &&& L.maxExponent : ℕ) : ℤ)
      + ((b >>> L.significandBits &&& L.maxExponent : ℕ) : ℤ) + scale = ea + eb) :
    ∃ hi lo e, L.product a b aSignificand bSignificand scale = (hi, lo, e) ∧
      2 ^ L.significandBits ≤ hi ∧ hi < 2 ^ (L.significandBits + 1) ∧ lo < 2 ^ L.typeWidth ∧
      Scaled L.typeWidth (mag L.significandBits x * mag L.significandBits y)
        (mag L.significandBits L.oneRep) e (hi * 2 ^ L.typeWidth + lo) := by
  have hwidth := hL.typeWidth_eq
  have hpos := Nat.two_pow_pos L.typeWidth
  have hxl := hx.lower
  have hxu := hx.upper
  have hyl := hy.lower
  have hyu := hy.upper
  -- the product is shifted left by the exponent bits
  have hfit : sb * 2 ^ L.exponentBits < 2 ^ L.typeWidth := by
    rw [hwidth, pow_add 2 (L.significandBits + 1)]
    exact Nat.mul_lt_mul_of_pos_right hyu (Nat.two_pow_pos _)
  have hsa' : sa < 2 ^ L.typeWidth :=
    Nat.lt_of_lt_of_le hxu (Nat.pow_le_pow_right (by decide) (by omega))
  have hwide := hL.wideMultiply_eq sa (sb * 2 ^ L.exponentBits) hsa' hfit
  rw [← Nat.mul_assoc] at hwide
  have hdown : 2 ^ L.typeWidth = 2 ^ (L.significandBits + 1) * 2 ^ L.exponentBits := by
    rw [hwidth, pow_add 2 (L.significandBits + 1)]
  have hhi : sa * sb * 2 ^ L.exponentBits / 2 ^ L.typeWidth = sa * sb / 2 ^ (L.significandBits + 1) := by
    rw [hdown, Nat.mul_div_mul_right _ _ (Nat.two_pow_pos _)]
  have hupper : sa * sb < 2 ^ (L.significandBits + 1) * 2 ^ (L.significandBits + 1) :=
    Nat.mul_lt_mul'' hxu hyu
  have hlower : 2 ^ L.significandBits * 2 ^ L.significandBits ≤ sa * sb :=
    Nat.mul_le_mul hxl hyl
  have hhiupper : sa * sb / 2 ^ (L.significandBits + 1) < 2 ^ (L.significandBits + 1) :=
    (Nat.div_lt_iff_lt_mul (Nat.two_pow_pos _)).2 hupper
  simp only [product, hsa, hsb, shl_eq (show L.exponentBits < L.typeWidth by omega) hfit, hwide]
  by_cases hbit : sa * sb * 2 ^ L.exponentBits / 2 ^ L.typeWidth &&& L.implicitBit ≠ 0
  · rw [if_pos hbit]
    rw [hhi, and_implicitBit_ne_zero hhiupper] at hbit
    refine ⟨_, _, _, rfl, ?_, ?_, Nat.mod_lt _ hpos, ?_⟩
    · rw [hhi]
      exact hbit
    · rw [hhi]
      exact hhiupper
    · rw [Nat.div_add_mod']
      have hscaled := scaled_product (k := 0) hL hx hy (e := ea + eb - L.exponentBias + 1) (by simp)
      rw [pow_zero, Nat.mul_one] at hscaled
      rw [← hscale] at hscaled
      convert hscaled using 1
      ring
  · rw [if_neg hbit]
    rw [hhi, and_implicitBit_ne_zero hhiupper, Nat.not_le,
      Nat.div_lt_iff_lt_mul (Nat.two_pow_pos _)] at hbit
    have hdouble : 2 * (sa * sb * 2 ^ L.exponentBits)
        = 2 * (sa * sb) * 2 ^ L.exponentBits := by ring
    have hroom : 2 * (sa * sb * 2 ^ L.exponentBits) < 2 ^ L.typeWidth * 2 ^ L.typeWidth := by
      rw [hdouble]
      have h1 : 2 * (sa * sb) < 2 ^ (L.significandBits + 1) * 2 ^ (L.significandBits + 1) := by
        rw [pow_succ] at hbit ⊢
        linarith
      have h2 : 2 ^ (L.significandBits + 1) ≤ 2 ^ L.typeWidth :=
        Nat.pow_le_pow_right (by decide) (by omega)
      calc 2 * (sa * sb) * 2 ^ L.exponentBits
          < 2 ^ (L.significandBits + 1) * 2 ^ (L.significandBits + 1) * 2 ^ L.exponentBits :=
            Nat.mul_lt_mul_of_pos_right h1 (Nat.two_pow_pos _)
        _ = 2 ^ (L.significandBits + 1) * 2 ^ L.typeWidth := by rw [hdown, Nat.mul_assoc]
        _ ≤ 2 ^ L.typeWidth * 2 ^ L.typeWidth := Nat.mul_le_mul_right _ h2
    have hhi' : 2 * (sa * sb * 2 ^ L.exponentBits) / 2 ^ L.typeWidth
        = sa * sb / 2 ^ L.significandBits := by
      rw [hdouble, hdown, Nat.mul_div_mul_right _ _ (Nat.two_pow_pos _), pow_succ,
        Nat.mul_comm (2 ^ L.significandBits), Nat.mul_div_mul_left _ _ (by decide)]
    rw [wideLeftShift_one hL hroom]
    refine ⟨_, _, _, rfl, ?_, ?_, Nat.mod_lt _ hpos, ?_⟩
    · rw [hhi', Nat.le_div_iff_mul_le (Nat.two_pow_pos _)]
      exact hlower
    · rw [hhi', Nat.div_lt_iff_lt_mul (Nat.two_pow_pos _), Nat.mul_comm (2 ^ _)]
      exact hbit
    · rw [Nat.div_add_mod']
      have hscaled := scaled_product (k := 1) hL hx hy (e := ea + eb - L.exponentBias) (by simp)
      rw [pow_one, Nat.mul_comm _ 2] at hscaled
      rw [← hscale] at hscaled
      convert hscaled using 1
      ring

end Product


section Multiply

variable {L : FpLib}

open FpLib

/-- Two finite numbers other than zero, with their significands ready, give the nearest product. -/
theorem finish_product (hL : L.Lawful) {u : ℕ → ℕ → ℕ → ℤ → ℕ} (hu : RoundsUnderflow L u)
    (s : Bool) {a b aSignificand bSignificand : ℕ} {aScale bScale : ℤ}
    (ha : Unpacked L (L.magnitude a) (aSignificand ||| L.implicitBit)
      (((a >>> L.significandBits &&& L.maxExponent : ℕ) : ℤ) + aScale))
    (hb : Unpacked L (L.magnitude b) (bSignificand ||| L.implicitBit)
      (((b >>> L.significandBits &&& L.maxExponent : ℕ) : ℤ) + bScale)) :
    ∃ r, (let (hi, lo, e) := L.product a b aSignificand bSignificand (aScale + bScale)
        L.finishProduct u (L.withSign s 0) hi lo e) = L.withSign s r ∧
      Nearest L.significandBits L.infRep (L.units a * L.units b) (L.units L.oneRep) r := by
  have hscale : ((a >>> L.significandBits &&& L.maxExponent : ℕ) : ℤ)
      + ((b >>> L.significandBits &&& L.maxExponent : ℕ) : ℤ) + (aScale + bScale)
      = ((a >>> L.significandBits &&& L.maxExponent : ℕ) : ℤ) + aScale
        + (((b >>> L.significandBits &&& L.maxExponent : ℕ) : ℤ) + bScale) := by ring
  obtain ⟨hi, lo, e, hprod, hlower, hupper, hlo, hscaled⟩ :=
    product_spec hL rfl rfl ha hb hscale
  have hone : 0 < mag L.significandBits L.oneRep := by
    rw [mag_oneRep hL]
    positivity
  rw [hprod, units_oneRep hL]
  exact finishProduct_rounds hL hu s hone hlower hupper hlo hscaled

/--
What the product of two numbers is: a quieted NaN operand, the default NaN for zero times
infinity, an infinity, or the exact product rounded. The sign is that of the exact product.
-/
inductive MulSpec (L : FpLib) (a b : ℕ) : ℕ → Prop
  | nanLeft : L.IsNaN a → MulSpec L a b (a ||| L.quietBit)
  | nanRight : ¬ L.IsNaN a → L.IsNaN b → MulSpec L a b (b ||| L.quietBit)
  | invalid : L.IsInf a ∧ L.IsZero b ∨ L.IsZero a ∧ L.IsInf b → MulSpec L a b L.qnanRep
  | infinite : L.IsInf a ∧ ¬ L.IsNaN b ∧ ¬ L.IsZero b ∨ L.IsInf b ∧ ¬ L.IsNaN a ∧ ¬ L.IsZero a →
      MulSpec L a b (L.withSign (L.negative a != L.negative b) L.infRep)
  | finite {r : ℕ} : L.IsFinite a → L.IsFinite b →
      Nearest L.significandBits L.infRep (L.units a * L.units b) (L.units L.oneRep) r →
      MulSpec L a b (L.withSign (L.negative a != L.negative b) r)

/-- A product with a zero is a zero. -/
theorem nearest_product_zero (hL : L.Lawful) {a b : ℕ} (h : L.IsZero a ∨ L.IsZero b) :
    Nearest L.significandBits L.infRep (L.units a * L.units b) (L.units L.oneRep) 0 := by
  have hzero : L.units a * L.units b = 0 := by
    rcases h with h | h
    · rw [units, h, mag_zero, Nat.zero_mul]
    · rw [units, units, h, mag_zero, Nat.mul_zero]
  have := nearest_exact (p := L.significandBits) (units_oneRep_pos hL) (Nat.zero_le L.infRep)
  rw [mag_zero, Nat.zero_mul] at this
  rw [hzero]
  exact this

/-- The results that need no product. -/
theorem mulSpecial_some (hL : L.Lawful) {a b r : ℕ} (h : L.mulSpecial a b = some r) :
    MulSpec L a b r := by
  have hpos := infRep_pos hL
  have hsign : ∀ s : Bool, L.infRep ||| L.withSign s 0 = L.withSign s L.infRep :=
    fun s => or_withSign s (infRep_lt L)
  simp only [mulSpecial, and_absMask, xor_and_signBit] at h
  split at h
  next ha =>
    obtain rfl := Option.some.inj h
    exact MulSpec.nanLeft ha
  next ha =>
  split at h
  next hb =>
    obtain rfl := Option.some.inj h
    exact MulSpec.nanRight ha hb
  next hb =>
  split at h
  next hai =>
    split at h
    next hbz =>
      obtain rfl := Option.some.inj h
      rw [hai, hsign]
      exact MulSpec.infinite (Or.inl ⟨hai, hb, hbz⟩)
    next hbz =>
      obtain rfl := Option.some.inj h
      exact MulSpec.invalid (Or.inl ⟨hai, not_not.1 hbz⟩)
  next hai =>
  split at h
  next hbi =>
    split at h
    next haz =>
      obtain rfl := Option.some.inj h
      rw [hbi, hsign]
      exact MulSpec.infinite (Or.inr ⟨hbi, ha, haz⟩)
    next haz =>
      obtain rfl := Option.some.inj h
      exact MulSpec.invalid (Or.inr ⟨not_not.1 haz, hbi⟩)
  next hbi =>
  have hafin : L.IsFinite a := by
    rw [IsFinite]
    omega
  have hbfin : L.IsFinite b := by
    rw [IsFinite]
    omega
  split at h
  next haz =>
    obtain rfl := Option.some.inj h
    exact MulSpec.finite hafin hbfin (nearest_product_zero hL (Or.inl haz))
  next haz =>
  split at h
  next hbz =>
    obtain rfl := Option.some.inj h
    exact MulSpec.finite hafin hbfin (nearest_product_zero hL (Or.inr hbz))
  next hbz =>
    simp at h

/-- Without a special result both operands are finite and not zero. -/
theorem mulSpecial_none {a b : ℕ} (h : L.mulSpecial a b = none) :
    (0 < L.magnitude a ∧ L.IsFinite a) ∧ 0 < L.magnitude b ∧ L.IsFinite b := by
  simp only [mulSpecial, and_absMask] at h
  split_ifs at h with ha hb hai hbz hbi haz haz hbz
  rw [IsFinite, IsFinite]
  omega

/-- Both routines give the product of the specification, whatever the operands. -/
theorem multiply_spec (hL : L.Lawful) {u : ℕ → ℕ → ℕ → ℤ → ℕ} (hu : RoundsUnderflow L u)
    (a b : ℕ) : MulSpec L a b (L.multiply u a b) := by
  simp only [multiply]
  split
  next hspecial =>
    split
    next r hr =>
      exact mulSpecial_some hL hr
    next hr =>
      obtain ⟨⟨ha, hafin⟩, hb, hbfin⟩ := mulSpecial_none hr
      obtain ⟨r, hr, hnearest⟩ := finish_product hL hu (L.negative a != L.negative b)
        (renormalize_spec hL ha) (renormalize_spec hL hb)
      rw [xor_and_signBit]
      simp only [hr]
      exact MulSpec.finite hafin hbfin hnearest
  next hspecial =>
    -- both operands are normal numbers
    rw [special_iff hL] at hspecial
    have hunpack : ∀ x : ℕ, ¬ L.magnitude x < 2 ^ L.significandBits →
        Unpacked L (L.magnitude x) (x &&& L.significandMask ||| L.implicitBit)
          (((x >>> L.significandBits &&& L.maxExponent : ℕ) : ℤ) + 0) := by
      intro x hx
      rw [significand_eq, exponent_eq, add_zero]
      exact unpacked_normal (Nat.le_of_not_lt hx)
    obtain ⟨r, hr, hnearest⟩ := finish_product hL hu (L.negative a != L.negative b)
      (hunpack a (by omega)) (hunpack b (by omega))
    rw [xor_and_signBit]
    rw [add_zero] at hr
    simp only [hr]
    exact MulSpec.finite (by rw [IsFinite]; omega) (by rw [IsFinite]; omega) hnearest

/-- Multiplication at both precisions. -/
theorem mulsf3_muldf3_spec (overshift : ℕ → ℕ → ℕ) (a b : ℕ) :
    MulSpec (single overshift) a b (mulsf3 overshift a b) ∧
      MulSpec (double overshift) a b (muldf3 overshift a b) :=
  ⟨multiply_spec (single_lawful overshift) (underflow_rounds (single_lawful overshift)) a b,
    multiply_spec (double_lawful overshift) (underflowGuarded_rounds (double_lawful overshift)) a b⟩

end Multiply

end Fp
end F32c
