import F32c.Fp.Lib

/-!
# Soft-float division

`__divsf3` has no division to use. It computes a fixed-point reciprocal of the
divisor by three Newton steps from a linear estimate, takes two off, multiplies and
looks at the residual once. The source argues the error of the reciprocal by
exhaustive testing; here it is derived: one step turns the error into its square
plus what is cut off, and the two taken off at the end make the reciprocal smaller
than the exact one.

The quotient of two finite numbers is the exact one rounded to nearest when that is
larger than the least normal number. All others are flushed to zero, the least
normal number itself among them.
-/

namespace F32c
namespace Fp

section Reciprocal

/-- One Newton step in 32-bit fixed point. -/
def newtonStep (q31b reciprocal : ℕ) : ℕ :=
  let correction := wrapSub 64 0 ((reciprocal * q31b) >>> 32) % 2 ^ 32
  (reciprocal * correction) >>> 31 % 2 ^ 32

/-- The reciprocal of a significand with its implicit bit, a little too small. -/
def approximateReciprocal (bSignificand : ℕ) : ℕ :=
  let q31b := bSignificand <<< 8 % 2 ^ 32
  let reciprocal := wrapSub 32 0x7504f333 q31b
  let reciprocal := newtonStep q31b reciprocal
  let reciprocal := newtonStep q31b reciprocal
  let reciprocal := newtonStep q31b reciprocal
  wrapSub 32 reciprocal 2

variable {q r k : ℕ}

/-- How far a reciprocal is from the exact one, times the divisor. -/
def reciprocalError (q r : ℕ) : ℤ :=
  2 ^ 63 - (r : ℤ) * q

/-- The result of a step before it is cut to 32 bits. -/
def wideStep (q r : ℕ) : ℕ :=
  r * (2 ^ 32 - r * q / 2 ^ 32) / 2 ^ 31

/-- A step on a reciprocal that is not far too small is the step without wrapping, cut to size. -/
theorem newtonStep_eq (hq : q < 2 ^ 32) (hr : r < 2 ^ 32) (h : 2 ^ 32 ≤ r * q) :
    newtonStep q r = wideStep q r % 2 ^ 32 := by
  have hprod : r * q < 2 ^ 32 * 2 ^ 32 := Nat.mul_lt_mul'' hr hq
  simp only [newtonStep, wideStep, wrapSub, Nat.shiftRight_eq_div_pow]
  generalize r * q = x at *
  have hcorrection : (0 + 2 ^ 64 - x / 2 ^ 32) % 2 ^ 64 % 2 ^ 32 = 2 ^ 32 - x / 2 ^ 32 := by
    omega
  rw [hcorrection]

/-- The error after a step: the square of the error before, and what was cut off twice. -/
theorem wideStep_error (hq : q < 2 ^ 32) (hr : r < 2 ^ 32) :
    ∃ t s : ℕ, t < 2 ^ 32 ∧ s < 2 ^ 31 ∧
      2 ^ 63 * reciprocalError q (wideStep q r)
        = reciprocalError q r ^ 2 - (r : ℤ) * q * t + 2 ^ 32 * q * s := by
  refine ⟨r * q % 2 ^ 32, r * (2 ^ 32 - r * q / 2 ^ 32) % 2 ^ 31, Nat.mod_lt _ (by decide),
    Nat.mod_lt _ (by decide), ?_⟩
  have hle : r * q / 2 ^ 32 ≤ 2 ^ 32 := by
    have hprod : r * q < 2 ^ 32 * 2 ^ 32 := Nat.mul_lt_mul'' hr hq
    omega
  obtain ⟨c, hc⟩ : ∃ c, 2 ^ 32 - r * q / 2 ^ 32 = c := ⟨_, rfl⟩
  have h1 := Nat.div_add_mod (r * q) (2 ^ 32)
  have h2 := Nat.div_add_mod (r * c) (2 ^ 31)
  have h3 : r * q / 2 ^ 32 + c = 2 ^ 32 := by omega
  rw [wideStep, reciprocalError, reciprocalError, hc]
  generalize r * q / 2 ^ 32 = f at *
  generalize r * q % 2 ^ 32 = t at *
  generalize r * c / 2 ^ 31 = r' at *
  generalize r * c % 2 ^ 31 = s at *
  zify at h1 h2 h3
  linear_combination -(2 ^ 32 * (q : ℤ) * h2) - (r : ℤ) * q * 2 ^ 32 * h3
    + (r : ℤ) * q * h1

/-- The error stays within its square and the two cuts. -/
theorem wideStep_bounds (hq : q < 2 ^ 32) (hr : r < 2 ^ 32) (hk : (k : ℤ) ≤ 2 ^ 63)
    (hlow : -(k : ℤ) ≤ reciprocalError q r) (hhigh : reciprocalError q r ≤ k) :
    -(2 ^ 33) ≤ reciprocalError q (wideStep q r) ∧
      2 ^ 63 * reciprocalError q (wideStep q r) ≤ (k : ℤ) ^ 2 + 2 ^ 63 * q := by
  obtain ⟨t, s, ht, hs, heq⟩ := wideStep_error hq hr
  have hsq : reciprocalError q r ^ 2 ≤ (k : ℤ) ^ 2 := sq_le_sq' hlow hhigh
  have hsq0 : 0 ≤ reciprocalError q r ^ 2 := sq_nonneg _
  have hprod : (r : ℤ) * q ≤ 2 ^ 64 := by
    rw [reciprocalError] at hlow
    linarith
  have hcut : (r : ℤ) * q * t ≤ 2 ^ 64 * 2 ^ 32 := by
    apply mul_le_mul hprod _ (by positivity) (by positivity)
    exact_mod_cast Nat.le_of_lt ht
  have hcut0 : 0 ≤ (r : ℤ) * q * t := by positivity
  have hup : (2 : ℤ) ^ 32 * q * s ≤ 2 ^ 32 * q * 2 ^ 31 := by
    apply mul_le_mul_of_nonneg_left _ (by positivity)
    exact_mod_cast Nat.le_of_lt hs
  have hup0 : 0 ≤ (2 : ℤ) ^ 32 * q * s := by positivity
  constructor
  · by_contra hlt
    have : 2 ^ 63 * reciprocalError q (wideStep q r) < -(2 ^ 64 * 2 ^ 32) := by linarith
    linarith
  · linarith

/-- The first estimate, a straight line, is within eleven parts in 128. -/
theorem estimate_bounds (hlow : 2 ^ 31 ≤ q) (hhigh : q < 2 ^ 32) :
    wrapSub 32 0x7504f333 q = 0x17504f333 - q ∧
      -((11 * 2 ^ 56 : ℕ) : ℤ) ≤ reciprocalError q (0x17504f333 - q) ∧
      reciprocalError q (0x17504f333 - q) ≤ (11 * 2 ^ 56 : ℕ) := by
  have hcast : ((0x17504f333 - q : ℕ) : ℤ) = 0x17504f333 - q := by omega
  refine ⟨by rw [wrapSub]; omega, ?_, ?_⟩
  · rw [reciprocalError, hcast]
    push_cast
    linarith [sq_nonneg ((0x17504f333 : ℤ) - 2 * q)]
  · rw [reciprocalError, hcast]
    have h1 : (2 : ℤ) ^ 31 ≤ q := by exact_mod_cast hlow
    have h2 : (q : ℤ) ≤ 2 ^ 32 := by exact_mod_cast Nat.le_of_lt hhigh
    have hbetween : 0 ≤ ((q : ℤ) - 2 ^ 31) * (2 ^ 32 - q) :=
      mul_nonneg (by linarith) (by linarith)
    push_cast
    linarith

/-- An error that is not far below zero leaves the reciprocal in its 32 bits. -/
theorem lt_of_error (hq : 2 ^ 31 + 2 ^ 8 ≤ q) (h : -(2 ^ 33) ≤ reciprocalError q r) :
    r < 2 ^ 32 := by
  by_contra hge
  have h1 : 2 ^ 32 * q ≤ r * q := Nat.mul_le_mul_right q (Nat.le_of_not_lt hge)
  rw [reciprocalError] at h
  zify at h1 hq
  linarith

/-- After three steps and two taken off the reciprocal is below the exact one, and close to it. -/
theorem approximateReciprocal_spec {b : ℕ} (hlow : 2 ^ 23 ≤ b) (hhigh : b < 2 ^ 24) :
    0 < reciprocalError (b * 2 ^ 8) (approximateReciprocal b) ∧
      reciprocalError (b * 2 ^ 8) (approximateReciprocal b)
        ≤ 28360092800 + 3 * ((b * 2 ^ 8 : ℕ) : ℤ) := by
  rcases Nat.lt_or_eq_of_le hlow with hb | rfl
  · obtain ⟨q, hqb⟩ : ∃ q, b * 2 ^ 8 = q := ⟨_, rfl⟩
    have hq : 2 ^ 31 + 2 ^ 8 ≤ q := by omega
    have hqu : q < 2 ^ 32 := by omega
    have hshift : b <<< 8 % 2 ^ 32 = q := by
      rw [Nat.shiftLeft_eq, hqb, Nat.mod_eq_of_lt hqu]
    obtain ⟨hwrap, hl0, hh0⟩ := estimate_bounds (q := q) (by omega) hqu
    simp only [approximateReciprocal, hshift, hwrap, hqb]
    have hq31 : (2 : ℤ) ^ 31 ≤ q := by exact_mod_cast (show 2 ^ 31 ≤ q by omega)
    have hq32 : (q : ℤ) ≤ 2 ^ 32 := by exact_mod_cast Nat.le_of_lt hqu
    -- every reciprocal is at least half of the exact one, so no correction is zero
    have hsize : ∀ x : ℕ, reciprocalError q x ≤ 11 * 2 ^ 56 → 2 ^ 32 ≤ x * q := by
      intro x hx
      rw [reciprocalError] at hx
      zify
      linarith
    have hr0 : 0x17504f333 - q < 2 ^ 32 := by omega
    generalize 0x17504f333 - q = r0 at *
    push_cast at hh0
    obtain ⟨hl1, hh1⟩ := wideStep_bounds (k := 11 * 2 ^ 56) hqu hr0 (by norm_num) hl0
      (by push_cast; exact hh0)
    have hr1 := lt_of_error hq hl1
    rw [newtonStep_eq hqu hr0 (hsize r0 hh0), Nat.mod_eq_of_lt hr1]
    generalize wideStep q r0 = r1 at *
    push_cast at hh1
    have hh1' : reciprocalError q r1 ≤ 122 * 2 ^ 49 := by linarith
    obtain ⟨hl2, hh2⟩ := wideStep_bounds (k := 122 * 2 ^ 49) hqu hr1 (by norm_num)
      (by push_cast; linarith) (by push_cast; exact hh1')
    have hr2 := lt_of_error hq hl2
    rw [newtonStep_eq hqu hr1 (hsize r1 (by linarith)), Nat.mod_eq_of_lt hr2]
    generalize wideStep q r1 = r2 at *
    push_cast at hh2
    have hh2' : reciprocalError q r2 ≤ 14885 * 2 ^ 35 := by linarith
    obtain ⟨hl3, hh3⟩ := wideStep_bounds (k := 14885 * 2 ^ 35) hqu hr2 (by norm_num)
      (by push_cast; linarith) (by push_cast; exact hh2')
    have hr3 := lt_of_error hq hl3
    -- what the last step cut off is less than the two that are taken off
    have hcut : -(2 * (q : ℤ)) < reciprocalError q (wideStep q r2) := by
      obtain ⟨t, s, ht, hs, heq⟩ := wideStep_error hqu hr2
      have hprod : (r2 : ℤ) * q * t ≤ (2 ^ 32 - 1) * q * (2 ^ 32 - 1) := by
        have h1 : r2 * q * t ≤ (2 ^ 32 - 1) * q * (2 ^ 32 - 1) :=
          Nat.mul_le_mul (Nat.mul_le_mul_right q (by omega)) (by omega)
        zify at h1
        exact h1
      have hup0 : 0 ≤ (2 : ℤ) ^ 32 * q * s := by positivity
      have hsq := sq_nonneg (reciprocalError q r2)
      linarith
    rw [newtonStep_eq hqu hr2 (hsize r2 (by linarith)), Nat.mod_eq_of_lt hr3]
    have hlarge := hsize (wideStep q r2) (by push_cast at hh3; linarith)
    generalize wideStep q r2 = r3 at *
    have htwo : 2 ≤ r3 := by
      by_contra hlt
      have : r3 * q ≤ 1 * q := Nat.mul_le_mul_right q (by omega)
      omega
    have hoff : wrapSub 32 r3 2 = r3 - 2 := by
      rw [wrapSub]
      omega
    rw [hoff]
    rw [reciprocalError] at hcut hh3 ⊢
    push_cast [htwo] at hh3 ⊢
    constructor
    · linarith
    · linarith
  · -- the reciprocal of one runs over and comes back
    have hvalue : approximateReciprocal (2 ^ 23) = 2 ^ 32 - 2 := by decide
    rw [hvalue, reciprocalError]
    norm_num

end Reciprocal


namespace FpLib

variable (L : FpLib)

/-- The results that do not need a quotient. -/
def divSpecial (a b : ℕ) : Option ℕ :=
  let quotientSign := (a ^^^ b) &&& L.signBit
  let aAbs := a &&& L.absMask
  let bAbs := b &&& L.absMask
  if L.infRep < aAbs then
    some (a ||| L.quietBit)
  else if L.infRep < bAbs then
    some (b ||| L.quietBit)
  else if aAbs = L.infRep then
    if bAbs = L.infRep then some L.qnanRep else some (aAbs ||| quotientSign)
  else if bAbs = L.infRep then
    some quotientSign
  else if aAbs = 0 then
    if bAbs = 0 then some L.qnanRep else some quotientSign
  else if bAbs = 0 then
    some (L.infRep ||| quotientSign)
  else
    none

end FpLib

/-- The quotient in 24 bits, the residual, and the exponent. -/
structure QuotientResidual where
  quotient : ℕ
  residual : ℕ
  exponent : ℤ

/-- From the significands to the quotient and its residual. -/
def quotientResidual (aSignificand bSignificand : ℕ) (quotientExponent : ℤ) :
    QuotientResidual :=
  let reciprocal := approximateReciprocal bSignificand
  let quotient := (reciprocal * (aSignificand <<< 1 % 2 ^ 32)) >>> 32 % 2 ^ 32
  if quotient < 2 ^ 23 <<< 1 then
    { quotient := quotient
      residual := wrapSub 32 (aSignificand <<< 24 % 2 ^ 32) (quotient * bSignificand % 2 ^ 32)
      exponent := quotientExponent - 1 }
  else
    let quotient := quotient >>> 1
    { quotient := quotient
      residual := wrapSub 32 (aSignificand <<< 23 % 2 ^ 32) (quotient * bSignificand % 2 ^ 32)
      exponent := quotientExponent }

/-- From the quotient, the residual and the biased exponent to the result. -/
def FpLib.writeQuotient (L : FpLib) (quotientSign bSignificand quotient residual : ℕ)
    (writtenExponent : ℤ) : ℕ :=
  if (L.maxExponent : ℤ) ≤ writtenExponent then
    L.infRep ||| quotientSign
  else if writtenExponent < 1 then
    quotientSign
  else
    let round := FpLib.bit (residual <<< 1 % 2 ^ 32 > bSignificand)
    let absResult := quotient &&& L.significandMask
    let absResult := absResult ||| L.shl writtenExponent.toNat L.significandBits
    let absResult := (absResult + round) % 2 ^ L.typeWidth
    absResult ||| quotientSign

/-- From the significands and the exponent to the result. -/
def FpLib.finishQuotient (L : FpLib) (quotientSign aSignificand bSignificand : ℕ)
    (quotientExponent : ℤ) : ℕ :=
  let aSignificand := aSignificand ||| L.implicitBit
  let bSignificand := bSignificand ||| L.implicitBit
  let q := quotientResidual aSignificand bSignificand quotientExponent
  L.writeQuotient quotientSign bSignificand q.quotient q.residual (q.exponent + L.exponentBias)

/-- `__divsf3` -/
def divsf3 (overshift : ℕ → ℕ → ℕ) (a b : ℕ) : ℕ :=
  let L := single overshift
  let aExponent := a >>> L.significandBits &&& L.maxExponent
  let bExponent := b >>> L.significandBits &&& L.maxExponent
  let quotientSign := (a ^^^ b) &&& L.signBit
  if L.special a b then
    match L.divSpecial a b with
    | some r => r
    | none =>
        let (aSignificand, aScale) := L.renormalize a
        let (bSignificand, bScale) := L.renormalize b
        L.finishQuotient quotientSign aSignificand bSignificand
          (aExponent - bExponent + (aScale - bScale))
  else
    L.finishQuotient quotientSign (a &&& L.significandMask) (b &&& L.significandMask)
      (aExponent - bExponent + 0)

section Quotient

variable {a b : ℕ}

/-- The product with the reciprocal is the quotient, or one less. -/
theorem rawQuotient_spec (hal : 2 ^ 23 ≤ a) (hau : a < 2 ^ 24) (hbl : 2 ^ 23 ≤ b)
    (hbu : b < 2 ^ 24) :
    ∃ q r : ℕ, (approximateReciprocal b * (a <<< 1 % 2 ^ 32)) >>> 32 % 2 ^ 32 = q ∧
      q * b + r = a * 2 ^ 24 ∧ 0 < r ∧ 4 * r < 5 * b := by
  obtain ⟨hpos, hclose⟩ := approximateReciprocal_spec hbl hbu
  have hshift : a <<< 1 % 2 ^ 32 = 2 * a := by
    rw [Nat.shiftLeft_eq, Nat.mod_eq_of_lt (by omega)]
    omega
  rw [hshift]
  generalize approximateReciprocal b = x at *
  rw [reciprocalError] at hpos hclose
  push_cast at hpos hclose
  obtain ⟨t, ht, hsplit⟩ : ∃ t, t < 2 ^ 32 ∧
      x * (2 * a) / 2 ^ 32 * 2 ^ 32 + t = x * (2 * a) :=
    ⟨x * (2 * a) % 2 ^ 32, Nat.mod_lt _ (by decide), Nat.div_add_mod' _ _⟩
  have hx : x < 2 ^ 32 := by
    by_contra hge
    have h1 : 2 ^ 32 * (2 ^ 23 * 2 ^ 8) ≤ x * (b * 2 ^ 8) :=
      Nat.mul_le_mul (Nat.le_of_not_lt hge) (Nat.mul_le_mul_right _ hbl)
    zify at h1
    linarith
  have hqlt : x * (2 * a) / 2 ^ 32 < 2 ^ 32 := by
    rw [Nat.div_lt_iff_lt_mul (by decide)]
    exact Nat.mul_lt_mul'' hx (by omega)
  rw [Nat.shiftRight_eq_div_pow, Nat.mod_eq_of_lt hqlt]
  generalize x * (2 * a) / 2 ^ 32 = q at *
  -- the residual, from the error of the reciprocal and from what the product lost
  have hresidual : (2 : ℤ) ^ 39 * ((a : ℤ) * 2 ^ 24 - q * b)
      = a * (2 ^ 63 - (x : ℤ) * (b * 2 ^ 8)) + 2 ^ 7 * b * t := by
    zify at hsplit
    linear_combination -((2 : ℤ) ^ 7 * b * hsplit)
  have hapos : (0 : ℤ) < a := by omega
  have hbpos : (2 : ℤ) ^ 23 ≤ b := by exact_mod_cast hbl
  have hmain : 0 < (a : ℤ) * (2 ^ 63 - (x : ℤ) * (b * 2 ^ 8)) := by
    apply mul_pos hapos
    linarith
  have hlost : 0 ≤ (2 : ℤ) ^ 7 * b * t := by positivity
  have hpos' : 0 < (a : ℤ) * 2 ^ 24 - q * b := by linarith
  have hmain' : (a : ℤ) * (2 ^ 63 - (x : ℤ) * (b * 2 ^ 8))
      ≤ 2 ^ 24 * (28360092800 + 3 * (b * 2 ^ 8)) := by
    apply mul_le_mul _ (by linarith) (by linarith) (by positivity)
    exact_mod_cast Nat.le_of_lt hau
  have hlost' : (2 : ℤ) ^ 7 * b * t ≤ 2 ^ 7 * b * 2 ^ 32 := by
    apply mul_le_mul_of_nonneg_left _ (by positivity)
    exact_mod_cast Nat.le_of_lt ht
  have hsmall : 4 * ((a : ℤ) * 2 ^ 24 - q * b) < 5 * b := by linarith
  refine ⟨q, a * 2 ^ 24 - q * b, rfl, ?_, ?_, ?_⟩ <;> zify at * <;> omega

/-- A remainder of half of an odd divisor's multiple does not occur. -/
theorem residual_ne_half {q r s : ℕ} (hbpos : 0 < b) (hbu : b < 2 ^ 24) (hs : 23 ≤ s)
    (h : q * b + r = a * 2 ^ s) : 2 * r ≠ b := by
  intro hhalf
  have hodd : b * (2 * q + 1) = a * 2 ^ (s - 23) * 2 ^ 24 := by
    have h1 : a * 2 ^ s * 2 = a * 2 ^ (s - 23) * 2 ^ 24 := by
      rw [Nat.mul_assoc, Nat.mul_assoc, ← pow_succ, ← pow_add]
      congr 2
      omega
    rw [← h1, ← h, ← hhalf]
    ring
  have hdvd : 2 ^ 24 ∣ b * (2 * q + 1) := ⟨a * 2 ^ (s - 23), by rw [hodd]; ring⟩
  have hcop : Nat.Coprime (2 ^ 24) (2 * q + 1) := by
    apply Nat.Coprime.pow_left
    rw [Nat.coprime_two_left]
    exact ⟨q, rfl⟩
  have := Nat.le_of_dvd hbpos (hcop.dvd_of_dvd_mul_right hdvd)
  omega

/-- The residual is computed in one word, though its two terms do not fit. -/
theorem residual_eq {q r s : ℕ} (hr : r < 2 ^ 32) (h : q * b + r = a * 2 ^ s) :
    wrapSub 32 (a <<< s % 2 ^ 32) (q * b % 2 ^ 32) = r := by
  rw [wrapSub, Nat.shiftLeft_eq, ← h]
  generalize q * b = x
  omega

/--
The quotient in 24 bits with its leading bit in place, and a positive residual of at most
one and a quarter divisors; the exponent is one less when the quotient had to be scaled.
-/
theorem quotientResidual_spec (hal : 2 ^ 23 ≤ a) (hau : a < 2 ^ 24) (hbl : 2 ^ 23 ≤ b)
    (hbu : b < 2 ^ 24) (e : ℤ) :
    ∃ q r s : ℕ, quotientResidual a b e = ⟨q, r, e - s⟩ ∧ s ≤ 1 ∧ 2 ^ 23 ≤ q ∧ q < 2 ^ 24 ∧
      q * b + r = a * 2 ^ (23 + s) ∧ 0 < r ∧ 4 * r < 5 * b ∧ a * 2 ^ (23 + s) ≤ 2 ^ 24 * b := by
  obtain ⟨q, r, hq, hqr, hrpos, hrsmall⟩ := rawQuotient_spec hal hau hbl hbu
  rw [quotientResidual, hq]
  simp only
  by_cases hsmall : q < 2 ^ 23 <<< 1
  · rw [if_pos hsmall]
    have hqu : q < 2 ^ 24 := hsmall
    refine ⟨q, r, 1, ?_, Nat.le_refl 1, ?_, hqu, hqr, hrpos, hrsmall, ?_⟩
    · rw [residual_eq (by omega) hqr]
      rfl
    · -- the dividend is more than half of the divisor
      by_contra hlt
      have h1 : q * b ≤ (2 ^ 23 - 1) * b := Nat.mul_le_mul_right b (by omega)
      omega
    · -- a dividend above the divisor would have given one bit more
      by_contra hgt
      have h1 : q * b ≤ (2 ^ 24 - 1) * b := Nat.mul_le_mul_right b (by omega)
      omega
  · rw [if_neg hsmall]
    have hqu : 2 ^ 24 ≤ q := Nat.le_of_not_lt hsmall
    obtain ⟨h, v, hv, rfl⟩ : ∃ h v, v < 2 ∧ q = 2 * h + v :=
      ⟨q / 2, q % 2, Nat.mod_lt _ (by decide), by omega⟩
    have hhalf : (2 * h + v) >>> 1 = h := by
      rw [Nat.shiftRight_eq_div_pow]
      omega
    have hupper : 2 * h < 2 ^ 25 := by
      by_contra hge
      have h1 : 2 ^ 25 * b ≤ (2 * h + v) * b := Nat.mul_le_mul_right b (by omega)
      omega
    obtain ⟨r', hr', hhr⟩ : ∃ r', 2 * r' = r + v * b ∧ h * b + r' = a * 2 ^ 23 := by
      have h1 : (2 * h + v) * b = 2 * (h * b) + v * b := by ring
      refine ⟨a * 2 ^ 23 - h * b, ?_, ?_⟩ <;> omega
    have hvb : v * b ≤ 1 * b := Nat.mul_le_mul_right b (by omega)
    rw [hhalf]
    refine ⟨h, r', 0, ?_, Nat.zero_le 1, by omega, by omega, hhr, by omega, by omega, by omega⟩
    rw [residual_eq (by omega) hhr]
    simp

end Quotient


section Divide

variable {overshift : ℕ → ℕ → ℕ}

open FpLib

/--
What the quotient of two numbers is: a quieted NaN operand, the default NaN for zero over
zero and infinity over infinity, an infinity, a zero, or the exact quotient rounded. A
quotient of finite numbers that is not above the least normal number is flushed to zero.
-/
inductive DivSpec (L : FpLib) (a b : ℕ) : ℕ → Prop
  | nanLeft : L.IsNaN a → DivSpec L a b (a ||| L.quietBit)
  | nanRight : ¬ L.IsNaN a → L.IsNaN b → DivSpec L a b (b ||| L.quietBit)
  | invalid : L.IsInf a ∧ L.IsInf b ∨ L.IsZero a ∧ L.IsZero b → DivSpec L a b L.qnanRep
  | infinite : L.IsInf a ∧ L.IsFinite b ∨ L.IsFinite a ∧ ¬ L.IsZero a ∧ L.IsZero b →
      DivSpec L a b (L.withSign (L.negative a != L.negative b) L.infRep)
  | zero : L.IsFinite a → L.IsInf b →
      DivSpec L a b (L.withSign (L.negative a != L.negative b) 0)
  | flushed : L.IsFinite a → L.IsFinite b → ¬ L.IsZero b →
      L.units a * L.units L.oneRep ≤ L.units L.implicitBit * L.units b →
      DivSpec L a b (L.withSign (L.negative a != L.negative b) 0)
  | finite {r : ℕ} : L.IsFinite a → L.IsFinite b → ¬ L.IsZero b →
      L.units L.implicitBit * L.units b < L.units a * L.units L.oneRep →
      Nearest L.significandBits L.infRep (L.units a * L.units L.oneRep) (L.units b) r →
      DivSpec L a b (L.withSign (L.negative a != L.negative b) r)

variable {L : FpLib}

/-- The exact quotient at its exponent, from the significands. -/
theorem quotient_scale {x y sa sb s : ℕ} {ea eb e : ℤ} (hx : Unpacked L x sa ea)
    (hy : Unpacked L y sb eb) (he : e + s = ea - eb + 127) :
    mag L.significandBits x * 2 ^ 149 * sb * 2 ^ (1 - e).toNat
      = sa * 2 ^ (23 + s) * 2 ^ (e - 1).toNat * mag L.significandBits y := by
  have hvx := hx.value
  have hvy := hy.value
  obtain ⟨u, hu⟩ : ∃ u, (1 - ea).toNat = u := ⟨_, rfl⟩
  obtain ⟨u', hu'⟩ : ∃ u', (ea - 1).toNat = u' := ⟨_, rfl⟩
  obtain ⟨v, hv⟩ : ∃ v, (1 - eb).toNat = v := ⟨_, rfl⟩
  obtain ⟨v', hv'⟩ : ∃ v', (eb - 1).toNat = v' := ⟨_, rfl⟩
  obtain ⟨t, ht⟩ : ∃ t, (1 - e).toNat = t := ⟨_, rfl⟩
  obtain ⟨t', ht'⟩ : ∃ t', (e - 1).toNat = t' := ⟨_, rfl⟩
  rw [hu, hu'] at hvx
  rw [hv, hv'] at hvy
  rw [ht, ht']
  have hexps : u' + v + 149 + t = 23 + s + t' + u + v' := by omega
  apply Nat.eq_of_mul_eq_mul_right (show 0 < 2 ^ u * 2 ^ v' by positivity)
  calc mag L.significandBits x * 2 ^ 149 * sb * 2 ^ t * (2 ^ u * 2 ^ v')
      = (mag L.significandBits x * 2 ^ u) * (sb * 2 ^ v') * (2 ^ 149 * 2 ^ t) := by ring
    _ = sa * mag L.significandBits y * 2 ^ (u' + v + 149 + t) := by
        rw [hvx, ← hvy, pow_add _ _ t, pow_add _ _ 149, pow_add]
        ring
    _ = sa * 2 ^ (23 + s) * 2 ^ t' * mag L.significandBits y * (2 ^ u * 2 ^ v') := by
        rw [hexps, pow_add _ _ v', pow_add _ _ u, pow_add _ _ t']
        ring

/-- Comparing the exact quotient with a multiple of half a unit is comparing the residual. -/
theorem residual_compare {n d b r sig ulp : ℕ} (hb : 0 < b) (hulp : 0 < ulp * d)
    (hn : n * b = (sig * b + r) * ulp * d) (c : ℕ) :
    (2 * n < (2 * sig + c) * ulp * d ↔ 2 * r < c * b) ∧
      ((2 * sig + c) * ulp * d < 2 * n ↔ c * b < 2 * r) := by
  have hquot : 2 * n * b = (2 * (sig * b) + 2 * r) * (ulp * d) := by
    rw [Nat.mul_assoc, hn]
    ring
  have hline : (2 * sig + c) * ulp * d * b = (2 * (sig * b) + c * b) * (ulp * d) := by ring
  constructor
  · rw [← Nat.mul_lt_mul_right hb, hquot, hline, Nat.mul_lt_mul_right hulp]
    omega
  · rw [← Nat.mul_lt_mul_right hb, hquot, hline, Nat.mul_lt_mul_right hulp]
    omega

/-- The quotient and its residual decide what the nearest magnitude is. -/
theorem nearest_of_residual {n d e f b r p top : ℕ} (hd : 0 < d) (hb : 0 < b) (he : 1 ≤ e)
    (hf : f < 2 ^ p) (htop : e * 2 ^ p + f < top)
    (hn : n * b = ((2 ^ p + f) * b + r) * 2 ^ (e - 1) * d) (hr : 4 * r < 5 * b)
    (hhalf : 2 * r ≠ b) :
    Nearest p top n d (e * 2 ^ p + f + FpLib.bit (2 * r > b)) := by
  have hmag := mag_normal he hf
  have hpos := Nat.two_pow_pos p
  have hdiv : (e * 2 ^ p + f) / 2 ^ p = e := by
    rw [Nat.mul_comm, Nat.mul_add_div hpos, Nat.div_eq_of_lt hf, Nat.add_zero]
  have hnext := mag_succ p (e * 2 ^ p + f)
  have hnext' := mag_succ p (e * 2 ^ p + f + 1)
  rw [hdiv, hmag] at hnext
  have hulp : 2 ^ (e - 1) ≤ 2 ^ ((e * 2 ^ p + f + 1) / 2 ^ p - 1) := by
    have : (e * 2 ^ p + f) / 2 ^ p ≤ (e * 2 ^ p + f + 1) / 2 ^ p :=
      Nat.div_le_div_right (Nat.le_succ _)
    exact Nat.pow_le_pow_right (by decide) (by omega)
  have hcompare := residual_compare hb (Nat.mul_pos (Nat.two_pow_pos (e - 1)) hd) hn
  have hmid : (mag p (e * 2 ^ p + f) + mag p (e * 2 ^ p + f + 1)) * d
      = (2 * (2 ^ p + f) + 1) * 2 ^ (e - 1) * d := by
    rw [hnext, hmag]
    ring
  by_cases hround : 2 * r > b
  · rw [FpLib.bit, if_pos hround]
    apply nearest_of_midpoints hd htop
    · intro q hq
      obtain rfl : q = e * 2 ^ p + f := by omega
      left
      rw [hmid, (hcompare 1).2]
      omega
    · intro _
      left
      have hbound : (2 * (2 ^ p + f) + 3) * 2 ^ (e - 1) * d
          ≤ (mag p (e * 2 ^ p + f + 1) + mag p (e * 2 ^ p + f + 1 + 1)) * d := by
        apply Nat.mul_le_mul_right
        rw [hnext', hnext]
        linarith
      apply Nat.lt_of_lt_of_le _ hbound
      rw [(hcompare 3).1]
      omega
  · rw [FpLib.bit, if_neg hround, Nat.add_zero]
    apply nearest_of_midpoints hd (Nat.le_of_lt htop)
    · apply aboveMidpoint_of_le hd
      rw [hmag]
      have hge := (hcompare 0).1
      have hdouble : (2 * (2 ^ p + f) + 0) * 2 ^ (e - 1) * d
          = 2 * ((2 ^ p + f) * 2 ^ (e - 1) * d) := by ring
      rw [hdouble, Nat.zero_mul] at hge
      omega
    · intro _
      left
      rw [hmid, (hcompare 1).1]
      omega

/-- The end of the division: a quotient that is written down, or flushed. -/
theorem writeQuotient_spec (hL : L.Lawful) (s : Bool) {n d b q r : ℕ} {e : ℤ} (hd : 0 < d)
    (hb : 0 < b) (hql : 2 ^ L.significandBits ≤ q) (hqu : q < 2 ^ (L.significandBits + 1))
    (hrpos : 0 < r) (hr : 4 * r < 5 * b) (hrfit : 2 * r < 2 ^ 32) (hhalf : 2 * r ≠ b)
    (hcap : q * b + r ≤ 2 ^ (L.significandBits + 1) * b)
    (hn : n * b * 2 ^ (1 - e).toNat = (q * b + r) * 2 ^ (e - 1).toNat * d) :
    (n ≤ 2 ^ L.significandBits * d ∧
      L.writeQuotient (L.withSign s 0) b q r e = L.withSign s 0) ∨
    (2 ^ L.significandBits * d < n ∧ ∃ m,
      L.writeQuotient (L.withSign s 0) b q r e = L.withSign s m ∧
        Nearest L.significandBits L.infRep n d m) := by
  have hmax := hL.seven_le_maxExponent
  have hwidth := hL.typeWidth_eq
  have hinf := infRep_lt L
  have hwide : L.infRep < 2 ^ L.typeWidth :=
    Nat.lt_of_lt_of_le hinf (Nat.pow_le_pow_right (by decide) (by omega))
  unfold writeQuotient
  by_cases hsmall : e < 1
  · -- below the normal range, the least normal number included
    left
    rw [if_neg (by omega), if_pos hsmall]
    refine ⟨?_, rfl⟩
    have hup : (e - 1).toNat = 0 := by omega
    obtain ⟨k, hk⟩ : ∃ k, (1 - e).toNat = k + 1 := ⟨(-e).toNat, by omega⟩
    rw [hup, hk, pow_zero, Nat.mul_one] at hn
    have h1 : n * b * 2 ^ (k + 1) ≤ 2 ^ (L.significandBits + 1) * b * d := by
      rw [hn]
      exact Nat.mul_le_mul_right d hcap
    have h2 : n * (2 ^ k * (2 * b)) ≤ 2 ^ L.significandBits * d * (2 * b) := by
      rw [pow_succ, pow_succ] at h1
      linarith
    have h3 : n * (2 * b) ≤ n * (2 ^ k * (2 * b)) := by
      apply Nat.mul_le_mul_left
      exact Nat.le_mul_of_pos_left _ (Nat.two_pow_pos k)
    exact Nat.le_of_mul_le_mul_right (Nat.le_trans h3 h2) (by omega)
  · right
    have hdown : (1 - e).toNat = 0 := by omega
    obtain ⟨x, rfl⟩ : ∃ x : ℕ, e = x := ⟨e.toNat, by omega⟩
    have hup : ((x : ℤ) - 1).toNat = x - 1 := by omega
    rw [hdown, hup, pow_zero, Nat.mul_one] at hn
    have hgt : q * b * 2 ^ (x - 1) * d < n * b := by
      rw [hn]
      apply Nat.mul_lt_mul_of_pos_right _ hd
      apply Nat.mul_lt_mul_of_pos_right _ (Nat.two_pow_pos _)
      omega
    have hfloor : q * 2 ^ (x - 1) * d < n := by
      apply Nat.lt_of_mul_lt_mul_right (a := b)
      calc q * 2 ^ (x - 1) * d * b = q * b * 2 ^ (x - 1) * d := by ring
        _ < n * b := hgt
    have hnormal : 2 ^ L.significandBits * d < n := by
      apply Nat.lt_of_le_of_lt _ hfloor
      apply Nat.mul_le_mul_right
      exact Nat.le_trans hql (Nat.le_mul_of_pos_right _ (Nat.two_pow_pos _))
    refine ⟨hnormal, ?_⟩
    by_cases hover : (L.maxExponent : ℤ) ≤ x
    · refine ⟨L.infRep, ?_, ?_⟩
      · rw [if_pos hover, or_withSign s hinf]
      · rw [infRep_eq]
        apply nearest_top hd
        have hval := mag_normal (p := L.significandBits) (show 1 ≤ L.maxExponent by omega)
          (Nat.two_pow_pos _)
        rw [Nat.add_zero, Nat.add_zero] at hval
        rw [hval]
        apply Nat.le_trans _ (Nat.le_of_lt hfloor)
        apply Nat.mul_le_mul_right
        exact Nat.mul_le_mul hql (Nat.pow_le_pow_right (by decide) (by omega))
    · rw [if_neg hover, if_neg hsmall]
      obtain ⟨f, rfl⟩ : ∃ f, q = 2 ^ L.significandBits + f :=
        ⟨q - 2 ^ L.significandBits, by omega⟩
      have hf : f < 2 ^ L.significandBits := by
        rw [pow_succ] at hqu
        omega
      have htop : x * 2 ^ L.significandBits + f < L.infRep := by
        have := Nat.mul_le_mul_right (2 ^ L.significandBits) (show x + 1 ≤ L.maxExponent by omega)
        rw [Nat.add_mul] at this
        rw [infRep_eq]
        omega
      have hmask : (2 ^ L.significandBits + f) &&& L.significandMask = f := by
        rw [and_significandMask, Nat.add_mod_left, Nat.mod_eq_of_lt hf]
      have hpacked : f ||| L.shl x L.significandBits = x * 2 ^ L.significandBits + f := by
        rw [shl_eq (by omega) (by omega), Nat.or_comm, Nat.mul_comm,
          Nat.two_pow_add_eq_or_of_lt hf]
      have hshift : r <<< 1 % 2 ^ 32 = 2 * r := by
        rw [Nat.shiftLeft_eq, Nat.mod_eq_of_lt (by omega)]
        omega
      have hnearest := nearest_of_residual hd hb (by omega) hf htop hn hr hhalf
      have hbit : FpLib.bit (2 * r > b) ≤ 1 := by
        rw [FpLib.bit]
        split <;> omega
      refine ⟨_, ?_, hnearest⟩
      simp only [hmask, Int.toNat_natCast, hpacked, hshift]
      rw [Nat.mod_eq_of_lt (by omega), or_withSign s (by omega)]

/-- Two finite numbers other than zero: the quotient is flushed, or it is the nearest number. -/
theorem finishQuotient_spec (hL : L.Lawful) (hp : L.significandBits = 23)
    (hbias : L.exponentBias = 127) (s : Bool) {x y aSignificand bSignificand : ℕ} {ea eb : ℤ}
    (hx : Unpacked L x (aSignificand ||| L.implicitBit) ea)
    (hy : Unpacked L y (bSignificand ||| L.implicitBit) eb) (hy0 : 0 < y) :
    (mag L.significandBits x * 2 ^ 149 ≤ 2 ^ L.significandBits * mag L.significandBits y ∧
      L.finishQuotient (L.withSign s 0) aSignificand bSignificand (ea - eb) = L.withSign s 0) ∨
    (2 ^ L.significandBits * mag L.significandBits y < mag L.significandBits x * 2 ^ 149 ∧ ∃ m,
      L.finishQuotient (L.withSign s 0) aSignificand bSignificand (ea - eb) = L.withSign s m ∧
        Nearest L.significandBits L.infRep (mag L.significandBits x * 2 ^ 149)
          (mag L.significandBits y) m) := by
  have h23 : 2 ^ L.significandBits = 2 ^ 23 := by rw [hp]
  have h24 : 2 ^ (L.significandBits + 1) = 2 ^ 24 := by rw [hp]
  have hal := hx.lower
  have hau := hx.upper
  have hbl := hy.lower
  have hbu := hy.upper
  rw [h23] at hal hbl
  rw [h24] at hau hbu
  have hd : 0 < mag L.significandBits y := mag_pos.2 hy0
  obtain ⟨q, r, t, heq, ht, hql, hqu, hqr, hrpos, hrsmall, hcap⟩ :=
    quotientResidual_spec hal hau hbl hbu (ea - eb)
  have hne := residual_ne_half (a := aSignificand ||| L.implicitBit)
    (show 0 < bSignificand ||| L.implicitBit by omega) hbu (show 23 ≤ 23 + t by omega) hqr
  have hscale := (quotient_scale (e := ea - eb - t + L.exponentBias) (s := t) hx hy
    (by rw [hbias]; omega)).trans (congrArg (fun z => z * _ * _) hqr.symm)
  have hcap' : q * (bSignificand ||| L.implicitBit) + r
      ≤ 2 ^ (L.significandBits + 1) * (bSignificand ||| L.implicitBit) := by
    rw [h24]
    exact hqr.le.trans hcap
  have hfinish : L.finishQuotient (L.withSign s 0) aSignificand bSignificand (ea - eb)
      = L.writeQuotient (L.withSign s 0) (bSignificand ||| L.implicitBit) q r
        (ea - eb - t + L.exponentBias) := by
    rw [finishQuotient, heq]
  rw [hfinish]
  have hql' : 2 ^ L.significandBits ≤ q := by
    rw [h23]
    exact hql
  have hqu' : q < 2 ^ (L.significandBits + 1) := by
    rw [h24]
    exact hqu
  exact writeQuotient_spec hL s hd (by omega) hql' hqu' hrpos hrsmall (by omega) hne hcap' hscale

/-- The results that need no quotient. -/
theorem divSpecial_some (hL : L.Lawful) {a b r : ℕ} (h : L.divSpecial a b = some r) :
    DivSpec L a b r := by
  have hpos := infRep_pos hL
  have hsign : ∀ s : Bool, L.infRep ||| L.withSign s 0 = L.withSign s L.infRep :=
    fun s => or_withSign s (infRep_lt L)
  simp only [divSpecial, and_absMask, xor_and_signBit] at h
  split at h
  next ha =>
    obtain rfl := Option.some.inj h
    exact DivSpec.nanLeft ha
  next ha =>
  split at h
  next hb =>
    obtain rfl := Option.some.inj h
    exact DivSpec.nanRight ha hb
  next hb =>
  split at h
  next hai =>
    split at h
    next hbi =>
      obtain rfl := Option.some.inj h
      exact DivSpec.invalid (Or.inl ⟨hai, hbi⟩)
    next hbi =>
      obtain rfl := Option.some.inj h
      rw [hai, hsign]
      exact DivSpec.infinite (Or.inl ⟨hai, by rw [IsFinite]; omega⟩)
  next hai =>
  have hafin : L.IsFinite a := by
    rw [IsFinite]
    omega
  split at h
  next hbi =>
    obtain rfl := Option.some.inj h
    exact DivSpec.zero hafin hbi
  next hbi =>
  have hbfin : L.IsFinite b := by
    rw [IsFinite]
    omega
  split at h
  next haz =>
    split at h
    next hbz =>
      obtain rfl := Option.some.inj h
      exact DivSpec.invalid (Or.inr ⟨haz, hbz⟩)
    next hbz =>
      obtain rfl := Option.some.inj h
      apply DivSpec.flushed hafin hbfin hbz
      rw [units, haz, mag_zero, Nat.zero_mul]
      exact Nat.zero_le _
  next haz =>
  split at h
  next hbz =>
    obtain rfl := Option.some.inj h
    rw [hsign]
    exact DivSpec.infinite (Or.inr ⟨hafin, haz, hbz⟩)
  next hbz =>
    simp at h

/-- Without a special result both operands are finite and not zero. -/
theorem divSpecial_none {a b : ℕ} (h : L.divSpecial a b = none) :
    (0 < L.magnitude a ∧ L.IsFinite a) ∧ 0 < L.magnitude b ∧ L.IsFinite b := by
  simp only [divSpecial, and_absMask] at h
  split_ifs at h with ha hb hai hbi hbi haz hbz hbz
  rw [IsFinite, IsFinite]
  omega

/-- The least normal number, in units. -/
theorem units_implicitBit (hL : L.Lawful) : L.units L.implicitBit = 2 ^ L.significandBits := by
  have hexp := hL.four_le_exponentBits
  have hval := mag_normal (p := L.significandBits) (Nat.le_refl 1) (Nat.two_pow_pos _)
  rw [Nat.one_mul, Nat.add_zero, Nat.sub_self, pow_zero, Nat.mul_one] at hval
  rw [units, magnitude, implicitBit_eq, Nat.mod_eq_of_lt, hval]
  exact Nat.pow_lt_pow_right (by decide) (by omega)

/-- Two finite numbers other than zero, with their significands ready. -/
theorem finish_quotient (s : Bool) {a b aSignificand bSignificand : ℕ} {aScale bScale e : ℤ}
    (hL : L.Lawful) (hp : L.significandBits = 23) (hbias : L.exponentBias = 127)
    (hafin : L.IsFinite a) (hb0 : 0 < L.magnitude b) (hbfin : L.IsFinite b)
    (hs : s = (L.negative a != L.negative b))
    (ha : Unpacked L (L.magnitude a) (aSignificand ||| L.implicitBit)
      (((a >>> L.significandBits &&& L.maxExponent : ℕ) : ℤ) + aScale))
    (hb : Unpacked L (L.magnitude b) (bSignificand ||| L.implicitBit)
      (((b >>> L.significandBits &&& L.maxExponent : ℕ) : ℤ) + bScale))
    (he : e = ((a >>> L.significandBits &&& L.maxExponent : ℕ) : ℤ)
      - ((b >>> L.significandBits &&& L.maxExponent : ℕ) : ℤ) + (aScale - bScale)) :
    DivSpec L a b (L.finishQuotient (L.withSign s 0) aSignificand bSignificand e) := by
  have hone : L.units L.oneRep = 2 ^ 149 := by
    rw [units_oneRep hL, mag_oneRep hL, hp, hbias, ← pow_add]
  have hspec := finishQuotient_spec hL hp hbias s ha hb hb0
  have heq : ((a >>> L.significandBits &&& L.maxExponent : ℕ) : ℤ) + aScale
      - (((b >>> L.significandBits &&& L.maxExponent : ℕ) : ℤ) + bScale) = e := by
    rw [he]
    ring
  rw [heq, ← hone, ← units_implicitBit hL] at hspec
  have hbz : ¬ L.IsZero b := Nat.ne_of_gt hb0
  rcases hspec with ⟨hle, hr⟩ | ⟨hlt, m, hr, hnearest⟩
  · rw [hr, hs]
    exact DivSpec.flushed hafin hbfin hbz hle
  · rw [hr, hs]
    exact DivSpec.finite hafin hbfin hbz hlt hnearest

/-- Division at single precision. -/
theorem divsf3_spec (overshift : ℕ → ℕ → ℕ) (a b : ℕ) :
    DivSpec (single overshift) a b (divsf3 overshift a b) := by
  have hL := single_lawful overshift
  have hp : (single overshift).significandBits = 23 := rfl
  have hbias : (single overshift).exponentBias = 127 := by
    rw [exponentBias_eq, single_exponentBits]
    decide
  rw [divsf3]
  generalize single overshift = L at *
  simp only
  split
  next hspecial =>
    split
    next r hr =>
      exact divSpecial_some hL hr
    next hr =>
      obtain ⟨⟨ha, hafin⟩, hb, hbfin⟩ := divSpecial_none hr
      rw [xor_and_signBit]
      exact finish_quotient _ hL hp hbias hafin hb hbfin rfl (renormalize_spec hL ha)
        (renormalize_spec hL hb) rfl
  next hspecial =>
    -- both operands are normal numbers
    rw [special_iff hL] at hspecial
    have hpos := Nat.two_pow_pos L.significandBits
    have hunpack : ∀ x : ℕ, ¬ L.magnitude x < 2 ^ L.significandBits →
        Unpacked L (L.magnitude x) (x &&& L.significandMask ||| L.implicitBit)
          (((x >>> L.significandBits &&& L.maxExponent : ℕ) : ℤ) + 0) := by
      intro x hx
      rw [significand_eq, exponent_eq, add_zero]
      exact unpacked_normal (Nat.le_of_not_lt hx)
    rw [xor_and_signBit]
    exact finish_quotient _ hL hp hbias (by rw [IsFinite]; omega) (by omega)
      (by rw [IsFinite]; omega) rfl (hunpack a (by omega)) (hunpack b (by omega)) (by ring)

/--
The least normal number divided by one is flushed, although the exact quotient is a normal
number; one third is rounded to nearest.
-/
example : divsf3 (fun _ _ => 0) 0x00800000 0x3f800000 = 0 ∧
    divsf3 (fun _ _ => 0) 0x3f800000 0x40400000 = 0x3eaaaaab := by
  decide +kernel

end Divide

end Fp
end F32c
