import F32c.Fp.Lib

/-!
# Soft-float conversions between integers and floating-point numbers

An integer becomes a number by shifting its leading bit into the implicit one. At
single precision an integer of more than 24 bits is rounded; at double precision
nothing is lost. The way back drops the bits below one. Beyond the range of an
`int` the language says nothing about the result, and neither do the statements here.
-/

namespace F32c
namespace Fp

/-- What an `int` makes of an integer: the word it is stored in, read with its sign. -/
def toInt (z : ℤ) : ℤ :=
  (z + 2 ^ 31) % 2 ^ 32 - 2 ^ 31

namespace FpLib

variable (L : FpLib)

/-- The significand field of an integer that is not longer than it. -/
def placeExact (a exponent : ℕ) : ℕ :=
  L.shl a (L.significandBits - exponent) ^^^ L.implicitBit

/-- The significand field of an integer, rounding if it is a right shift. -/
def placeRounded (a exponent : ℕ) : ℕ :=
  if exponent ≤ L.significandBits then
    L.placeExact a exponent
  else
    let shift := exponent - L.significandBits
    let result := a >>> shift ^^^ L.implicitBit
    let round := L.shl a (L.typeWidth - shift)
    L.roundRep L.signBit round result

/-- A 32-bit integer other than zero, with the way its significand field is made. -/
def insertExponent (place : ℕ → ℕ → ℕ) (a : ℕ) : ℕ :=
  let exponent := 31 - builtinClz a
  (place a exponent + L.shl (exponent + L.exponentBias) L.significandBits) % 2 ^ L.typeWidth

/-- The text of `__floatunsisf` and `__floatunsidf`. -/
def floatunsiXf (place : ℕ → ℕ → ℕ) (a : ℕ) : ℕ :=
  if a = 0 then 0 else L.insertExponent place a

/-- The text of `__floatsisf` and `__floatsidf`. The least `int` is its own negative. -/
def floatsiXf (place : ℕ → ℕ → ℕ) (a : ℤ) : ℕ :=
  if a = 0 then
    0
  else
    let sign := if a < 0 then L.signBit else 0
    let a := if a < 0 then toInt (-a) else a
    L.insertExponent place (a % 2 ^ 32).toNat ||| sign

/-- The text of `__fixsfsi` and `__fixdfsi`; the product has the type of the significand. -/
def fixXfsi (a : ℕ) : ℤ :=
  let aAbs := a &&& L.absMask
  let sign : ℤ := if a &&& L.signBit ≠ 0 then -1 else 1
  let exponent : ℤ := (aAbs >>> L.significandBits : ℕ) - L.exponentBias
  let significand := aAbs &&& L.significandMask ||| L.implicitBit
  if exponent % 2 ^ 32 < L.significandBits then
    toInt (sign * (significand >>> (L.significandBits - exponent).toNat : ℕ) % 2 ^ L.typeWidth)
  else if exponent < 0 then
    0
  else
    toInt (sign * L.shl significand (exponent - L.significandBits).toNat % 2 ^ L.typeWidth)

end FpLib

/-- `__floatsisf` -/
def floatsisf (overshift : ℕ → ℕ → ℕ) (a : ℤ) : ℕ :=
  (single overshift).floatsiXf (single overshift).placeRounded a

/-- `__floatunsisf` -/
def floatunsisf (overshift : ℕ → ℕ → ℕ) (a : ℕ) : ℕ :=
  (single overshift).floatunsiXf (single overshift).placeRounded a

/-- `__floatsidf` -/
def floatsidf (overshift : ℕ → ℕ → ℕ) (a : ℤ) : ℕ :=
  (double overshift).floatsiXf (double overshift).placeExact a

/-- `__floatunsidf` -/
def floatunsidf (overshift : ℕ → ℕ → ℕ) (a : ℕ) : ℕ :=
  (double overshift).floatunsiXf (double overshift).placeExact a

/-- `__fixsfsi` -/
def fixsfsi (overshift : ℕ → ℕ → ℕ) (a : ℕ) : ℤ :=
  (single overshift).fixXfsi a

/-- `__fixdfsi` -/
def fixdfsi (overshift : ℕ → ℕ → ℕ) (a : ℕ) : ℤ :=
  (double overshift).fixXfsi a

/-- `__fixunssfsi` -/
def fixunssfsi (overshift : ℕ → ℕ → ℕ) (a : ℕ) : ℕ :=
  let e : ℤ := ((a &&& 0x7f800000) >>> 23 : ℕ) - 127
  if e < 0 ∨ a &&& 0x80000000 ≠ 0 then
    0
  else
    let r := a &&& 0x007fffff ||| 0x00800000
    if 23 < e then (single overshift).shl r (e - 23).toNat else r >>> (23 - e).toNat


section FromIntegers

variable {L : FpLib} {a l p bias : ℕ}

open FpLib

/-- Clearing the implicit bit. -/
theorem xor_implicitBit {s : ℕ} (h : 2 ^ L.significandBits ≤ s)
    (h' : s < 2 ^ (L.significandBits + 1)) :
    s ^^^ L.implicitBit = s - 2 ^ L.significandBits := by
  rw [pow_succ] at h'
  obtain ⟨f, rfl⟩ : ∃ f, s = 2 ^ L.significandBits + f := ⟨s - 2 ^ L.significandBits, by omega⟩
  have hf : f < 2 ^ L.significandBits := by omega
  rw [Nat.add_sub_cancel_left, ← or_implicitBit_of_lt hf, implicitBit_eq]
  apply Nat.eq_of_testBit_eq
  intro i
  rw [Nat.testBit_xor, Nat.testBit_or, Nat.testBit_two_pow]
  by_cases hi : L.significandBits = i
  · subst hi
    rw [Nat.testBit_lt_two_pow hf]
    simp
  · simp [hi]

theorem placeExact_eq (hL : L.Lawful) (h0 : 0 < a) (hlog : Nat.log2 a ≤ L.significandBits) :
    L.placeExact a (Nat.log2 a)
      = a * 2 ^ (L.significandBits - Nat.log2 a) - 2 ^ L.significandBits := by
  have hwidth := hL.typeWidth_eq
  have hexp := hL.four_le_exponentBits
  obtain ⟨hlower, hupper⟩ := shiftLeft_to_top h0 hlog
  have hfit := Nat.lt_of_lt_of_le hupper
    (Nat.pow_le_pow_right (n := 2) (by decide) (show L.significandBits + 1 ≤ L.typeWidth by omega))
  rw [placeExact, shl_eq (by omega) hfit, xor_implicitBit hlower hupper]

/-- The leading bits of an integer that is `w` bits too long. -/
theorem leading_bounds {w : ℕ} (h0 : a ≠ 0) (hlog : Nat.log2 a = p + w) :
    2 ^ p ≤ a / 2 ^ w ∧ a / 2 ^ w < 2 ^ (p + 1) := by
  have hle := Nat.log2_self_le h0
  have hlt := Nat.lt_log2_self (n := a)
  rw [hlog, Nat.add_comm p w] at hle hlt
  constructor
  · rw [Nat.le_div_iff_mul_le (Nat.two_pow_pos w), ← pow_add, Nat.add_comm]
    exact hle
  · rw [Nat.div_lt_iff_lt_mul (Nat.two_pow_pos w), ← pow_add, Nat.add_comm, ← Nat.add_assoc]
    exact hlt

/-- The bits that a right shift drops, and half of its unit, as the shifted word shows them. -/
theorem placeRounded_eq (hL : L.Lawful) {w : ℕ} (hw : 1 ≤ w)
    (hlog : Nat.log2 a = L.significandBits + w) (ha : a < 2 ^ L.typeWidth) :
    L.placeRounded a (Nat.log2 a)
      = roundBits w (a % 2 ^ w) (a / 2 ^ w - 2 ^ L.significandBits) := by
  have h0 : a ≠ 0 := by
    rintro rfl
    simp at hlog
    omega
  have hwt : w < L.typeWidth := by
    have := (Nat.log2_lt h0).2 ha
    omega
  obtain ⟨hlower, hupper⟩ := leading_bounds h0 hlog
  have hsign : L.signBit = 2 ^ (L.typeWidth - 1) := by
    rw [signBit_eq, hL.typeWidth_eq]
    congr 1
    omega
  have hsplit : 2 ^ L.typeWidth = 2 ^ w * 2 ^ (L.typeWidth - w) := by
    rw [← pow_add]
    congr 1
    omega
  have hround : L.shl a (L.typeWidth - w) = a % 2 ^ w * 2 ^ (L.typeWidth - w) := by
    rw [shl, if_pos (by omega), Nat.shiftLeft_eq, hsplit, Nat.mul_mod_mul_right]
  have hhalf : 2 ^ (L.typeWidth - 1) = 2 ^ (w - 1) * 2 ^ (L.typeWidth - w) := by
    rw [← pow_add]
    congr 1
    omega
  have hroom : a / 2 ^ w - 2 ^ L.significandBits < L.infRep := by
    rw [pow_succ] at hupper
    rw [infRep_eq]
    have := Nat.mul_le_mul_right (2 ^ L.significandBits)
      (show 1 ≤ L.maxExponent from Nat.le_trans (by decide) hL.seven_le_maxExponent)
    omega
  have hpos := Nat.two_pow_pos (L.typeWidth - w)
  have key := @roundRep_eq L hL false L.typeWidth (a % 2 ^ w * 2 ^ (L.typeWidth - w)) _ hroom
  simp only [withSign, Bool.toNat_false, Nat.zero_mul, Nat.zero_add] at key
  have hlong : ¬ L.significandBits + w ≤ L.significandBits := by omega
  simp only [placeRounded, hlog, if_neg hlong, Nat.add_sub_cancel_left, hround, hsign,
    Nat.shiftRight_eq_div_pow, xor_implicitBit hlower hupper]
  rw [key]
  simp only [roundBits, hhalf, Nat.mul_lt_mul_right hpos, Nat.mul_left_inj hpos.ne']

/-- An integer that is not longer than the significand, in its place. -/
theorem mag_integer (hb : 1 ≤ bias) (hl : l ≤ p) (hlower : 2 ^ p ≤ a * 2 ^ (p - l))
    (hupper : a * 2 ^ (p - l) < 2 ^ (p + 1)) :
    mag p ((l + bias) * 2 ^ p + (a * 2 ^ (p - l) - 2 ^ p)) = a * (2 ^ p * 2 ^ (bias - 1)) := by
  rw [pow_succ] at hupper
  rw [mag_normal (by omega) (by omega), Nat.add_sub_cancel' hlower, Nat.mul_assoc, ← pow_add,
    ← pow_add]
  congr 2
  omega

/-- A longer integer, rounded at the end of the significand. -/
theorem nearest_integer {top w : ℕ} (hb : 1 ≤ bias) (hw : 1 ≤ w) (hl : l = p + w)
    (hlower : 2 ^ p ≤ a / 2 ^ w) (hupper : a / 2 ^ w < 2 ^ (p + 1))
    (htop : (l + bias) * 2 ^ p + (a / 2 ^ w - 2 ^ p) < top) :
    Nearest p top (a * (2 ^ p * 2 ^ (bias - 1))) 1
      (roundBits w (a % 2 ^ w) ((l + bias) * 2 ^ p + (a / 2 ^ w - 2 ^ p))) := by
  have hpos : 0 < 2 ^ p := Nat.two_pow_pos p
  rw [pow_succ] at hupper
  generalize hf : a / 2 ^ w - 2 ^ p = f at htop ⊢
  have hfp : f < 2 ^ p := by omega
  have hdiv : ((l + bias) * 2 ^ p + f) / 2 ^ p = l + bias := by
    rw [Nat.mul_comm, Nat.mul_add_div hpos, Nat.div_eq_of_lt hfp, Nat.add_zero]
  have hmod : ((l + bias) * 2 ^ p + f) % 2 ^ p = f := by
    rw [Nat.mul_comm, Nat.mul_add_mod, Nat.mod_eq_of_lt hfp]
  have hge : 2 ^ p ≤ (l + bias) * 2 ^ p := Nat.le_mul_of_pos_left _ (by omega)
  have hsig : significand p ((l + bias) * 2 ^ p + f) = a / 2 ^ w := by
    rw [significand, if_neg (by omega), hmod]
    omega
  have hscale : a * (2 ^ p * 2 ^ (bias - 1)) * 2 ^ w = a * (1 * 2 ^ (l + bias - 1)) := by
    rw [Nat.one_mul, Nat.mul_assoc, ← pow_add, ← pow_add]
    congr 2
    omega
  apply nearest_roundBits Nat.one_pos hw htop (Nat.mod_lt _ (Nat.two_pow_pos w))
  rw [hsig, hdiv, Nat.div_add_mod', hscale]
  exact Agrees.exact (by positivity) _ _

/-- The exponent does not take part in the rounding. -/
theorem roundBits_add (hp : 1 ≤ p) (w lo e f : ℕ) :
    roundBits w lo (e * 2 ^ p + f) = e * 2 ^ p + roundBits w lo f := by
  obtain ⟨k, rfl⟩ : ∃ k, p = k + 1 := ⟨p - 1, by omega⟩
  have hparity : (e * 2 ^ (k + 1) + f) % 2 = f % 2 := by
    rw [pow_succ, ← Nat.mul_assoc, Nat.mul_add_mod']
  rw [roundBits, roundBits, hparity]
  split
  · rfl
  · split
    · exact Nat.add_assoc _ _ _
    · rfl

theorem roundBits_le (w lo r : ℕ) : roundBits w lo r ≤ r + 1 := by
  rw [roundBits]
  split_ifs <;> omega

/-- The exponent over the significand field, which may have run over by one. -/
theorem insertExponent_eq (hL : L.Lawful) (hroom : L.exponentBias + 32 ≤ L.maxExponent)
    (place : ℕ → ℕ → ℕ) (h0 : 0 < a) (ha : a < 2 ^ 32)
    (hplace : place a (Nat.log2 a) ≤ 2 ^ L.significandBits) :
    L.insertExponent place a
        = (Nat.log2 a + L.exponentBias) * 2 ^ L.significandBits + place a (Nat.log2 a) ∧
      (Nat.log2 a + L.exponentBias + 1) * 2 ^ L.significandBits ≤ L.infRep := by
  have hlog : Nat.log2 a < 32 := (Nat.log2_lt (by omega)).2 ha
  have hclz := builtinClz_eq h0 ha
  have hexponent : 31 - builtinClz a = Nat.log2 a := by omega
  have hwidth := hL.typeWidth_eq
  have hinf := infRep_lt L
  have htop : 2 ^ (L.significandBits + L.exponentBits) ≤ 2 ^ L.typeWidth :=
    Nat.pow_le_pow_right (by decide) (by omega)
  have hmul := Nat.mul_le_mul_right (2 ^ L.significandBits)
    (show Nat.log2 a + L.exponentBias + 1 ≤ L.maxExponent by omega)
  rw [← infRep_eq] at hmul
  refine ⟨?_, hmul⟩
  rw [Nat.succ_mul] at hmul
  have hpos := Nat.two_pow_pos L.significandBits
  simp only [insertExponent, hexponent]
  rw [shl_eq (by have := hL.four_le_exponentBits; omega) (by omega), Nat.mod_eq_of_lt (by omega),
    Nat.add_comm]

/-- At double precision every integer has its number. -/
theorem insertExponent_exact (hL : L.Lawful) (hroom : L.exponentBias + 32 ≤ L.maxExponent)
    (hlong : 31 ≤ L.significandBits) (h0 : 0 < a) (ha : a < 2 ^ 32) :
    L.insertExponent L.placeExact a < L.infRep ∧
      mag L.significandBits (L.insertExponent L.placeExact a) = a * L.units L.oneRep := by
  have hlog : Nat.log2 a < 32 := (Nat.log2_lt (by omega)).2 ha
  have hplace := placeExact_eq hL h0 (by omega)
  obtain ⟨hlower, hupper⟩ := shiftLeft_to_top h0 (t := L.significandBits) (by omega)
  have hval := mag_integer hL.one_le_exponentBias (by omega) hlower hupper
  rw [pow_succ] at hupper
  obtain ⟨heq, hinf⟩ := insertExponent_eq hL hroom L.placeExact h0 ha
    (by rw [hplace]; omega)
  rw [Nat.succ_mul] at hinf
  rw [heq, hplace, units_oneRep hL, mag_oneRep hL, hval]
  exact ⟨by omega, rfl⟩

/-- At single precision it is rounded. -/
theorem insertExponent_rounded (hL : L.Lawful) (hroom : L.exponentBias + 32 ≤ L.maxExponent)
    (hwidth : 32 ≤ L.typeWidth) (h0 : 0 < a) (ha : a < 2 ^ 32) :
    Nearest L.significandBits L.infRep (a * L.units L.oneRep) 1
      (L.insertExponent L.placeRounded a) := by
  rw [units_oneRep hL, mag_oneRep hL]
  have hbias := hL.one_le_exponentBias
  rcases le_or_gt (Nat.log2 a) L.significandBits with hshort | hlong
  · obtain ⟨hlower, hupper⟩ := shiftLeft_to_top h0 hshort
    have hval := mag_integer hbias hshort hlower hupper
    have hplace : L.placeRounded a (Nat.log2 a)
        = a * 2 ^ (L.significandBits - Nat.log2 a) - 2 ^ L.significandBits := by
      rw [placeRounded, if_pos hshort, placeExact_eq hL h0 hshort]
    rw [pow_succ] at hupper
    obtain ⟨heq, hinf⟩ := insertExponent_eq hL hroom L.placeRounded h0 ha
      (by rw [hplace]; omega)
    rw [Nat.succ_mul] at hinf
    rw [heq, hplace, ← hval, ← Nat.mul_one (mag _ _)]
    exact nearest_exact Nat.one_pos (by omega)
  · obtain ⟨w, hw⟩ : ∃ w, Nat.log2 a = L.significandBits + w :=
      ⟨Nat.log2 a - L.significandBits, by omega⟩
    have hplace := placeRounded_eq hL (show 1 ≤ w by omega) hw
      (Nat.lt_of_lt_of_le ha (Nat.pow_le_pow_right (by decide) hwidth))
    obtain ⟨hlower, hupper⟩ := leading_bounds (show a ≠ 0 by omega) hw
    have hfield := roundBits_le w (a % 2 ^ w) (a / 2 ^ w - 2 ^ L.significandBits)
    have hbound := hupper
    rw [pow_succ] at hbound
    obtain ⟨heq, hinf⟩ := insertExponent_eq hL hroom L.placeRounded h0 ha
      (by rw [hplace]; omega)
    rw [Nat.succ_mul] at hinf
    rw [heq, hplace, ← roundBits_add (by have := hL.two_le_significandBits; omega)]
    exact nearest_integer hbias (by omega) hw hlower hupper (by omega)

end FromIntegers


section ToIntegers

variable {L : FpLib} {a p bias x : ℕ}

open FpLib

theorem toInt_of_range {z : ℤ} (h : -2 ^ 31 ≤ z) (h' : z < 2 ^ 31) : toInt z = z := by
  rw [toInt, Int.emod_eq_of_lt (by omega) (by omega)]
  omega

/-- A wider word has the same low half. -/
theorem toInt_emod {w : ℕ} (hw : 32 ≤ w) (z : ℤ) : toInt (z % 2 ^ w) = toInt z := by
  have hdvd : (2 : ℤ) ^ 32 ∣ 2 ^ w := pow_dvd_pow 2 hw
  rw [toInt, toInt, ← Int.emod_add_emod, Int.emod_emod_of_dvd z hdvd, Int.emod_add_emod]

/-- The integer part of a number below one. -/
theorem integerPart_small (hb : 1 ≤ bias) (h : x / 2 ^ p < bias) :
    mag p x / (2 ^ p * 2 ^ (bias - 1)) = 0 := by
  have hone := mag_normal (p := p) hb (Nat.two_pow_pos p)
  rw [Nat.add_zero, Nat.add_zero] at hone
  apply Nat.div_eq_of_lt
  rw [← hone, mag_lt_mag]
  exact (Nat.div_lt_iff_lt_mul (Nat.two_pow_pos p)).1 h

/-- The value of a number from one on. -/
theorem mag_from_one {k : ℕ} (hb : 1 ≤ bias) (h : x / 2 ^ p = bias + k) :
    mag p x = (2 ^ p + x % 2 ^ p) * 2 ^ k * 2 ^ (bias - 1) := by
  have hval := mag_normal (p := p) (show 1 ≤ x / 2 ^ p by omega)
    (Nat.mod_lt x (Nat.two_pow_pos p))
  rw [← eq_exponent_add] at hval
  rw [hval, h, Nat.mul_assoc, ← pow_add]
  congr 2
  omega

/-- The integer part of a number with bits below one. -/
theorem integerPart_right {k : ℕ} (hb : 1 ≤ bias) (h : x / 2 ^ p = bias + k) (hk : k ≤ p) :
    mag p x / (2 ^ p * 2 ^ (bias - 1)) = (2 ^ p + x % 2 ^ p) / 2 ^ (p - k) := by
  have hsplit : 2 ^ p = 2 ^ (p - k) * 2 ^ k := by
    rw [← pow_add]
    congr 1
    omega
  rw [mag_from_one hb h, Nat.mul_div_mul_right _ _ (Nat.two_pow_pos _)]
  generalize x % 2 ^ p = f
  nth_rewrite 2 [hsplit]
  rw [Nat.mul_div_mul_right _ _ (Nat.two_pow_pos k)]

/-- The integer part of a number without bits below one. -/
theorem integerPart_left {j : ℕ} (hb : 1 ≤ bias) (h : x / 2 ^ p = bias + (p + j)) :
    mag p x / (2 ^ p * 2 ^ (bias - 1)) = (2 ^ p + x % 2 ^ p) * 2 ^ j := by
  rw [mag_from_one hb h, Nat.mul_div_mul_right _ _ (Nat.two_pow_pos _), Nat.add_comm p j, pow_add,
    ← Nat.mul_assoc, Nat.mul_div_cancel _ (Nat.two_pow_pos p)]

/-- The value cut off at one, from its sign and the integer part of its magnitude. -/
theorem tdiv_value (L : FpLib) (a n : ℕ) :
    (L.value a).tdiv n
      = (if L.negative a then -1 else 1) * (mag L.significandBits (L.magnitude a) / n : ℕ) := by
  rw [value_eq]
  cases L.negative a with
  | false =>
      rw [if_neg (by simp), if_neg (by simp), Int.one_mul]
      rfl
  | true =>
      rw [if_pos rfl, if_pos rfl, Int.neg_tdiv, Int.neg_one_mul]
      rfl

/-- The conversion cuts off the bits below one, for a value in the range of an `int`. -/
theorem fixXfsi_spec (hL : L.Lawful) (hwidth : 32 ≤ L.typeWidth) (hwidth' : L.typeWidth ≤ 64)
    (hlow : -2 ^ 31 ≤ (L.value a).tdiv (L.units L.oneRep))
    (hhigh : (L.value a).tdiv (L.units L.oneRep) < 2 ^ 31) :
    L.fixXfsi a = (L.value a).tdiv (L.units L.oneRep) := by
  have hsign : a &&& L.signBit ≠ 0 ↔ L.negative a = true := by
    rw [and_signBit, withSign, Nat.add_zero]
    have := Nat.two_pow_pos (L.significandBits + L.exponentBits)
    cases L.negative a with
    | false => simp
    | true => simp
  have hbias := hL.one_le_exponentBias
  have hsize : L.maxExponent < 2 ^ 31 ∧ L.exponentBias < 2 ^ 31 := by
    have := Nat.pow_le_pow_right (n := 2) (by decide)
      (show L.exponentBits ≤ 31 by have := hL.exponentBits_lt; omega)
    have := hL.sixteen_le
    rw [exponentBias_eq, maxExponent_eq]
    omega
  have hexp := exponent_le L a
  have htw := hL.typeWidth_eq
  have hfield := Nat.mod_lt (L.magnitude a) (Nat.two_pow_pos L.significandBits)
  rw [tdiv_value, units_oneRep hL, mag_oneRep hL] at hlow hhigh ⊢
  simp only [fixXfsi, hsign, and_absMask, and_significandMask, or_implicitBit_of_lt hfield,
    Nat.shiftRight_eq_div_pow]
  generalize hs : (if L.negative a = true then (-1 : ℤ) else 1) = s at hlow hhigh ⊢
  have hunit : s = -1 ∨ s = 1 := by
    rw [← hs]
    split <;> simp
  generalize hE : L.magnitude a / 2 ^ L.significandBits = E at hexp ⊢
  rcases Nat.lt_or_ge E L.exponentBias with hsmall | hone
  · -- below one: the exponent is negative, and large as an unsigned number
    rw [integerPart_small hbias (by rwa [hE]), if_neg (by omega), if_pos (by omega), Nat.cast_zero,
      Int.mul_zero]
  obtain ⟨k, rfl⟩ : ∃ k, E = L.exponentBias + k := ⟨E - L.exponentBias, by omega⟩
  rcases Nat.lt_or_ge k L.significandBits with hright | hleft
  · rw [integerPart_right hbias hE (Nat.le_of_lt hright)] at hlow hhigh ⊢
    have hcount : ((L.significandBits : ℤ)
        - ((L.exponentBias + k : ℕ) - L.exponentBias)).toNat
        = L.significandBits - k := by omega
    rw [if_pos (by omega), hcount, toInt_emod hwidth, toInt_of_range hlow hhigh]
  · obtain ⟨j, rfl⟩ : ∃ j, k = L.significandBits + j := ⟨k - L.significandBits, by omega⟩
    rw [integerPart_left hbias hE] at hlow hhigh ⊢
    have hcount : (((L.exponentBias + (L.significandBits + j) : ℕ) : ℤ) - L.exponentBias
        - L.significandBits).toNat = j := by omega
    have hfit : (2 ^ L.significandBits + L.magnitude a % 2 ^ L.significandBits) * 2 ^ j
        < 2 ^ 32 := by
      generalize (2 ^ L.significandBits + L.magnitude a % 2 ^ L.significandBits) * 2 ^ j = q
        at hlow hhigh ⊢
      rcases hunit with rfl | rfl <;> omega
    have hj : j < 32 := by
      rw [← Nat.pow_lt_pow_iff_right (a := 2) (by decide)]
      refine Nat.lt_of_le_of_lt (Nat.le_mul_of_pos_left _ ?_) hfit
      have := Nat.two_pow_pos L.significandBits
      omega
    rw [if_neg (by omega), if_neg (by omega), hcount, shl_eq (by omega)
      (Nat.lt_of_lt_of_le hfit (Nat.pow_le_pow_right (by decide) hwidth)), toInt_emod hwidth,
      toInt_of_range hlow hhigh]

end ToIntegers


section Constants

open FpLib

theorem single_exponentBias (overshift : ℕ → ℕ → ℕ) : (single overshift).exponentBias = 127 := by
  rw [exponentBias_eq, single_exponentBits]
  rfl

theorem double_exponentBias (overshift : ℕ → ℕ → ℕ) : (double overshift).exponentBias = 1023 := by
  rw [exponentBias_eq, double_exponentBits]
  rfl

theorem single_maxExponent (overshift : ℕ → ℕ → ℕ) : (single overshift).maxExponent = 255 := by
  rw [maxExponent_eq, single_exponentBits]
  rfl

theorem double_maxExponent (overshift : ℕ → ℕ → ℕ) : (double overshift).maxExponent = 2047 := by
  rw [maxExponent_eq, double_exponentBits]
  rfl

/-- The exponents of 32-bit integers are exponents of both formats. -/
theorem single_room (overshift : ℕ → ℕ → ℕ) :
    (single overshift).exponentBias + 32 ≤ (single overshift).maxExponent := by
  rw [single_exponentBias, single_maxExponent]
  decide

theorem double_room (overshift : ℕ → ℕ → ℕ) :
    (double overshift).exponentBias + 32 ≤ (double overshift).maxExponent := by
  rw [double_exponentBias, double_maxExponent]
  decide

end Constants


section Integers

variable {L : FpLib} {a : ℤ} {b : ℕ}

open FpLib

/-- A number is the integer rounded to nearest, under the integer's sign. -/
structure RoundsInteger (L : FpLib) (a : ℤ) (r : ℕ) : Prop where
  negative : L.negative r = decide (a < 0)
  nearest : Nearest L.significandBits L.infRep (a.natAbs * L.units L.oneRep) 1 (L.magnitude r)

/-- A number is the integer. -/
structure IsInteger (L : FpLib) (a : ℤ) (r : ℕ) : Prop where
  finite : L.IsFinite r
  value : L.value r = a * L.units L.oneRep

/-- The sign and the magnitude of a converted `int`. -/
theorem floatsiXf_eq {place : ℕ → ℕ → ℕ} (h0 : a ≠ 0) (hlow : -2 ^ 31 ≤ a) (hhigh : a < 2 ^ 31)
    (hle : L.insertExponent place a.natAbs ≤ L.infRep) :
    L.floatsiXf place a = L.withSign (decide (a < 0)) (L.insertExponent place a.natAbs) := by
  have hword : ((if a < 0 then toInt (-a) else a) % 2 ^ 32).toNat = a.natAbs := by
    rw [toInt]
    split <;> omega
  have hsign : (if a < 0 then L.signBit else 0) = L.withSign (decide (a < 0)) 0 := by
    rw [signBit_eq, withSign]
    split
    next h => simp [h]
    next h => simp [h]
  simp only [floatsiXf, if_neg h0, hword, hsign]
  exact or_withSign _ (Nat.lt_of_le_of_lt hle (infRep_lt L))

theorem floatunsiXf_eq {place : ℕ → ℕ → ℕ} (h0 : b ≠ 0) :
    L.floatunsiXf place b = L.withSign (decide ((b : ℤ) < 0)) (L.insertExponent place b) := by
  rw [floatunsiXf, if_neg h0, withSign, decide_eq_false (by omega), Bool.toNat_false,
    Nat.zero_mul, Nat.zero_add]

theorem RoundsInteger.of_withSign
    (h : Nearest L.significandBits L.infRep (a.natAbs * L.units L.oneRep) 1 b) :
    RoundsInteger L a (L.withSign (decide (a < 0)) b) := by
  have hlt := Nat.lt_of_le_of_lt h.1 (infRep_lt L)
  exact ⟨negative_withSign _ hlt, by rwa [magnitude_withSign _ hlt]⟩

theorem IsInteger.of_withSign (hlt : b < L.infRep)
    (h : mag L.significandBits b = a.natAbs * L.units L.oneRep) :
    IsInteger L a (L.withSign (decide (a < 0)) b) := by
  have hroom := Nat.lt_trans hlt (infRep_lt L)
  refine ⟨by rwa [IsFinite, magnitude_withSign _ hroom], ?_⟩
  rw [value_eq, negative_withSign _ hroom, magnitude_withSign _ hroom, h, Nat.cast_mul]
  rcases lt_or_ge a 0 with hneg | hpos
  · have habs : (a.natAbs : ℤ) = -a := by omega
    rw [decide_eq_true hneg, if_pos rfl, habs, Int.neg_mul, Int.neg_neg]
  · have habs : (a.natAbs : ℤ) = a := by omega
    rw [decide_eq_false (by omega), if_neg (by simp), habs]

theorem roundsInteger_zero (L : FpLib) : RoundsInteger L 0 0 := by
  have h := RoundsInteger.of_withSign (L := L) (a := 0) (b := 0) (by
    have := nearest_exact (p := L.significandBits) Nat.one_pos (Nat.zero_le L.infRep)
    rw [mag_zero, Nat.zero_mul] at this
    simpa using this)
  simpa [withSign] using h

theorem isInteger_zero (hL : L.Lawful) : IsInteger L 0 0 := by
  have h := IsInteger.of_withSign (L := L) (a := 0) (infRep_pos hL) (by simp)
  simpa [withSign] using h

theorem floatsiXf_rounds (hL : L.Lawful) (hroom : L.exponentBias + 32 ≤ L.maxExponent)
    (hwidth : 32 ≤ L.typeWidth) (hlow : -2 ^ 31 ≤ a) (hhigh : a < 2 ^ 31) :
    RoundsInteger L a (L.floatsiXf L.placeRounded a) := by
  by_cases h0 : a = 0
  · subst h0
    exact roundsInteger_zero L
  · have hnear := insertExponent_rounded hL hroom hwidth (a := a.natAbs) (by omega) (by omega)
    rw [floatsiXf_eq h0 hlow hhigh hnear.1]
    exact RoundsInteger.of_withSign hnear

theorem floatunsiXf_rounds (hL : L.Lawful) (hroom : L.exponentBias + 32 ≤ L.maxExponent)
    (hwidth : 32 ≤ L.typeWidth) (hb : b < 2 ^ 32) :
    RoundsInteger L b (L.floatunsiXf L.placeRounded b) := by
  by_cases h0 : b = 0
  · subst h0
    exact roundsInteger_zero L
  · rw [floatunsiXf_eq h0]
    exact RoundsInteger.of_withSign (insertExponent_rounded hL hroom hwidth (by omega) hb)

theorem floatsiXf_exact (hL : L.Lawful) (hroom : L.exponentBias + 32 ≤ L.maxExponent)
    (hlong : 31 ≤ L.significandBits) (hlow : -2 ^ 31 ≤ a) (hhigh : a < 2 ^ 31) :
    IsInteger L a (L.floatsiXf L.placeExact a) := by
  by_cases h0 : a = 0
  · subst h0
    exact isInteger_zero hL
  · obtain ⟨hlt, hval⟩ := insertExponent_exact hL hroom hlong (a := a.natAbs) (by omega) (by omega)
    rw [floatsiXf_eq h0 hlow hhigh (Nat.le_of_lt hlt)]
    exact IsInteger.of_withSign hlt hval

theorem floatunsiXf_exact (hL : L.Lawful) (hroom : L.exponentBias + 32 ≤ L.maxExponent)
    (hlong : 31 ≤ L.significandBits) (hb : b < 2 ^ 32) :
    IsInteger L b (L.floatunsiXf L.placeExact b) := by
  by_cases h0 : b = 0
  · subst h0
    exact isInteger_zero hL
  · obtain ⟨hlt, hval⟩ := insertExponent_exact hL hroom hlong (a := b) (by omega) hb
    rw [floatunsiXf_eq h0]
    exact IsInteger.of_withSign hlt hval

/-- The four conversions from integers of 32 bits. -/
theorem floatsi_spec (overshift : ℕ → ℕ → ℕ) {a : ℤ} {b : ℕ} (hlow : -2 ^ 31 ≤ a)
    (hhigh : a < 2 ^ 31) (hb : b < 2 ^ 32) :
    RoundsInteger (single overshift) a (floatsisf overshift a) ∧
      RoundsInteger (single overshift) b (floatunsisf overshift b) ∧
      IsInteger (double overshift) a (floatsidf overshift a) ∧
      IsInteger (double overshift) b (floatunsidf overshift b) := by
  have hsingle := single_room overshift
  have hdouble := double_room overshift
  have hL := single_lawful overshift
  have hL' := double_lawful overshift
  exact ⟨floatsiXf_rounds hL hsingle (Nat.le_refl 32) hlow hhigh,
    floatunsiXf_rounds hL hsingle (Nat.le_refl 32) hb,
    floatsiXf_exact hL' hdouble (show 31 ≤ 52 by decide) hlow hhigh,
    floatunsiXf_exact hL' hdouble (show 31 ≤ 52 by decide) hb⟩

/-- The least `int`, and an unsigned number that is a tie at single precision. -/
theorem floatsi_spec_instance :
    RoundsInteger (single fun _ _ => 0) (-2 ^ 31) (floatsisf (fun _ _ => 0) (-2 ^ 31)) ∧
      RoundsInteger (single fun _ _ => 0) (2 ^ 24 + 1 : ℕ)
        (floatunsisf (fun _ _ => 0) (2 ^ 24 + 1)) ∧
      IsInteger (double fun _ _ => 0) (-2 ^ 31) (floatsidf (fun _ _ => 0) (-2 ^ 31)) ∧
      IsInteger (double fun _ _ => 0) (2 ^ 24 + 1 : ℕ)
        (floatunsidf (fun _ _ => 0) (2 ^ 24 + 1)) :=
  floatsi_spec (fun _ _ => 0) (by decide) (by decide) (by decide)

/-- The sign bit and the fields as `__fixunssfsi` masks them. -/
theorem fixunssfsi_eq (overshift : ℕ → ℕ → ℕ) (x : ℕ) :
    fixunssfsi overshift x =
      if (((single overshift).magnitude x / 2 ^ 23 : ℕ) : ℤ) - 127 < 0 ∨
          (single overshift).negative x = true then 0
      else if 23 < (((single overshift).magnitude x / 2 ^ 23 : ℕ) : ℤ) - 127 then
        (single overshift).shl (2 ^ 23 + (single overshift).magnitude x % 2 ^ 23)
          ((((single overshift).magnitude x / 2 ^ 23 : ℕ) : ℤ) - 127 - 23).toNat
      else (2 ^ 23 + (single overshift).magnitude x % 2 ^ 23)
        >>> (23 - ((((single overshift).magnitude x / 2 ^ 23 : ℕ) : ℤ) - 127)).toNat := by
  have hexponent : (x &&& 0x7f800000) >>> 23 = (single overshift).magnitude x / 2 ^ 23 := by
    rw [Nat.shiftRight_and_distrib]
    exact exponent_eq (single overshift) x
  have hsign : x &&& 0x80000000 ≠ 0 ↔ (single overshift).negative x = true := by
    have hbit : x &&& 0x80000000 = (single overshift).withSign ((single overshift).negative x) 0 :=
      and_signBit (single overshift) x
    rw [hbit]
    cases (single overshift).negative x with
    | false => exact iff_of_false (by simp [withSign]) (by simp)
    | true => exact iff_of_true (by simp [withSign]) rfl
  have hfield : x &&& 0x007fffff ||| 0x00800000
      = 2 ^ 23 + (single overshift).magnitude x % 2 ^ 23 := by
    have hsig : x &&& 0x007fffff = (single overshift).magnitude x % 2 ^ 23 :=
      significand_eq (single overshift) x
    rw [hsig]
    exact or_implicitBit_of_lt (L := single overshift) (Nat.mod_lt _ (by decide))
  simp only [fixunssfsi, hexponent, hsign, hfield]

/-- The unsigned conversion: zero for a negative number, else the bits below one cut off. -/
theorem fixunssfsi_spec (overshift : ℕ → ℕ → ℕ) {x : ℕ}
    (hrange : (single overshift).units x / (single overshift).units (single overshift).oneRep
      < 2 ^ 32) :
    fixunssfsi overshift x =
      if (single overshift).negative x then 0
      else (single overshift).units x / (single overshift).units (single overshift).oneRep := by
  have hL := single_lawful overshift
  have hone : (single overshift).units (single overshift).oneRep = 2 ^ 23 * 2 ^ (127 - 1) := by
    rw [units_oneRep hL, mag_oneRep hL, single_exponentBias]
    rfl
  rw [fixunssfsi_eq]
  rw [hone] at hrange ⊢
  have hunits : (single overshift).units x = mag 23 ((single overshift).magnitude x) := rfl
  rw [hunits] at hrange ⊢
  generalize (single overshift).magnitude x = m at hrange ⊢
  by_cases hneg : (single overshift).negative x = true
  · rw [if_pos (Or.inr hneg), if_pos hneg]
  rw [if_neg hneg]
  rcases Nat.lt_or_ge (m / 2 ^ 23) 127 with hsmall | hlarge
  · rw [if_pos (Or.inl (by omega)), integerPart_small (by decide) hsmall]
  obtain ⟨k, hk⟩ : ∃ k, m / 2 ^ 23 = 127 + k := ⟨m / 2 ^ 23 - 127, by omega⟩
  rw [if_neg (by rw [not_or]; exact ⟨by omega, hneg⟩)]
  rcases Nat.lt_or_ge 23 k with hleft | hright
  · obtain ⟨j, rfl⟩ : ∃ j, k = 23 + j := ⟨k - 23, by omega⟩
    rw [integerPart_left (by decide) hk] at hrange ⊢
    have hcount : (((m / 2 ^ 23 : ℕ) : ℤ) - 127 - 23).toNat = j := by omega
    have hj : j < 32 := by
      rw [← Nat.pow_lt_pow_iff_right (a := 2) (by decide)]
      exact Nat.lt_of_le_of_lt (Nat.le_mul_of_pos_left _ (by omega)) hrange
    rw [if_pos (by omega), hcount]
    exact shl_eq hj hrange
  · rw [integerPart_right (by decide) hk hright]
    have hcount : (23 - (((m / 2 ^ 23 : ℕ) : ℤ) - 127)).toNat = 23 - k := by omega
    rw [if_neg (by omega), hcount, Nat.shiftRight_eq_div_pow]

/-- An `int` comes back from double precision as it was. -/
theorem fixdfsi_floatsidf (overshift : ℕ → ℕ → ℕ) {a : ℤ} (hlow : -2 ^ 31 ≤ a)
    (hhigh : a < 2 ^ 31) : fixdfsi overshift (floatsidf overshift a) = a := by
  have hL := double_lawful overshift
  have hval : IsInteger (double overshift) a (floatsidf overshift a) :=
    floatsiXf_exact hL (double_room overshift) (show 31 ≤ 52 by decide) hlow hhigh
  have hpos := units_oneRep_pos hL
  have hcut : ((double overshift).value (floatsidf overshift a)).tdiv
      ((double overshift).units (double overshift).oneRep) = a := by
    rw [hval.value]
    exact Int.mul_tdiv_cancel a (by omega)
  have hfix := fixXfsi_spec (a := floatsidf overshift a) hL (show 32 ≤ 64 by decide)
    (Nat.le_refl 64) (by rw [hcut]; exact hlow) (by rw [hcut]; exact hhigh)
  rw [hcut] at hfix
  exact hfix

/-- The conversions to integers of 32 bits, each for the values that have one. -/
theorem fixsi_spec (overshift : ℕ → ℕ → ℕ) (a : ℕ) :
    (∀ z : ℤ, ((single overshift).value a).tdiv
          ((single overshift).units (single overshift).oneRep) = z →
        -2 ^ 31 ≤ z → z < 2 ^ 31 → fixsfsi overshift a = z) ∧
      (∀ z : ℤ, ((double overshift).value a).tdiv
          ((double overshift).units (double overshift).oneRep) = z →
        -2 ^ 31 ≤ z → z < 2 ^ 31 → fixdfsi overshift a = z) ∧
      ((single overshift).units a / (single overshift).units (single overshift).oneRep < 2 ^ 32 →
        fixunssfsi overshift a =
          if (single overshift).negative a then 0
          else (single overshift).units a / (single overshift).units (single overshift).oneRep) := by
  refine ⟨?_, ?_, fixunssfsi_spec overshift⟩
  · rintro z rfl hlow hhigh
    exact fixXfsi_spec (single_lawful overshift) (Nat.le_refl 32) (show 32 ≤ 64 by decide) hlow hhigh
  · rintro z rfl hlow hhigh
    exact fixXfsi_spec (double_lawful overshift) (show 32 ≤ 64 by decide) (Nat.le_refl 64) hlow hhigh

/-- The least `int`, minus one and a half, and the largest number below `2 ^ 32`. -/
theorem fixsi_spec_instance :
    fixsfsi (fun _ _ => 0) 0xcf000000 = -2 ^ 31 ∧ fixdfsi (fun _ _ => 0) 0xbff8000000000000 = -1 ∧
      fixunssfsi (fun _ _ => 0) 0x4f7fffff = 0xffffff00 := by
  refine ⟨(fixsi_spec (fun _ _ => 0) 0xcf000000).1 _ ?_ (by decide) (by decide),
    (fixsi_spec (fun _ _ => 0) 0xbff8000000000000).2.1 _ ?_ (by decide) (by decide),
    (fixsi_spec (fun _ _ => 0) 0x4f7fffff).2.2 ?_⟩
  · decide +kernel
  · decide +kernel
  · decide +kernel

/-- The least `int` there and back. -/
theorem fixdfsi_floatsidf_instance :
    fixdfsi (fun _ _ => 0) (floatsidf (fun _ _ => 0) (-2 ^ 31)) = -2 ^ 31 :=
  fixdfsi_floatsidf (fun _ _ => 0) (by decide) (by decide)

end Integers

end Fp
end F32c
