import F32c.Fp.Round
import Mathlib.Data.Nat.Bitwise

/-!
# The soft-float library's common header

A floating-point number is handled as the unsigned integer that its bits form.
One header serves both widths: a source file defines the precision and gets the
width of the integer, the number of stored significand bits and two helpers that
depend on the width. `FpLib` holds these, and the rest of the header is defined
from them as the macros are.

Unsigned arithmetic wraps at the width. A shift by the width or more is left open
by the language; `overshift` stands for what the target does there, and nothing is
assumed about it.
-/

namespace F32c
namespace Fp

/-- What `SINGLE_PRECISION` and `DOUBLE_PRECISION` choose. -/
structure FpLib where
  typeWidth : ℕ
  significandBits : ℕ
  repClz : ℕ → ℕ
  wideMultiply : ℕ → ℕ → ℕ × ℕ
  /-- A left shift by the whole width of the type or more. -/
  overshift : ℕ → ℕ → ℕ

/-- Unsigned subtraction in `w` bits. -/
def wrapSub (w x y : ℕ) : ℕ :=
  (x + 2 ^ w - y) % 2 ^ w

/-- `__builtin_clz` of a 32-bit word other than zero. -/
def builtinClz (a : ℕ) : ℕ :=
  31 - Nat.log2 a

/-- `wideMultiply` at single precision: the compiler has the 64-bit product. -/
def wideMultiplySingle (a b : ℕ) : ℕ × ℕ :=
  let product := a * b
  (product >>> 32 % 2 ^ 32, product % 2 ^ 32)

/-- The low word of a 64-bit number. -/
def loWord (a : ℕ) : ℕ :=
  a &&& 0xffffffff

/-- The high word of a 64-bit number. -/
def hiWord (a : ℕ) : ℕ :=
  a >>> 32

/-- `wideMultiply` at double precision, from four products of halves. -/
def wideMultiplyDouble (a b : ℕ) : ℕ × ℕ :=
  let plolo := loWord a * loWord b % 2 ^ 64
  let plohi := loWord a * hiWord b % 2 ^ 64
  let philo := hiWord a * loWord b % 2 ^ 64
  let phihi := hiWord a * hiWord b % 2 ^ 64
  let r0 := loWord plolo
  let r1 := (hiWord plolo + loWord plohi + loWord philo) % 2 ^ 64
  ((hiWord plohi + hiWord philo + hiWord r1 + phihi) % 2 ^ 64,
    (r0 + r1 <<< 32 % 2 ^ 64) % 2 ^ 64)

/-- `rep_clz` at double precision on a target with 32-bit words. -/
def repClzDouble (a : ℕ) : ℕ :=
  if a &&& 0xffffffff00000000 ≠ 0 then
    builtinClz (a >>> 32)
  else
    32 + builtinClz (a &&& 0xffffffff)

/-- The header with `SINGLE_PRECISION`. -/
def single (overshift : ℕ → ℕ → ℕ) : FpLib where
  typeWidth := 32
  significandBits := 23
  repClz := builtinClz
  wideMultiply := wideMultiplySingle
  overshift := overshift

/-- The header with `DOUBLE_PRECISION`. -/
def double (overshift : ℕ → ℕ → ℕ) : FpLib where
  typeWidth := 64
  significandBits := 52
  repClz := repClzDouble
  wideMultiply := wideMultiplyDouble
  overshift := overshift

namespace FpLib

variable (L : FpLib)

def exponentBits : ℕ := L.typeWidth - L.significandBits - 1

def maxExponent : ℕ := 1 <<< L.exponentBits - 1

def exponentBias : ℕ := L.maxExponent >>> 1

def implicitBit : ℕ := 1 <<< L.significandBits

def significandMask : ℕ := L.implicitBit - 1

def signBit : ℕ := 1 <<< (L.significandBits + L.exponentBits)

def absMask : ℕ := L.signBit - 1

def exponentMask : ℕ := L.absMask ^^^ L.significandMask

def infRep : ℕ := L.exponentMask

def quietBit : ℕ := L.implicitBit >>> 1

def qnanRep : ℕ := L.exponentMask ||| L.quietBit

def oneRep : ℕ := L.exponentBias <<< L.significandBits

/-- A left shift in `rep_t`. -/
def shl (x n : ℕ) : ℕ :=
  if n < L.typeWidth then x <<< n % 2 ^ L.typeWidth else L.overshift x n

/-- A truth value stored as a number. -/
def bit (b : Prop) [Decidable b] : ℕ :=
  if b then 1 else 0

/-- `normalize`: the significand shifted up to the implicit bit, and the exponent it gets. -/
def normalize (significand : ℕ) : ℕ × ℤ :=
  let shift : ℤ := (L.repClz significand : ℤ) - L.repClz L.implicitBit
  (L.shl significand shift.toNat, 1 - shift)

def wideLeftShift (hi lo count : ℕ) : ℕ × ℕ :=
  (L.shl hi count ||| lo >>> (L.typeWidth - count), L.shl lo count)

def wideRightShiftWithSticky (hi lo count : ℕ) : ℕ × ℕ :=
  if count < L.typeWidth then
    let sticky := bit (L.shl lo (L.typeWidth - count) ≠ 0)
    (hi >>> count, L.shl hi (L.typeWidth - count) ||| lo >>> count ||| sticky)
  else if count < 2 * L.typeWidth then
    let sticky := bit ((L.shl hi (2 * L.typeWidth - count) ||| lo) ≠ 0)
    (0, hi >>> (count - L.typeWidth) ||| sticky)
  else
    let sticky := bit ((hi ||| lo) ≠ 0)
    (0, sticky)

/-- The rounding that ends every routine: `lo` is what lies below the result, `half` its middle. -/
def roundRep (half lo result : ℕ) : ℕ :=
  let result' := if half < lo then (result + 1) % 2 ^ L.typeWidth else result
  if lo = half then (result' + (result' &&& 1)) % 2 ^ L.typeWidth else result'

/-- What the routines rely on in the two helpers and the two widths. -/
structure Lawful : Prop where
  four_le_exponentBits : 4 ≤ L.exponentBits
  exponentBits_lt : L.exponentBits < 32
  two_le_significandBits : 2 ≤ L.significandBits
  typeWidth_eq : L.typeWidth = L.significandBits + 1 + L.exponentBits
  repClz_eq : ∀ a, 0 < a → a < 2 ^ L.typeWidth → L.repClz a + Nat.log2 a + 1 = L.typeWidth
  wideMultiply_eq : ∀ a b, a < 2 ^ L.typeWidth → b < 2 ^ L.typeWidth →
    L.wideMultiply a b = (a * b / 2 ^ L.typeWidth, a * b % 2 ^ L.typeWidth)

end FpLib


section Helpers

theorem builtinClz_eq {a : ℕ} (h0 : 0 < a) (h : a < 2 ^ 32) :
    builtinClz a + Nat.log2 a + 1 = 32 := by
  have hlog : Nat.log2 a < 32 := (Nat.log2_lt (by omega)).2 h
  rw [builtinClz]
  omega

theorem loWord_eq (a : ℕ) : loWord a = a % 2 ^ 32 :=
  Nat.and_two_pow_sub_one_eq_mod a 32

theorem hiWord_eq (a : ℕ) : hiWord a = a / 2 ^ 32 :=
  Nat.shiftRight_eq_div_pow a 32

/-- The word of a product's halves, with their carries. -/
theorem wideMultiplyDouble_eq {a b : ℕ} (ha : a < 2 ^ 64) (hb : b < 2 ^ 64) :
    wideMultiplyDouble a b = (a * b / 2 ^ 64, a * b % 2 ^ 64) := by
  obtain ⟨a1, a0, ha0, rfl⟩ : ∃ a1 a0, a0 < 2 ^ 32 ∧ a = 2 ^ 32 * a1 + a0 :=
    ⟨a / 2 ^ 32, a % 2 ^ 32, Nat.mod_lt _ (by decide), (Nat.div_add_mod a _).symm⟩
  obtain ⟨b1, b0, hb0, rfl⟩ : ∃ b1 b0, b0 < 2 ^ 32 ∧ b = 2 ^ 32 * b1 + b0 :=
    ⟨b / 2 ^ 32, b % 2 ^ 32, Nat.mod_lt _ (by decide), (Nat.div_add_mod b _).symm⟩
  have ha1 : a1 < 2 ^ 32 := by omega
  have hb1 : b1 < 2 ^ 32 := by omega
  have hdiv : ∀ x y : ℕ, y < 2 ^ 32 → (2 ^ 32 * x + y) / 2 ^ 32 = x := by
    intro x y hy
    omega
  have hmod : ∀ x y : ℕ, y < 2 ^ 32 → (2 ^ 32 * x + y) % 2 ^ 32 = y := by
    intro x y hy
    omega
  have hprod : ∀ x y : ℕ, x < 2 ^ 32 → y < 2 ^ 32 → x * y ≤ (2 ^ 32 - 1) * (2 ^ 32 - 1) := by
    intro x y hx hy
    exact Nat.mul_le_mul (by omega) (by omega)
  have hexpand : (2 ^ 32 * a1 + a0) * (2 ^ 32 * b1 + b0)
      = 2 ^ 64 * (a1 * b1) + 2 ^ 32 * (a1 * b0 + a0 * b1) + a0 * b0 := by ring
  have h00 := hprod a0 b0 ha0 hb0
  have h01 := hprod a0 b1 ha0 hb1
  have h10 := hprod a1 b0 ha1 hb0
  have h11 := hprod a1 b1 ha1 hb1
  simp only [wideMultiplyDouble, loWord_eq, hiWord_eq, hdiv _ _ ha0, hdiv _ _ hb0,
    hmod _ _ ha0, hmod _ _ hb0, Nat.shiftLeft_eq, hexpand]
  generalize a0 * b0 = x at *
  generalize a0 * b1 = y at *
  generalize a1 * b0 = z at *
  generalize a1 * b1 = t at *
  rw [Prod.mk.injEq]
  constructor <;> omega

theorem repClzDouble_eq {a : ℕ} (h0 : 0 < a) (h : a < 2 ^ 64) :
    repClzDouble a + Nat.log2 a + 1 = 64 := by
  have hhigh : a &&& 0xffffffff00000000 = a / 2 ^ 32 * 2 ^ 32 := by
    apply Nat.eq_of_testBit_eq
    intro i
    have hmask : (0xffffffff00000000 : ℕ) = (2 ^ 32 - 1) * 2 ^ 32 := by decide
    rw [hmask, Nat.testBit_and, Nat.testBit_mul_two_pow, Nat.testBit_mul_two_pow,
      Nat.testBit_div_two_pow, Nat.testBit_two_pow_sub_one]
    by_cases hi : 32 ≤ i
    · rw [show i - 32 + 32 = i by omega]
      simp only [hi, decide_true, Bool.true_and]
      by_cases hi' : i < 64
      · simp [show i - 32 < 32 by omega]
      · rw [Nat.testBit_lt_two_pow (Nat.lt_of_lt_of_le h (Nat.pow_le_pow_right (by decide)
          (by omega)))]
        rfl
    · simp [hi]
  have hlow : a &&& 0xffffffff = a % 2 ^ 32 := Nat.and_two_pow_sub_one_eq_mod a 32
  rw [repClzDouble, hhigh, hlow, Nat.shiftRight_eq_div_pow]
  by_cases hbig : a / 2 ^ 32 = 0
  · have hsmall : a < 2 ^ 32 := by omega
    rw [hbig, Nat.zero_mul, if_neg (by simp), Nat.mod_eq_of_lt hsmall]
    have := builtinClz_eq h0 hsmall
    omega
  · rw [if_pos (Nat.mul_ne_zero hbig (by decide))]
    have hword := builtinClz_eq (a := a / 2 ^ 32) (by omega) (by omega)
    have hlog : Nat.log2 a = Nat.log2 (a / 2 ^ 32) + 32 := by
      rw [Nat.log2_eq_iff (by omega)]
      have hle := Nat.log2_self_le hbig
      have hlt := Nat.lt_log2_self (n := a / 2 ^ 32)
      generalize Nat.log2 (a / 2 ^ 32) = l at *
      rw [Nat.add_right_comm, pow_add 2 l 32, pow_add 2 (l + 1) 32]
      generalize 2 ^ l = lower at *
      generalize 2 ^ (l + 1) = upper at *
      omega
    omega

@[simp] theorem single_exponentBits (overshift : ℕ → ℕ → ℕ) :
    (single overshift).exponentBits = 8 :=
  rfl

@[simp] theorem double_exponentBits (overshift : ℕ → ℕ → ℕ) :
    (double overshift).exponentBits = 11 :=
  rfl

theorem single_lawful (overshift : ℕ → ℕ → ℕ) : (single overshift).Lawful where
  four_le_exponentBits := by simp
  exponentBits_lt := by simp
  two_le_significandBits := by simp [single]
  typeWidth_eq := rfl
  repClz_eq := fun _ h0 h => builtinClz_eq h0 h
  wideMultiply_eq := by
    intro a b ha hb
    have hprod : a * b < 2 ^ 32 * 2 ^ 32 := Nat.mul_lt_mul'' ha hb
    have hhigh : a * b / 2 ^ 32 < 2 ^ 32 := (Nat.div_lt_iff_lt_mul (by decide)).2 hprod
    show wideMultiplySingle a b = _
    rw [wideMultiplySingle, Nat.shiftRight_eq_div_pow, Nat.mod_eq_of_lt hhigh]
    rfl

theorem double_lawful (overshift : ℕ → ℕ → ℕ) : (double overshift).Lawful where
  four_le_exponentBits := by simp
  exponentBits_lt := by simp
  two_le_significandBits := by simp [double]
  typeWidth_eq := rfl
  repClz_eq := fun _ h0 h => repClzDouble_eq h0 h
  wideMultiply_eq := fun _ _ ha hb => wideMultiplyDouble_eq ha hb

end Helpers


/-!
## The numbers behind the bits

The sign, the magnitude and the kind of a number, for the statements about the
routines.
-/

namespace FpLib

variable (L : FpLib)

/-- The number without its sign. -/
def magnitude (a : ℕ) : ℕ :=
  a % 2 ^ (L.significandBits + L.exponentBits)

/-- The sign of a number. -/
def negative (a : ℕ) : Bool :=
  a.testBit (L.significandBits + L.exponentBits)

/-- A number from its sign and its magnitude. -/
def withSign (negative : Bool) (r : ℕ) : ℕ :=
  negative.toNat * 2 ^ (L.significandBits + L.exponentBits) + r

/-- The absolute value of a number in units of the least denormal. -/
def units (a : ℕ) : ℕ :=
  mag L.significandBits (L.magnitude a)

/-- The value of a finite number in units of the least denormal. -/
def value (a : ℕ) : ℤ :=
  if L.negative a then -(L.units a : ℤ) else L.units a

/-- The number of the opposite sign. -/
def negate (b : ℕ) : ℕ :=
  L.withSign (! L.negative b) (L.magnitude b)

def IsNaN (a : ℕ) : Prop := L.infRep < L.magnitude a

def IsInf (a : ℕ) : Prop := L.magnitude a = L.infRep

def IsZero (a : ℕ) : Prop := L.magnitude a = 0

def IsFinite (a : ℕ) : Prop := L.magnitude a < L.infRep

end FpLib

section Constants

variable {L : FpLib}

open FpLib

theorem implicitBit_eq (L : FpLib) : L.implicitBit = 2 ^ L.significandBits :=
  Nat.one_shiftLeft _

theorem signBit_eq (L : FpLib) : L.signBit = 2 ^ (L.significandBits + L.exponentBits) :=
  Nat.one_shiftLeft _

theorem maxExponent_eq (L : FpLib) : L.maxExponent = 2 ^ L.exponentBits - 1 := by
  rw [maxExponent, Nat.one_shiftLeft]

theorem and_significandMask (L : FpLib) (x : ℕ) :
    x &&& L.significandMask = x % 2 ^ L.significandBits := by
  rw [significandMask, implicitBit_eq, Nat.and_two_pow_sub_one_eq_mod]

theorem and_absMask (L : FpLib) (x : ℕ) : x &&& L.absMask = L.magnitude x := by
  rw [absMask, signBit_eq, Nat.and_two_pow_sub_one_eq_mod, magnitude]

theorem infRep_eq (L : FpLib) : L.infRep = L.maxExponent * 2 ^ L.significandBits := by
  rw [infRep, exponentMask, absMask, significandMask, signBit_eq, implicitBit_eq,
    maxExponent_eq]
  apply Nat.eq_of_testBit_eq
  intro i
  rw [Nat.testBit_xor, Nat.testBit_two_pow_sub_one, Nat.testBit_two_pow_sub_one,
    Nat.testBit_mul_two_pow, Nat.testBit_two_pow_sub_one]
  by_cases h1 : L.significandBits ≤ i
  · simp [h1, show ¬ i < L.significandBits by omega,
      show i - L.significandBits < L.exponentBits ↔ i < L.significandBits + L.exponentBits by omega]
  · simp [h1, show i < L.significandBits by omega,
      show i < L.significandBits + L.exponentBits by omega]

/-- The exponent field of a number is that of its magnitude. -/
theorem exponent_eq (L : FpLib) (a : ℕ) :
    a >>> L.significandBits &&& L.maxExponent = L.magnitude a / 2 ^ L.significandBits := by
  rw [maxExponent_eq, Nat.and_two_pow_sub_one_eq_mod, Nat.shiftRight_eq_div_pow, magnitude,
    pow_add, Nat.mod_mul_right_div_self]

theorem significand_eq (L : FpLib) (a : ℕ) :
    a &&& L.significandMask = L.magnitude a % 2 ^ L.significandBits := by
  rw [and_significandMask, magnitude, pow_add, Nat.mod_mul_right_mod]

theorem and_signBit (L : FpLib) (a : ℕ) :
    a &&& L.signBit = L.withSign (L.negative a) 0 := by
  rw [signBit_eq, Nat.and_two_pow, withSign, negative, Nat.add_zero]

theorem xor_and_signBit (L : FpLib) (a b : ℕ) :
    (a ^^^ b) &&& L.signBit = L.withSign (L.negative a != L.negative b) 0 := by
  rw [and_signBit, negative, Nat.testBit_xor]
  rfl

theorem magnitude_lt (L : FpLib) (a : ℕ) :
    L.magnitude a < 2 ^ (L.significandBits + L.exponentBits) :=
  Nat.mod_lt _ (Nat.two_pow_pos _)

theorem infRep_lt (L : FpLib) : L.infRep < 2 ^ (L.significandBits + L.exponentBits) := by
  rw [infRep_eq, maxExponent_eq, Nat.sub_mul, ← pow_add, Nat.add_comm L.exponentBits]
  have h1 := Nat.two_pow_pos L.significandBits
  have h2 : 2 ^ L.significandBits ≤ 2 ^ (L.significandBits + L.exponentBits) :=
    Nat.pow_le_pow_right (by decide) (by omega)
  omega

/-- The sign and the magnitude can be read back. -/
theorem magnitude_withSign (s : Bool) {r : ℕ}
    (hr : r < 2 ^ (L.significandBits + L.exponentBits)) : L.magnitude (L.withSign s r) = r := by
  rw [magnitude, withSign, Nat.mul_comm, Nat.mul_add_mod, Nat.mod_eq_of_lt hr]

theorem negative_withSign (s : Bool) {r : ℕ}
    (hr : r < 2 ^ (L.significandBits + L.exponentBits)) : L.negative (L.withSign s r) = s := by
  rw [negative, withSign]
  cases s with
  | false =>
      rw [Bool.toNat_false, Nat.zero_mul, Nat.zero_add, Nat.testBit_lt_two_pow hr]
  | true =>
      rw [Bool.toNat_true, Nat.one_mul, Nat.testBit_two_pow_add_eq,
        Nat.testBit_lt_two_pow hr]
      rfl

/-- Or-ing a sign into a magnitude. -/
theorem or_withSign (s : Bool) {r : ℕ} (hr : r < 2 ^ (L.significandBits + L.exponentBits)) :
    r ||| L.withSign s 0 = L.withSign s r := by
  rw [withSign, withSign, Nat.add_zero, Nat.or_comm, Nat.mul_comm,
    Nat.two_pow_add_eq_or_of_lt hr]

/-- A number is its sign and its magnitude. -/
theorem withSign_negative_magnitude (hL : L.Lawful) {a : ℕ} (ha : a < 2 ^ L.typeWidth) :
    L.withSign (L.negative a) (L.magnitude a) = a := by
  have hwidth : L.typeWidth = L.significandBits + L.exponentBits + 1 := by
    rw [hL.typeWidth_eq]
    omega
  rw [hwidth, pow_succ] at ha
  rw [withSign, negative, magnitude, Nat.testBit_eq_decide_div_mod_eq]
  generalize hq : 2 ^ (L.significandBits + L.exponentBits) = q at *
  have hpos : 0 < q := hq ▸ Nat.two_pow_pos _
  have hdiv : a / q < 2 := (Nat.div_lt_iff_lt_mul hpos).2 (by omega)
  have hsplit := Nat.div_add_mod a q
  obtain h0 | h1 : a / q = 0 ∨ a / q = 1 := by
    generalize a / q = t at hdiv
    omega
  · simp only [h0, Nat.zero_mod, Nat.zero_ne_one, decide_false, Bool.toNat_false]
    rw [h0] at hsplit
    omega
  · simp only [h1, Nat.one_mod, decide_true, Bool.toNat_true]
    rw [h1] at hsplit
    omega

theorem exponentBias_eq (L : FpLib) : L.exponentBias = (2 ^ L.exponentBits - 1) / 2 := by
  rw [exponentBias, maxExponent_eq, Nat.shiftRight_eq_div_pow, pow_one]

theorem FpLib.Lawful.sixteen_le (hL : L.Lawful) : 16 ≤ 2 ^ L.exponentBits :=
  Nat.pow_le_pow_right (n := 2) (by decide) hL.four_le_exponentBits

theorem FpLib.Lawful.one_le_exponentBias (hL : L.Lawful) : 1 ≤ L.exponentBias := by
  have := hL.sixteen_le
  rw [exponentBias_eq]
  omega

theorem FpLib.Lawful.seven_le_maxExponent (hL : L.Lawful) : 7 ≤ L.maxExponent := by
  have := hL.sixteen_le
  rw [maxExponent_eq]
  omega

/-- The number of least denormals in one. -/
theorem mag_oneRep (hL : L.Lawful) :
    mag L.significandBits L.oneRep = 2 ^ L.significandBits * 2 ^ (L.exponentBias - 1) := by
  have := mag_normal hL.one_le_exponentBias (Nat.two_pow_pos L.significandBits)
  rw [oneRep, Nat.shiftLeft_eq]
  rwa [Nat.add_zero, Nat.add_zero] at this

theorem FpLib.Lawful.three_le_typeWidth (hL : L.Lawful) : 3 ≤ L.typeWidth := by
  have h1 := hL.typeWidth_eq
  have h2 := hL.four_le_exponentBits
  omega

theorem infRep_pos (hL : L.Lawful) : 0 < L.infRep := by
  have := hL.seven_le_maxExponent
  rw [infRep_eq]
  exact Nat.mul_pos (by omega) (Nat.two_pow_pos _)

/-- The least denormals in one, as a number of the format. -/
theorem units_oneRep (hL : L.Lawful) : L.units L.oneRep = mag L.significandBits L.oneRep := by
  have hbias : L.exponentBias < 2 ^ L.exponentBits := by
    have := hL.sixteen_le
    rw [exponentBias_eq]
    omega
  rw [units, magnitude, Nat.mod_eq_of_lt]
  rw [oneRep, Nat.shiftLeft_eq, Nat.add_comm, pow_add]
  exact Nat.mul_lt_mul_of_pos_right hbias (Nat.two_pow_pos _)

theorem units_oneRep_pos (hL : L.Lawful) : 0 < L.units L.oneRep := by
  rw [units_oneRep hL, mag_oneRep hL]
  positivity

/-- The exponent field is zero for denormals and zeros, and largest from infinity on. -/
theorem exponent_le (L : FpLib) (a : ℕ) : L.magnitude a / 2 ^ L.significandBits ≤ L.maxExponent := by
  have hlt := magnitude_lt L a
  rw [pow_add, Nat.mul_comm] at hlt
  have := (Nat.div_lt_iff_lt_mul (Nat.two_pow_pos L.significandBits)).2 hlt
  rw [maxExponent_eq]
  omega

theorem exponent_eq_zero_iff (L : FpLib) (a : ℕ) :
    L.magnitude a / 2 ^ L.significandBits = 0 ↔ L.magnitude a < 2 ^ L.significandBits :=
  Nat.div_eq_zero_iff_lt (Nat.two_pow_pos _)

theorem exponent_eq_max_iff (L : FpLib) (a : ℕ) :
    L.magnitude a / 2 ^ L.significandBits = L.maxExponent ↔ L.infRep ≤ L.magnitude a := by
  have hle := exponent_le L a
  rw [infRep_eq, ← Nat.le_div_iff_mul_le (Nat.two_pow_pos _)]
  omega

/-- A magnitude with a sign, its value. -/
theorem value_eq (L : FpLib) (a : ℕ) :
    L.value a = if L.negative a then -(mag L.significandBits (L.magnitude a) : ℤ)
      else mag L.significandBits (L.magnitude a) :=
  rfl

theorem value_of_zero {a : ℕ} (h : L.magnitude a = 0) : L.value a = 0 := by
  rw [value_eq, h, mag_zero]
  simp

theorem value_negate (L : FpLib) (b : ℕ) : L.value (L.negate b) = -L.value b := by
  have hlt := magnitude_lt L b
  rw [value_eq, value_eq, negate, negative_withSign _ hlt, magnitude_withSign _ hlt]
  cases L.negative b <;> simp

/-- A number whose magnitude is known is that magnitude under its sign. -/
theorem eq_withSign (hL : L.Lawful) {a m : ℕ} (ha : a < 2 ^ L.typeWidth)
    (hm : L.magnitude a = m) : a = L.withSign (L.negative a) m := by
  rw [← hm, withSign_negative_magnitude hL ha]

theorem withSign_lt (hL : L.Lawful) (s : Bool) {m : ℕ}
    (hm : m < 2 ^ (L.significandBits + L.exponentBits)) : L.withSign s m < 2 ^ L.typeWidth := by
  rw [withSign, hL.typeWidth_eq, Nat.add_right_comm, pow_succ]
  cases s with
  | false =>
      rw [Bool.toNat_false]
      omega
  | true =>
      rw [Bool.toNat_true]
      omega

/-- The bits of a number from its sign and its magnitude. -/
theorem testBit_withSign (s : Bool) {m : ℕ}
    (hm : m < 2 ^ (L.significandBits + L.exponentBits)) (i : ℕ) :
    (L.withSign s m).testBit i
      = if i < L.significandBits + L.exponentBits then m.testBit i
        else s && decide (i = L.significandBits + L.exponentBits) := by
  rw [withSign, Nat.mul_comm, Nat.testBit_two_pow_mul_add _ hm]
  by_cases hi : i < L.significandBits + L.exponentBits
  · rw [if_pos hi, if_pos hi]
  · rw [if_neg hi, if_neg hi]
    cases s with
    | false =>
        rw [Bool.toNat_false, Nat.zero_testBit, Bool.false_and]
    | true =>
        rw [Bool.toNat_true, Bool.true_and, ← pow_zero 2, Nat.testBit_two_pow]
        congr 1
        rw [eq_iff_iff]
        omega

end Constants


section Normalizing

variable {L : FpLib}

open FpLib

theorem or_implicitBit_of_lt {x : ℕ} (h : x < 2 ^ L.significandBits) :
    x ||| L.implicitBit = 2 ^ L.significandBits + x := by
  have := Nat.two_pow_add_eq_or_of_lt h 1
  rw [Nat.mul_one] at this
  rw [implicitBit_eq, Nat.or_comm, this]

theorem or_implicitBit_of_le {x : ℕ} (h : 2 ^ L.significandBits ≤ x)
    (h' : x < 2 ^ (L.significandBits + 1)) : x ||| L.implicitBit = x := by
  rw [pow_succ] at h'
  obtain ⟨f, rfl⟩ : ∃ f, x = 2 ^ L.significandBits + f := ⟨x - 2 ^ L.significandBits, by omega⟩
  have hf : f < 2 ^ L.significandBits := by omega
  rw [← or_implicitBit_of_lt hf, Nat.or_assoc, Nat.or_self]

/-- The test of the leading bit. -/
theorem and_two_pow_ne_zero {x t : ℕ} (hx : x < 2 ^ (t + 1)) : x &&& 2 ^ t ≠ 0 ↔ 2 ^ t ≤ x := by
  have hpos := Nat.two_pow_pos t
  rw [Nat.and_two_pow]
  constructor
  · intro h
    by_contra hlt
    rw [Nat.testBit_lt_two_pow (by omega)] at h
    simp at h
  · intro h
    rw [pow_succ] at hx
    obtain ⟨f, rfl⟩ : ∃ f, x = 2 ^ t + f := ⟨x - 2 ^ t, by omega⟩
    rw [Nat.testBit_two_pow_add_eq, Nat.testBit_lt_two_pow (by omega)]
    simp

theorem and_implicitBit_ne_zero {x : ℕ} (hx : x < 2 ^ (L.significandBits + 1)) :
    x &&& L.implicitBit ≠ 0 ↔ 2 ^ L.significandBits ≤ x := by
  rw [implicitBit_eq, and_two_pow_ne_zero hx]

/-- Shifting a number up to a given leading bit. -/
theorem shiftLeft_to_top {x t : ℕ} (h0 : 0 < x) (h : Nat.log2 x ≤ t) :
    2 ^ t ≤ x * 2 ^ (t - Nat.log2 x) ∧ x * 2 ^ (t - Nat.log2 x) < 2 ^ (t + 1) := by
  have hle := Nat.log2_self_le (n := x) (by omega)
  have hlt := Nat.lt_log2_self (n := x)
  obtain ⟨k, rfl⟩ : ∃ k, t = Nat.log2 x + k := ⟨t - Nat.log2 x, by omega⟩
  rw [Nat.add_sub_cancel_left, Nat.add_right_comm, pow_add, pow_add _ (Nat.log2 x + 1)]
  exact ⟨Nat.mul_le_mul_right _ hle, Nat.mul_lt_mul_of_pos_right hlt (Nat.two_pow_pos k)⟩

/-- The difference of the two counts of leading zeros is the distance of the leading bits. -/
theorem clz_sub_clz (hL : L.Lawful) {x t : ℕ} (h0 : 0 < x) (hx : x < 2 ^ L.typeWidth)
    (ht : t < L.typeWidth) :
    (L.repClz x : ℤ) - L.repClz (2 ^ t) = (t : ℤ) - Nat.log2 x := by
  have h1 := hL.repClz_eq x h0 hx
  have h2 := hL.repClz_eq (2 ^ t) (Nat.two_pow_pos t)
    (Nat.pow_lt_pow_right (by decide) ht)
  rw [Nat.log2_two_pow] at h2
  omega

theorem shl_eq {x n : ℕ} (hn : n < L.typeWidth) (h : x * 2 ^ n < 2 ^ L.typeWidth) :
    L.shl x n = x * 2 ^ n := by
  rw [shl, if_pos hn, Nat.shiftLeft_eq, Nat.mod_eq_of_lt h]

/-- `normalize` on the bits of a denormal number. -/
theorem normalize_eq (hL : L.Lawful) {x : ℕ} (h0 : 0 < x) (hx : x < 2 ^ L.significandBits) :
    L.normalize x = (x * 2 ^ (L.significandBits - Nat.log2 x),
      1 - ((L.significandBits - Nat.log2 x : ℕ) : ℤ)) := by
  have hwidth := hL.typeWidth_eq
  have hlog : Nat.log2 x < L.significandBits := (Nat.log2_lt (by omega)).2 hx
  have htop : x < 2 ^ L.typeWidth :=
    Nat.lt_of_lt_of_le hx (Nat.pow_le_pow_right (by decide) (by omega))
  have hclz := clz_sub_clz hL h0 htop (show L.significandBits < L.typeWidth by omega)
  have hfit := (shiftLeft_to_top h0 (Nat.le_of_lt hlog)).2
  have hshift : (L.repClz x : ℤ) - L.repClz L.implicitBit
      = ((L.significandBits - Nat.log2 x : ℕ) : ℤ) := by
    rw [implicitBit_eq, hclz]
    omega
  rw [FpLib.normalize, hshift, Int.toNat_natCast, shl_eq (by omega)
    (Nat.lt_of_lt_of_le hfit (Nat.pow_le_pow_right (by decide) (by omega)))]

/--
A magnitude taken apart for arithmetic: a significand with its leading bit in place, and the
exponent that gives it the same value, zero or negative for a denormal number.
-/
structure Unpacked (L : FpLib) (x s : ℕ) (e : ℤ) : Prop where
  lower : 2 ^ L.significandBits ≤ s
  upper : s < 2 ^ (L.significandBits + 1)
  value : mag L.significandBits x * 2 ^ (1 - e).toNat = s * 2 ^ (e - 1).toNat

theorem unpacked_normal {x : ℕ} (h : 2 ^ L.significandBits ≤ x) :
    Unpacked L x (x % 2 ^ L.significandBits ||| L.implicitBit)
      (x / 2 ^ L.significandBits : ℕ) := by
  have hpos := Nat.two_pow_pos L.significandBits
  have hmod := Nat.mod_lt x hpos
  have he : 1 ≤ x / 2 ^ L.significandBits := (Nat.one_le_div_iff hpos).2 h
  rw [or_implicitBit_of_lt hmod]
  refine ⟨by omega, by rw [pow_succ]; omega, ?_⟩
  have hval := mag_normal he hmod
  rw [← eq_exponent_add] at hval
  have hdown : (1 - ((x / 2 ^ L.significandBits : ℕ) : ℤ)).toNat = 0 := by omega
  have hup : (((x / 2 ^ L.significandBits : ℕ) : ℤ) - 1).toNat = x / 2 ^ L.significandBits - 1 := by
    omega
  rw [hdown, hup, hval, pow_zero, Nat.mul_one]

theorem unpacked_denormal (hL : L.Lawful) {x : ℕ} (h0 : 0 < x) (h : x < 2 ^ L.significandBits) :
    Unpacked L x ((L.normalize (x % 2 ^ L.significandBits)).1 ||| L.implicitBit)
      (L.normalize (x % 2 ^ L.significandBits)).2 := by
  have hlog : Nat.log2 x < L.significandBits := (Nat.log2_lt (by omega)).2 h
  obtain ⟨hlower, hupper⟩ := shiftLeft_to_top h0 (Nat.le_of_lt hlog)
  rw [Nat.mod_eq_of_lt h, normalize_eq hL h0 h, or_implicitBit_of_le hlower hupper]
  refine ⟨hlower, hupper, ?_⟩
  have hdown : (1 - (1 - ((L.significandBits - Nat.log2 x : ℕ) : ℤ))).toNat
      = L.significandBits - Nat.log2 x := by omega
  have hup : ((1 - ((L.significandBits - Nat.log2 x : ℕ) : ℤ)) - 1).toNat = 0 := by omega
  rw [hdown, hup, mag_of_lt h, pow_zero, Nat.mul_one]

/-- The rounding, on a magnitude that has room for it. -/
theorem roundRep_eq (hL : L.Lawful) (s : Bool) {w lo r : ℕ} (hr : r < L.infRep) :
    L.roundRep (2 ^ (w - 1)) lo (L.withSign s r) = L.withSign s (roundBits w lo r) := by
  have hinf := infRep_lt L
  have hexp := hL.four_le_exponentBits
  have hroom : ∀ x : ℕ, x ≤ L.infRep → L.withSign s x % 2 ^ L.typeWidth = L.withSign s x := by
    intro x hx
    exact Nat.mod_eq_of_lt (withSign_lt hL s (Nat.lt_of_le_of_lt hx hinf))
  have hadd : ∀ x : ℕ, L.withSign s r + x = L.withSign s (r + x) := by
    intro x
    rw [withSign, withSign, Nat.add_assoc]
  have hparity : L.withSign s r &&& 1 = r % 2 := by
    rw [Nat.and_one_is_mod, withSign,
      show L.significandBits + L.exponentBits = L.significandBits + L.exponentBits - 1 + 1 by omega,
      pow_succ, ← Nat.mul_assoc, Nat.mul_add_mod']
  simp only [roundRep, roundBits]
  by_cases hgt : 2 ^ (w - 1) < lo
  · rw [if_pos hgt, if_neg (by omega), if_pos hgt, hadd, hroom _ (by omega)]
  · rw [if_neg hgt, if_neg hgt]
    by_cases heq : lo = 2 ^ (w - 1)
    · rw [if_pos heq, if_pos heq, hparity, hadd, hroom _ (by omega)]
    · rw [if_neg heq, if_neg heq]

/-- Whether a shift to the left still holds something tells what a shift to the right lost. -/
theorem shl_ne_zero_iff {k : ℕ} (hk : 1 ≤ k) (hkw : k ≤ L.typeWidth) (x : ℕ) :
    L.shl x (L.typeWidth - k) ≠ 0 ↔ x % 2 ^ k ≠ 0 := by
  rw [shl, if_pos (by omega), Nat.shiftLeft_eq]
  have hw : 2 ^ L.typeWidth = 2 ^ k * 2 ^ (L.typeWidth - k) := by
    rw [← pow_add]
    congr 1
    omega
  rw [hw, Nat.mul_mod_mul_right]
  have := Nat.two_pow_pos (L.typeWidth - k)
  rw [Nat.mul_ne_zero_iff]
  constructor
  · intro h
    exact h.1
  · intro h
    exact ⟨h, by omega⟩

/-- A shift to the right with a sticky bit, as the routines write it. -/
theorem shift_sticky_eq {k : ℕ} (hk : 1 ≤ k) (hkw : k ≤ L.typeWidth) (x : ℕ) :
    x >>> k ||| bit (L.shl x (L.typeWidth - k) ≠ 0) = jam x k := by
  have hsticky := shl_ne_zero_iff (L := L) hk hkw x
  rw [Nat.shiftRight_eq_div_pow, jam, bit]
  by_cases h0 : x % 2 ^ k = 0
  · rw [if_neg (by rw [hsticky]; simpa using h0), if_pos h0]
  · rw [if_pos (hsticky.2 h0), if_neg h0]

end Normalizing


/-!
## What multiplication and division share

Both look for exponents at the two ends of their range, and renormalize the operands
that are denormal.
-/

namespace FpLib

variable (L : FpLib)

/-- Whether one of two exponents is that of a denormal number, a zero, an infinity or a NaN. -/
def special (a b : ℕ) : Prop :=
  let aExponent := a >>> L.significandBits &&& L.maxExponent
  let bExponent := b >>> L.significandBits &&& L.maxExponent
  L.maxExponent - 1 ≤ wrapSub 32 aExponent 1 ∨ L.maxExponent - 1 ≤ wrapSub 32 bExponent 1

instance (a b : ℕ) : Decidable (L.special a b) := by
  unfold special
  infer_instance

/-- The significand of a number and the exponent adjustment, a denormal one renormalized. -/
def renormalize (a : ℕ) : ℕ × ℤ :=
  if a &&& L.absMask < L.implicitBit then
    L.normalize (a &&& L.significandMask)
  else
    (a &&& L.significandMask, 0)

end FpLib

section Operands

variable {L : FpLib}

open FpLib

/-- The unsigned trick that finds the exponents at both ends of the range. -/
theorem wrapSub_one_le_iff (hL : L.Lawful) {x : ℕ} (hx : x ≤ L.maxExponent) :
    L.maxExponent - 1 ≤ wrapSub 32 x 1 ↔ x = 0 ∨ x = L.maxExponent := by
  have hmax := hL.seven_le_maxExponent
  have hlt : L.maxExponent < 2 ^ 32 := by
    rw [maxExponent_eq]
    have : 2 ^ L.exponentBits < 2 ^ 32 := Nat.pow_lt_pow_right (by decide) hL.exponentBits_lt
    omega
  rw [wrapSub]
  rcases Nat.eq_zero_or_pos x with rfl | hpos
  · omega
  · have : (x + 2 ^ 32 - 1) % 2 ^ 32 = x - 1 := by omega
    omega

theorem special_iff (hL : L.Lawful) (a b : ℕ) :
    L.special a b ↔
      (L.magnitude a < 2 ^ L.significandBits ∨ L.infRep ≤ L.magnitude a) ∨
        (L.magnitude b < 2 ^ L.significandBits ∨ L.infRep ≤ L.magnitude b) := by
  simp only [special, exponent_eq]
  rw [wrapSub_one_le_iff hL (exponent_le L a), wrapSub_one_le_iff hL (exponent_le L b),
    exponent_eq_zero_iff, exponent_eq_zero_iff, exponent_eq_max_iff, exponent_eq_max_iff]

/-- A finite number other than zero, after the block that renormalizes the denormals. -/
theorem renormalize_spec (hL : L.Lawful) {a : ℕ} (h0 : 0 < L.magnitude a) :
    Unpacked L (L.magnitude a) ((L.renormalize a).1 ||| L.implicitBit)
      (((a >>> L.significandBits &&& L.maxExponent : ℕ) : ℤ) + (L.renormalize a).2) := by
  rw [renormalize, and_absMask, significand_eq, exponent_eq]
  by_cases hden : L.magnitude a < 2 ^ L.significandBits
  · rw [if_pos (by rwa [implicitBit_eq]), (exponent_eq_zero_iff L a).2 hden, Nat.cast_zero,
      zero_add]
    exact unpacked_denormal hL h0 hden
  · rw [if_neg (by rwa [implicitBit_eq]), add_zero]
    exact unpacked_normal (Nat.le_of_not_lt hden)

end Operands

end Fp
end F32c
