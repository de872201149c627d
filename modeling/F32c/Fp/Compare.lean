import F32c.Fp.Lib

/-!
# Soft-float comparisons

The compiler turns `a < b` into a test of `__ltsf2 (a, b)` against zero, and the other
comparisons in the same way. There are two routines under eight names at each
precision: they compare the bits as signed integers, the other way round when both
numbers are negative, and differ in what they return for a NaN.

Together they decide the order of the values, and every test but `!=` fails when an
operand is a NaN.
-/

namespace F32c
namespace Fp

namespace FpLib

variable (L : FpLib)

/-- `srep_t`: the bits as a signed integer. -/
def srep (a : ℕ) : ℤ :=
  if a < 2 ^ (L.typeWidth - 1) then a else (a : ℤ) - 2 ^ L.typeWidth

/-- The text of both comparison routines, with what they return for a NaN. -/
def compare (unordered : ℤ) (a b : ℕ) : ℤ :=
  let aInt := L.srep a
  let bInt := L.srep b
  let aAbs := a &&& L.absMask
  let bAbs := b &&& L.absMask
  if L.infRep < aAbs ∨ L.infRep < bAbs then
    unordered
  else if aAbs ||| bAbs = 0 then
    0
  else if 0 ≤ L.srep (a &&& b) then
    if aInt < bInt then -1 else if aInt = bInt then 0 else 1
  else
    if bInt < aInt then -1 else if aInt = bInt then 0 else 1

/-- `__lesf2`, `__ledf2` -/
def leXf2 (a b : ℕ) : ℤ := L.compare 1 a b

/-- `__gesf2`, `__gedf2` -/
def geXf2 (a b : ℕ) : ℤ := L.compare (-1) a b

/-- `__unordsf2`, `__unorddf2` -/
def unordXf2 (a b : ℕ) : ℕ :=
  bit (L.infRep < a &&& L.absMask ∨ L.infRep < b &&& L.absMask)

/-- `__eqsf2`, `__eqdf2` -/
def eqXf2 (a b : ℕ) : ℤ := L.leXf2 a b

/-- `__ltsf2`, `__ltdf2` -/
def ltXf2 (a b : ℕ) : ℤ := L.leXf2 a b

/-- `__nesf2`, `__nedf2` -/
def neXf2 (a b : ℕ) : ℤ := L.leXf2 a b

/-- `__gtsf2`, `__gtdf2` -/
def gtXf2 (a b : ℕ) : ℤ := L.geXf2 a b

/-- Neither operand is a NaN. -/
def Ordered (a b : ℕ) : Prop :=
  ¬ L.IsNaN a ∧ ¬ L.IsNaN b

end FpLib

section SinglePrecision

variable (overshift : ℕ → ℕ → ℕ) (a b : ℕ)

/-- `__lesf2` -/
def lesf2 : ℤ := (single overshift).leXf2 a b

/-- `__gesf2` -/
def gesf2 : ℤ := (single overshift).geXf2 a b

/-- `__unordsf2` -/
def unordsf2 : ℕ := (single overshift).unordXf2 a b

/-- `__eqsf2` -/
def eqsf2 : ℤ := (single overshift).eqXf2 a b

/-- `__ltsf2` -/
def ltsf2 : ℤ := (single overshift).ltXf2 a b

/-- `__nesf2` -/
def nesf2 : ℤ := (single overshift).neXf2 a b

/-- `__gtsf2` -/
def gtsf2 : ℤ := (single overshift).gtXf2 a b

end SinglePrecision

section DoublePrecision

variable (overshift : ℕ → ℕ → ℕ) (a b : ℕ)

/-- `__ledf2` -/
def ledf2 : ℤ := (double overshift).leXf2 a b

/-- `__gedf2` -/
def gedf2 : ℤ := (double overshift).geXf2 a b

/-- `__unorddf2` -/
def unorddf2 : ℕ := (double overshift).unordXf2 a b

/-- `__eqdf2` -/
def eqdf2 : ℤ := (double overshift).eqXf2 a b

/-- `__ltdf2` -/
def ltdf2 : ℤ := (double overshift).ltXf2 a b

/-- `__nedf2` -/
def nedf2 : ℤ := (double overshift).neXf2 a b

/-- `__gtdf2` -/
def gtdf2 : ℤ := (double overshift).gtXf2 a b

end DoublePrecision

/-- What the compiler calls for the comparisons of one precision. -/
structure Comparisons where
  le : ℕ → ℕ → ℤ
  ge : ℕ → ℕ → ℤ
  unord : ℕ → ℕ → ℕ
  eq : ℕ → ℕ → ℤ
  lt : ℕ → ℕ → ℤ
  ne : ℕ → ℕ → ℤ
  gt : ℕ → ℕ → ℤ

def comparesf2 (overshift : ℕ → ℕ → ℕ) : Comparisons where
  le := lesf2 overshift
  ge := gesf2 overshift
  unord := unordsf2 overshift
  eq := eqsf2 overshift
  lt := ltsf2 overshift
  ne := nesf2 overshift
  gt := gtsf2 overshift

def comparedf2 (overshift : ℕ → ℕ → ℕ) : Comparisons where
  le := ledf2 overshift
  ge := gedf2 overshift
  unord := unorddf2 overshift
  eq := eqdf2 overshift
  lt := ltdf2 overshift
  ne := nedf2 overshift
  gt := gtdf2 overshift

/-- The routines of either file, from their common text. -/
def FpLib.comparisons (L : FpLib) : Comparisons where
  le := L.leXf2
  ge := L.geXf2
  unord := L.unordXf2
  eq := L.eqXf2
  lt := L.ltXf2
  ne := L.neXf2
  gt := L.gtXf2

section Comparing

variable {L : FpLib} {a b : ℕ}

open FpLib

/-- The signed integer of a number: its magnitude, less the weight of the sign bit. -/
theorem srep_eq (hL : L.Lawful) (ha : a < 2 ^ L.typeWidth) :
    L.srep a = (L.magnitude a : ℤ)
      - (L.negative a).toNat * 2 ^ (L.significandBits + L.exponentBits) := by
  have hwidth : L.typeWidth = L.significandBits + L.exponentBits + 1 := by
    rw [hL.typeWidth_eq]
    omega
  have hlt := magnitude_lt L a
  have hsplit := withSign_negative_magnitude hL ha
  rw [withSign] at hsplit
  rw [srep, hwidth, Nat.add_sub_cancel, pow_succ]
  generalize hw : 2 ^ (L.significandBits + L.exponentBits) = w at *
  have hwz : (2 : ℤ) ^ (L.significandBits + L.exponentBits) = w := by
    rw [← hw]
    push_cast
    rfl
  rw [hwz]
  cases h : L.negative a with
  | false =>
      rw [h, Bool.toNat_false, Nat.zero_mul, Nat.zero_add] at hsplit
      rw [if_pos (by omega), hsplit]
      simp
  | true =>
      rw [h, Bool.toNat_true, Nat.one_mul] at hsplit
      rw [if_neg (by omega), Bool.toNat_true]
      push_cast
      omega

/-- The bits that both operands have are negative when both operands are. -/
theorem srep_and_nonneg (hL : L.Lawful) (ha : a < 2 ^ L.typeWidth) :
    0 ≤ L.srep (a &&& b) ↔ ¬ (L.negative a = true ∧ L.negative b = true) := by
  have hand : a &&& b < 2 ^ L.typeWidth := Nat.lt_of_le_of_lt Nat.and_le_left ha
  have hlt := magnitude_lt L (a &&& b)
  have hneg : L.negative (a &&& b) = (L.negative a && L.negative b) := Nat.testBit_and a b _
  rw [srep_eq hL hand, hneg]
  zify at hlt
  cases h1 : L.negative a <;> cases h2 : L.negative b <;> simp
  omega

/-- Unless both numbers are negative, their bits are ordered as their values are. -/
theorem srep_order (hL : L.Lawful) (ha : a < 2 ^ L.typeWidth) (hb : b < 2 ^ L.typeWidth)
    (hneg : ¬ (L.negative a = true ∧ L.negative b = true))
    (hzero : ¬ (L.magnitude a = 0 ∧ L.magnitude b = 0)) :
    (L.srep a < L.srep b ↔ L.value a < L.value b) ∧
      (L.srep a = L.srep b ↔ L.value a = L.value b) := by
  have hla := magnitude_lt L a
  have hlb := magnitude_lt L b
  have hlt := mag_lt_mag (p := L.significandBits) (q := L.magnitude a) (r := L.magnitude b)
  have heq := mag_inj (p := L.significandBits) (q := L.magnitude a) (r := L.magnitude b)
  have hpa := mag_pos (p := L.significandBits) (r := L.magnitude a)
  have hpb := mag_pos (p := L.significandBits) (r := L.magnitude b)
  rw [srep_eq hL ha, srep_eq hL hb, value_eq, value_eq]
  zify at hla hlb
  generalize (2 : ℤ) ^ (L.significandBits + L.exponentBits) = w at *
  cases h1 : L.negative a <;> cases h2 : L.negative b <;> simp [h1, h2] at hneg ⊢ <;> omega

/-- Two negative numbers are ordered the other way round. -/
theorem srep_order_negative (hL : L.Lawful) (ha : a < 2 ^ L.typeWidth) (hb : b < 2 ^ L.typeWidth)
    (hneg : L.negative a = true ∧ L.negative b = true) :
    (L.srep b < L.srep a ↔ L.value a < L.value b) ∧
      (L.srep a = L.srep b ↔ L.value a = L.value b) := by
  have hlt := mag_lt_mag (p := L.significandBits) (q := L.magnitude b) (r := L.magnitude a)
  have heq := mag_inj (p := L.significandBits) (q := L.magnitude a) (r := L.magnitude b)
  rw [srep_eq hL ha, srep_eq hL hb, value_eq, value_eq, hneg.1, hneg.2]
  simp
  omega

/-- The comparison is that of the values. -/
theorem compare_spec (hL : L.Lawful) (ha : a < 2 ^ L.typeWidth) (hb : b < 2 ^ L.typeWidth)
    (unordered : ℤ) :
    (¬ L.Ordered a b → L.compare unordered a b = unordered) ∧
      (L.Ordered a b →
        (L.compare unordered a b = -1 ∧ L.value a < L.value b) ∨
        (L.compare unordered a b = 0 ∧ L.value a = L.value b) ∨
        (L.compare unordered a b = 1 ∧ L.value b < L.value a)) := by
  have hand := srep_and_nonneg (b := b) hL ha
  have hzero : L.magnitude a ||| L.magnitude b = 0 ↔ L.magnitude a = 0 ∧ L.magnitude b = 0 :=
    Nat.or_eq_zero_iff
  simp only [FpLib.compare, and_absMask, Ordered, IsNaN]
  constructor
  · intro hnan
    rw [if_pos (by omega)]
  rintro ⟨hna, hnb⟩
  rw [if_neg (by omega)]
  by_cases hz : L.magnitude a ||| L.magnitude b = 0
  · obtain ⟨hza, hzb⟩ := hzero.1 hz
    rw [if_pos hz, value_of_zero hza, value_of_zero hzb]
    exact Or.inr (Or.inl ⟨rfl, rfl⟩)
  rw [if_neg hz]
  rw [hzero] at hz
  by_cases hpos : 0 ≤ L.srep (a &&& b)
  · obtain ⟨hlt, heq⟩ := srep_order hL ha hb (hand.1 hpos) hz
    rw [if_pos hpos]
    split_ifs <;> omega
  · obtain ⟨hlt, heq⟩ := srep_order_negative hL ha hb (not_not.1 fun h => hpos (hand.2 h))
    rw [if_neg hpos]
    split_ifs <;> omega

/-- What the compiler's tests against zero decide. -/
structure ComparesSpec (L : FpLib) (c : Comparisons) (a b : ℕ) : Prop where
  lt : c.lt a b < 0 ↔ L.Ordered a b ∧ L.value a < L.value b
  le : c.le a b ≤ 0 ↔ L.Ordered a b ∧ L.value a ≤ L.value b
  eq : c.eq a b = 0 ↔ L.Ordered a b ∧ L.value a = L.value b
  ne : c.ne a b ≠ 0 ↔ ¬ (L.Ordered a b ∧ L.value a = L.value b)
  ge : 0 ≤ c.ge a b ↔ L.Ordered a b ∧ L.value b ≤ L.value a
  gt : 0 < c.gt a b ↔ L.Ordered a b ∧ L.value b < L.value a
  unord : c.unord a b ≠ 0 ↔ ¬ L.Ordered a b

/-- Every comparison of two numbers of the width decides the order of their values. -/
theorem compares_spec (hL : L.Lawful) (ha : a < 2 ^ L.typeWidth) (hb : b < 2 ^ L.typeWidth) :
    ComparesSpec L L.comparisons a b := by
  obtain ⟨hleNan, hle⟩ := compare_spec hL ha hb 1
  obtain ⟨hgeNan, hge⟩ := compare_spec hL ha hb (-1)
  by_cases hord : L.Ordered a b
  · have hle := hle hord
    have hge := hge hord
    constructor <;> simp only [comparisons, ltXf2, leXf2, eqXf2, neXf2, geXf2, gtXf2, hord, true_and]
    case unord =>
      rw [unordXf2, and_absMask, and_absMask, bit, if_neg (by rw [not_or]; exact hord)]
      simp
    all_goals omega
  · have hle := hleNan hord
    have hge := hgeNan hord
    constructor <;>
      simp only [comparisons, ltXf2, leXf2, eqXf2, neXf2, geXf2, gtXf2, hord, false_and, hle, hge,
        iff_false, not_false_eq_true, iff_true]
    case unord =>
      rw [unordXf2, and_absMask, and_absMask, bit, if_pos (by
        by_contra hnot
        exact hord (not_or.1 hnot))]
      decide
    all_goals decide

/-- The comparisons of both precisions. -/
theorem comparesf2_comparedf2_spec (overshift : ℕ → ℕ → ℕ) {a b c d : ℕ} (ha : a < 2 ^ 32)
    (hb : b < 2 ^ 32) (hc : c < 2 ^ 64) (hd : d < 2 ^ 64) :
    ComparesSpec (single overshift) (comparesf2 overshift) a b ∧
      ComparesSpec (double overshift) (comparedf2 overshift) c d :=
  ⟨compares_spec (single_lawful overshift) ha hb, compares_spec (double_lawful overshift) hc hd⟩

/-- Minus one and the negative zero; a double NaN and itself. -/
theorem comparesf2_comparedf2_spec_instance :
    ComparesSpec (single fun _ _ => 0) (comparesf2 fun _ _ => 0) 0xbf800000 0x80000000 ∧
      ComparesSpec (double fun _ _ => 0) (comparedf2 fun _ _ => 0) 0x7ff8000000000000
        0x7ff8000000000000 :=
  comparesf2_comparedf2_spec (fun _ _ => 0) (by decide) (by decide) (by decide) (by decide)

end Comparing

end Fp
end F32c
