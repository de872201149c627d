import F32c.Loop
import Mathlib.Data.Nat.Size
import Mathlib.Tactic

/-!
# Division in software

The library divides by shifting and subtracting.  `UDIVMOD_BODY` first moves the
divisor to the left until it is not below the dividend or its top bit is set,
and moves a one in `bit` along with it.  It then goes back one place at a time,
subtracts the divisor where it fits and collects the places in `lo`.  The four
entry points of each width wrap this core.

The words have an arbitrary width `w`, which is 32 in `div.c` and 64 in
`div64.c`.
-/

namespace F32c
namespace Libc

section Core

variable {w : Nat}

/-- The variables of `UDIVMOD_BODY`. -/
structure Udivmod (w : Nat) where
  a : BitVec w
  b : BitVec w
  bit : BitVec w
  lo : BitVec w
deriving Repr, DecidableEq

namespace Udivmod

/-- `b < a && (int) b > 0` -/
def alignTest (s : Udivmod w) : Bool := s.b.ult s.a && decide (0 < s.b.toInt)

def alignBody (s : Udivmod w) : Udivmod w :=
  { s with b := s.b <<< 1, bit := s.bit <<< 1 }

/-- `bit != 0` -/
def divideTest (s : Udivmod w) : Bool := s.bit != 0

def divideBody (s : Udivmod w) : Udivmod w :=
  { a := if s.b.ule s.a then s.a - s.b else s.a
    b := s.b >>> 1
    bit := s.bit >>> 1
    lo := if s.b.ule s.a then s.lo ||| s.bit else s.lo }

end Udivmod

/-- `UDIVMOD_BODY` from the given first value of `bit`; `fuel` bounds both loops. -/
def udivmodBody (fuel : Nat) (a b bit : BitVec w) : Option (Udivmod w) :=
  (Loop.whileLoop Udivmod.alignTest Udivmod.alignBody fuel ⟨a, b, bit, 0⟩).bind
    (Loop.whileLoop Udivmod.divideTest Udivmod.divideBody fuel)

end Core

def udivmodSigned : BitVec 32 := 1#32
def udivmodDoMod : BitVec 32 := 2#32

/-- The magnitude that `-(int) v` leaves in an unsigned variable. -/
def magnitude {w : Nat} (v : BitVec w) : BitVec w := if v.toInt < 0 then -v else v

/-- `__udivmodsi3`, as compiled with `OPTIMIZED_DIVSI3`: it never negates. -/
def udivmodsi3 (fuel : Nat) (a b : BitVec 32) (flags : BitVec 32) : Option (BitVec 32) :=
  let signed := flags &&& udivmodSigned ≠ 0
  let b := if signed then magnitude b else b
  let a := if signed then magnitude a else a
  (udivmodBody fuel a b 1).map fun s =>
    if flags &&& udivmodDoMod ≠ 0 then s.a else s.lo

def divsi3 (fuel : Nat) (a b : BitVec 32) : Option (BitVec 32) :=
  let neg := decide (a.toInt < 0)
  let neg := if b.toInt < 0 then !neg else neg
  (udivmodBody fuel (magnitude a) (magnitude b) 1).map fun s => if neg then -s.lo else s.lo

def modsi3 (fuel : Nat) (a b : BitVec 32) : Option (BitVec 32) :=
  udivmodsi3 fuel a b (udivmodSigned ||| udivmodDoMod)

def udivsi3 (fuel : Nat) (a b : BitVec 32) : Option (BitVec 32) := udivmodsi3 fuel a b 0

def umodsi3 (fuel : Nat) (a b : BitVec 32) : Option (BitVec 32) :=
  udivmodsi3 fuel a b udivmodDoMod

/-- `__udivmoddi3`: here the quotient is negated inside, and `bit` starts at `b > 0`. -/
def udivmoddi3 (fuel : Nat) (a b : BitVec 64) (flags : BitVec 32) : Option (BitVec 64) :=
  let bit : BitVec 64 := if BitVec.ult 0 b then 1 else 0
  let signed := flags &&& udivmodSigned ≠ 0
  let neg := decide (signed ∧ b.toInt < 0)
  let neg := if signed ∧ a.toInt < 0 then !neg else neg
  let b := if signed then magnitude b else b
  let a := if signed then magnitude a else a
  (udivmodBody fuel a b bit).map fun s =>
    if flags &&& udivmodDoMod ≠ 0 then s.a
    else if neg then -s.lo
    else s.lo

def divdi3 (fuel : Nat) (a b : BitVec 64) : Option (BitVec 64) := udivmoddi3 fuel a b udivmodSigned

def moddi3 (fuel : Nat) (a b : BitVec 64) : Option (BitVec 64) :=
  udivmoddi3 fuel a b (udivmodSigned ||| udivmodDoMod)

def udivdi3 (fuel : Nat) (a b : BitVec 64) : Option (BitVec 64) := udivmoddi3 fuel a b 0

def umoddi3 (fuel : Nat) (a b : BitVec 64) : Option (BitVec 64) :=
  udivmoddi3 fuel a b udivmodDoMod

open Udivmod

section CoreProof

variable {w : Nat}

/-- While the divisor moves left: it is the first divisor `k` places up, and so is `bit`. -/
structure Aligning (a₀ b₀ : BitVec w) (k : Nat) (s : Udivmod w) : Prop where
  a : s.a = a₀
  lo : s.lo = 0
  b : s.b.toNat = b₀.toNat * 2 ^ k
  bit : s.bit.toNat = 2 ^ k

theorem toInt_pos_iff {v : BitVec w} : 0 < v.toInt ↔ 0 < v.toNat ∧ 2 * v.toNat < 2 ^ w := by
  have hlt := v.isLt
  rw [BitVec.toInt_eq_toNat_cond]
  split <;> omega

theorem toNat_shiftLeft_one {v : BitVec w} (h : 2 * v.toNat < 2 ^ w) :
    (v <<< 1).toNat = 2 * v.toNat := by
  rw [BitVec.toNat_shiftLeft, Nat.shiftLeft_eq, pow_one, Nat.mod_eq_of_lt (by omega)]
  omega

theorem Aligning.body {a₀ b₀ : BitVec w} {k : Nat} {s : Udivmod w}
    (h : Aligning a₀ b₀ k s) (hb₀ : 0 < b₀.toNat) (ht : alignTest s = true) :
    Aligning a₀ b₀ (k + 1) (alignBody s) := by
  simp only [alignTest, Bool.and_eq_true, decide_eq_true_eq] at ht
  rcases toInt_pos_iff.1 ht.2 with ⟨hpos, htop⟩
  have hbit : s.bit.toNat ≤ s.b.toNat := by
    rw [h.bit, h.b]
    exact Nat.le_mul_of_pos_left _ hb₀
  constructor
  · exact h.a
  · exact h.lo
  · change (s.b <<< 1).toNat = _
    rw [toNat_shiftLeft_one htop, h.b, pow_succ]
    ring
  · change (s.bit <<< 1).toNat = _
    rw [toNat_shiftLeft_one (by omega), h.bit, pow_succ]
    ring

/-- The first loop ends with a divisor of which the dividend holds at most one. -/
theorem align_loop {a b : BitVec w} (hb : b ≠ 0) {fuel : Nat} (hfuel : w < fuel) :
    ∃ s k, Loop.whileLoop alignTest alignBody fuel ⟨a, b, 1#w, 0⟩ = some s ∧
      Aligning a b k s ∧ a.toNat < 2 * s.b.toNat := by
  have hw : w ≠ 0 := by
    rintro rfl
    exact hb (Subsingleton.elim _ _)
  have hb₀ : 0 < b.toNat := by
    rcases Nat.eq_zero_or_pos b.toNat with hz | hz
    · exact absurd (BitVec.eq_of_toNat_eq (by simpa using hz)) hb
    · exact hz
  have hstart : Aligning a b 0 ⟨a, b, 1#w, 0⟩ := by
    refine ⟨rfl, rfl, by simp, ?_⟩
    simp [Nat.mod_eq_of_lt (Nat.one_lt_two_pow hw)]
  -- the places left above the leading one of `bit` are a measure
  have hrule := @Loop.whileLoop_rule _ alignTest alignBody
    (fun s => ∃ k, Aligning a b k s) (fun s => w - Nat.log 2 s.bit.toNat) ?_ fuel
    ⟨a, b, 1#w, 0⟩ ⟨0, hstart⟩ (by omega)
  · rcases hrule with ⟨s, hs, ⟨k, hk⟩, htest⟩
    refine ⟨s, k, hs, hk, ?_⟩
    simp only [alignTest, Bool.and_eq_false_iff, decide_eq_false_iff_not] at htest
    have hpos : 0 < s.b.toNat := by
      rw [hk.b]
      positivity
    rcases htest with hle | htop
    · have : s.a.toNat ≤ s.b.toNat := by simpa [BitVec.ult] using hle
      rw [hk.a] at this
      omega
    · have hlt := a.isLt
      rw [toInt_pos_iff] at htop
      omega
  · rintro s ⟨k, hk⟩ ht
    have hnext := hk.body hb₀ ht
    refine ⟨⟨k + 1, hnext⟩, ?_⟩
    have hkw : k + 1 < w := by
      have hlt := (alignBody s).bit.isLt
      rw [hnext.bit] at hlt
      exact (Nat.pow_lt_pow_iff_right (by omega)).1 hlt
    simp only [hnext.bit, hk.bit, Nat.log_pow (by omega : 1 < 2)]
    omega

/-- While the divisor moves back: `lo` counts the multiples of the divisor taken so far. -/
inductive Dividing (a₀ b₀ : Nat) (s : Udivmod w) : Prop
  | place (k q : Nat)
      (b : s.b.toNat = b₀ * 2 ^ k)
      (bit : s.bit.toNat = 2 ^ k)
      (lo : s.lo.toNat = q * 2 ^ (k + 1))
      (total : s.lo.toNat * b₀ + s.a.toNat = a₀)
      (rest : s.a.toNat < 2 * s.b.toNat)
  | finished
      (bit : s.bit = 0)
      (total : s.lo.toNat * b₀ + s.a.toNat = a₀)
      (rest : s.a.toNat < b₀)

theorem toNat_or_of_multiple {lo bit : BitVec w} {k q : Nat}
    (hbit : bit.toNat = 2 ^ k) (hlo : lo.toNat = q * 2 ^ (k + 1)) :
    (lo ||| bit).toNat = lo.toNat + bit.toNat := by
  rw [BitVec.toNat_or, hbit, hlo, Nat.mul_comm, ← Nat.two_pow_add_eq_or_of_lt]
  exact Nat.pow_lt_pow_right (by omega) (by omega)

/-- What one pass of the second loop does with the divisor `2 ^ k` places up. -/
theorem divideBody_fields {a₀ b₀ : Nat} {s : Udivmod w} {k q : Nat}
    (hb : s.b.toNat = b₀ * 2 ^ k) (hbit : s.bit.toNat = 2 ^ k)
    (hlo : s.lo.toNat = q * 2 ^ (k + 1))
    (htotal : s.lo.toNat * b₀ + s.a.toNat = a₀) (hrest : s.a.toNat < 2 * s.b.toNat) :
    (∃ q', (divideBody s).lo.toNat = q' * 2 ^ k) ∧
      (divideBody s).lo.toNat * b₀ + (divideBody s).a.toNat = a₀ ∧
      (divideBody s).a.toNat < s.b.toNat := by
  cases hle : s.b.ule s.a with
  | true =>
      have hfits : s.b.toNat ≤ s.a.toNat := by simpa [BitVec.ule] using hle
      have hlo' : (divideBody s).lo.toNat = s.lo.toNat + s.bit.toNat := by
        simp only [divideBody, hle, if_true]
        exact toNat_or_of_multiple hbit hlo
      have ha' : (divideBody s).a.toNat = s.a.toNat - s.b.toNat := by
        simp only [divideBody, hle, if_true]
        exact BitVec.toNat_sub_of_le (BitVec.le_def.2 hfits)
      refine ⟨⟨2 * q + 1, ?_⟩, ?_, by omega⟩
      · rw [hlo', hlo, hbit, pow_succ]
        ring
      · have hmul : s.bit.toNat * b₀ = s.b.toNat := by rw [hbit, hb, Nat.mul_comm]
        rw [hlo', ha', Nat.add_mul, hmul]
        omega
  | false =>
      have hfits : s.a.toNat < s.b.toNat := by simpa [BitVec.ule] using hle
      have hlo' : (divideBody s).lo = s.lo := by simp [divideBody, hle]
      have ha' : (divideBody s).a = s.a := by simp [divideBody, hle]
      refine ⟨⟨2 * q, ?_⟩, ?_, ?_⟩
      · rw [hlo', hlo, pow_succ]
        ring
      · rw [hlo', ha', htotal]
      · rwa [ha']

theorem toNat_shiftRight_one (v : BitVec w) : (v >>> 1).toNat = v.toNat / 2 := by
  rw [BitVec.toNat_ushiftRight, Nat.shiftRight_eq_div_pow, pow_one]

theorem Dividing.body {a₀ b₀ : Nat} {s : Udivmod w}
    (h : Dividing a₀ b₀ s) (ht : divideTest s = true) :
    Dividing a₀ b₀ (divideBody s) ∧
      Nat.size (divideBody s).bit.toNat < Nat.size s.bit.toNat := by
  have hbit' : (divideBody s).bit.toNat = s.bit.toNat / 2 := toNat_shiftRight_one s.bit
  have hb' : (divideBody s).b.toNat = s.b.toNat / 2 := toNat_shiftRight_one s.b
  rcases h with ⟨k, q, hb, hbit, hlo, htotal, hrest⟩ | ⟨hbit, _, _⟩
  · rcases divideBody_fields hb hbit hlo htotal hrest with ⟨⟨q', hq'⟩, htotal', hrest'⟩
    cases k with
    | zero =>
        have hzero : (divideBody s).bit.toNat = 0 := by simp [hbit', hbit]
        refine ⟨.finished (BitVec.eq_of_toNat_eq hzero) htotal' (by simpa [hb] using hrest'), ?_⟩
        rw [hzero, hbit, Nat.size_pow, Nat.size_zero]
        omega
    | succ k =>
        have hbit'' : (divideBody s).bit.toNat = 2 ^ k := by
          rw [hbit', hbit, pow_succ, Nat.mul_div_cancel _ (by omega)]
        have hb'' : (divideBody s).b.toNat = b₀ * 2 ^ k := by
          rw [hb', hb, pow_succ, ← Nat.mul_assoc, Nat.mul_div_cancel _ (by omega)]
        have hhalf : s.b.toNat = 2 * (divideBody s).b.toNat := by
          rw [hb'', hb, pow_succ]
          ring
        refine ⟨.place k q' hb'' hbit'' hq' htotal' (by omega), ?_⟩
        rw [hbit'', hbit, Nat.size_pow, Nat.size_pow]
        omega
  · simp [divideTest, hbit] at ht

/-- The second loop ends with the quotient in `lo` and the remainder in `a`. -/
theorem divide_loop {a₀ b₀ : Nat} {s : Udivmod w} (h : Dividing a₀ b₀ s)
    {fuel : Nat} (hfuel : w < fuel) :
    ∃ s', Loop.whileLoop divideTest divideBody fuel s = some s' ∧
      s'.lo.toNat * b₀ + s'.a.toNat = a₀ ∧ s'.a.toNat < b₀ := by
  have hsize : Nat.size s.bit.toNat ≤ w := Nat.size_le.2 s.bit.isLt
  rcases @Loop.whileLoop_rule _ divideTest divideBody (Dividing a₀ b₀)
    (fun s => Nat.size s.bit.toNat) (fun _ h ht => h.body ht) fuel s h (by omega)
    with ⟨s', hs', hI, htest⟩
  refine ⟨s', hs', ?_⟩
  have hzero : s'.bit = 0 := by simpa [divideTest] using htest
  rcases hI with ⟨k, _, _, hbit, _, _, _⟩ | ⟨_, htotal, hrest⟩
  · rw [hzero] at hbit
    exact absurd hbit.symm (by simp)
  · exact ⟨htotal, hrest⟩

/-- `UDIVMOD_BODY` returns, with the quotient in `lo` and the remainder in `a`. -/
theorem udivmodBody_eq (a : BitVec w) {b : BitVec w} (hb : b ≠ 0)
    {fuel : Nat} (hfuel : w < fuel) :
    ∃ s, udivmodBody fuel a b 1#w = some s ∧ s.lo = a / b ∧ s.a = a % b := by
  rcases align_loop (a := a) hb hfuel with ⟨s, k, hs, hk, hlt⟩
  have hdiv : Dividing a.toNat b.toNat s := by
    refine .place k 0 hk.b hk.bit ?_ ?_ ?_
    · simp [hk.lo]
    · simp [hk.lo, hk.a]
    · rw [hk.a]
      exact hlt
  rcases divide_loop hdiv hfuel with ⟨s', hs', htotal, hrest⟩
  have hquot : s'.lo.toNat = a.toNat / b.toNat ∧ s'.a.toNat = a.toNat % b.toNat := by
    rw [← htotal, Nat.add_comm, Nat.add_mul_mod_self_right, Nat.mod_eq_of_lt hrest,
      Nat.add_mul_div_right _ _ (by omega), Nat.div_eq_of_lt hrest, Nat.zero_add]
    exact ⟨rfl, rfl⟩
  refine ⟨s', ?_, BitVec.eq_of_toNat_eq ?_, BitVec.eq_of_toNat_eq ?_⟩
  · rw [udivmodBody, hs, Option.bind_some, hs']
  · rw [hquot.1, BitVec.toNat_udiv]
  · rw [hquot.2, BitVec.toNat_umod]

end CoreProof

section EntryPoints

theorem udivmodsi3_unsigned (a : BitVec 32) {b : BitVec 32} (hb : b ≠ 0)
    {fuel : Nat} (hfuel : 32 < fuel) :
    udivsi3 fuel a b = some (a / b) ∧ umodsi3 fuel a b = some (a % b) := by
  rcases udivmodBody_eq a hb hfuel with ⟨s, hs, hlo, ha⟩
  constructor
  · simp [udivsi3, udivmodsi3, hs, hlo]
  · simp [umodsi3, udivmodsi3, udivmodDoMod, udivmodSigned, hs, ha]

theorem firstBit {b : BitVec 64} (hb : b ≠ 0) :
    (if BitVec.ult 0 b then (1 : BitVec 64) else 0) = 1 := by
  have : 0 < b.toNat := by
    rcases Nat.eq_zero_or_pos b.toNat with hz | hz
    · exact absurd (BitVec.eq_of_toNat_eq (by simpa using hz)) hb
    · exact hz
  rw [if_pos (by simpa [BitVec.ult] using this)]

theorem udivmoddi3_unsigned (a : BitVec 64) {b : BitVec 64} (hb : b ≠ 0)
    {fuel : Nat} (hfuel : 64 < fuel) :
    udivdi3 fuel a b = some (a / b) ∧ umoddi3 fuel a b = some (a % b) := by
  rcases udivmodBody_eq a hb hfuel with ⟨s, hs, hlo, ha⟩
  constructor
  · simp only [udivdi3, udivmoddi3, firstBit hb]
    simp [hs, hlo]
  · simp only [umoddi3, udivmoddi3, firstBit hb]
    simp [udivmodDoMod, udivmodSigned, hs, ha]

theorem magnitude_toNat {w : Nat} (v : BitVec w) : (magnitude v).toNat = v.toInt.natAbs := by
  have hlt := v.isLt
  rw [magnitude]
  split
  · next h =>
    have hpos : 2 ^ w ≤ 2 * v.toNat := by
      rw [BitVec.toInt_eq_toNat_cond] at h
      split at h <;> omega
    rw [BitVec.toNat_neg, Nat.mod_eq_of_lt (by omega), BitVec.toInt_eq_toNat_cond,
      if_neg (by omega)]
    omega
  · next h =>
    rw [BitVec.toInt_eq_toNat_cond] at h ⊢
    split at h <;> omega

theorem magnitude_ne_zero {w : Nat} {v : BitVec w} (hv : v ≠ 0) : magnitude v ≠ 0 := by
  intro h
  have hz := magnitude_toNat v
  rw [h] at hz
  exact hv (BitVec.eq_of_toInt_eq (by simpa using hz.symm))

/-- Dividing the magnitudes and negating on unlike signs is the quotient rounded to zero. -/
theorem magnitude_quotient {w : Nat} (a b : BitVec w) :
    (if (if b.toInt < 0 then !decide (a.toInt < 0) else decide (a.toInt < 0)) then
        -(magnitude a / magnitude b)
      else magnitude a / magnitude b) = a.sdiv b := by
  have hmsb : ∀ v : BitVec w, v.msb = decide (v.toInt < 0) := fun v => BitVec.msb_eq_toInt
  rw [BitVec.sdiv_eq, hmsb a, hmsb b]
  by_cases ha : a.toInt < 0 <;> by_cases hb : b.toInt < 0 <;> simp [magnitude, ha, hb]

/-- The remainder of the magnitudes, read as a signed word. -/
theorem magnitude_remainder {w : Nat} (a : BitVec w) {b : BitVec w} (hb : b ≠ 0) :
    (magnitude a % magnitude b).toInt = (a.toInt.tmod b.toInt).natAbs := by
  have hrest : (magnitude a % magnitude b).toNat = (a.toInt.tmod b.toInt).natAbs := by
    rw [BitVec.toNat_umod, magnitude_toNat, magnitude_toNat, Int.natAbs_tmod]
  have hpos : 0 < b.toInt.natAbs := by
    rw [← magnitude_toNat]
    exact Nat.pos_of_ne_zero fun h => magnitude_ne_zero hb (BitVec.eq_of_toNat_eq h)
  have hsmall : (a.toInt.tmod b.toInt).natAbs < b.toInt.natAbs := by
    rw [Int.natAbs_tmod]
    exact Nat.mod_lt _ hpos
  have hhigh : 2 * b.toInt < 2 ^ w := BitVec.two_mul_toInt_lt
  have hlow : -2 ^ w ≤ 2 * b.toInt := BitVec.le_two_mul_toInt
  have hcast : ((2 ^ w : Nat) : Int) = 2 ^ w := by norm_cast
  rw [BitVec.toInt_eq_toNat_cond, hrest, if_pos (by omega)]

/-- The law of C for `/` and `%` on the words that two routines return. -/
def TruncatedDivision {w : Nat} (a b : BitVec w) (quot rem : Option (BitVec w)) : Prop :=
  ∃ q r, quot = some q ∧ rem = some r ∧
    q.toInt = a.toInt.tdiv b.toInt ∧ r.toInt = a.toInt - b.toInt * q.toInt

/-- The unsigned remainder is the signed one only where that one is not negative. -/
theorem truncatedDivision_iff {w : Nat} {a b : BitVec w} (hb : b ≠ 0)
    (hover : ¬(a = BitVec.intMin w ∧ b = -1)) :
    TruncatedDivision a b (some (a.sdiv b)) (some (magnitude a % magnitude b)) ↔
      0 ≤ a.toInt ∨ b.toInt ∣ a.toInt := by
  have hquot : (a.sdiv b).toInt = a.toInt.tdiv b.toInt := by
    apply BitVec.toInt_sdiv_of_ne_or_ne
    by_contra h
    push Not at h
    exact hover h
  have hrem : a.toInt - b.toInt * a.toInt.tdiv b.toInt = a.toInt.tmod b.toInt :=
    (Int.tmod_def _ _).symm
  have hlaw : TruncatedDivision a b (some (a.sdiv b)) (some (magnitude a % magnitude b)) ↔
      ((a.toInt.tmod b.toInt).natAbs : Int) = a.toInt.tmod b.toInt := by
    simp [TruncatedDivision, hquot, hrem, magnitude_remainder a hb]
  rw [hlaw]
  constructor
  · intro h
    by_contra hneg
    push Not at hneg
    have hle : a.toInt.tmod b.toInt ≤ 0 := by
      have hnonneg := Int.tmod_nonneg b.toInt (a := -a.toInt) (by omega)
      rw [Int.neg_tmod] at hnonneg
      omega
    exact hneg.2 (Int.dvd_of_tmod_eq_zero (by omega))
  · rintro (h | h)
    · have := Int.tmod_nonneg b.toInt h
      omega
    · rw [Int.tmod_eq_zero_of_dvd h]
      rfl

theorem udivmodsi3_signed (a : BitVec 32) {b : BitVec 32} (hb : b ≠ 0)
    {fuel : Nat} (hfuel : 32 < fuel) :
    divsi3 fuel a b = some (a.sdiv b) ∧
      modsi3 fuel a b = some (magnitude a % magnitude b) := by
  rcases udivmodBody_eq (magnitude a) (magnitude_ne_zero hb) hfuel with ⟨s, hs, hlo, ha⟩
  have hs' : udivmodBody fuel (magnitude a) (magnitude b) 1 = some s := hs
  constructor
  · rw [divsi3, hs', Option.map_some, hlo, magnitude_quotient]
  · simp [modsi3, udivmodsi3, udivmodSigned, udivmodDoMod, hs, ha]

theorem udivmoddi3_signed (a : BitVec 64) {b : BitVec 64} (hb : b ≠ 0)
    {fuel : Nat} (hfuel : 64 < fuel) :
    divdi3 fuel a b = some (a.sdiv b) ∧
      moddi3 fuel a b = some (magnitude a % magnitude b) := by
  rcases udivmodBody_eq (magnitude a) (magnitude_ne_zero hb) hfuel with ⟨s, hs, hlo, ha⟩
  constructor
  · rw [← magnitude_quotient]
    simp only [divdi3, udivmoddi3, firstBit hb, udivmodSigned, udivmodDoMod]
    by_cases hna : a.toInt < 0 <;> by_cases hnb : b.toInt < 0 <;> simp [hs, hlo, hna, hnb]
  · simp only [moddi3, udivmoddi3, firstBit hb]
    simp [udivmodDoMod, udivmodSigned, hs, ha]

end EntryPoints

/-- The unsigned routines of both widths return the quotient and the remainder. -/
theorem unsigned_division (fuel : Nat) (hfuel : 64 < fuel) :
    (∀ a b : BitVec 32, b ≠ 0 →
      ∃ q r, udivsi3 fuel a b = some q ∧ umodsi3 fuel a b = some r ∧
        q.toNat = a.toNat / b.toNat ∧ r.toNat = a.toNat % b.toNat) ∧
    (∀ a b : BitVec 64, b ≠ 0 →
      ∃ q r, udivdi3 fuel a b = some q ∧ umoddi3 fuel a b = some r ∧
        q.toNat = a.toNat / b.toNat ∧ r.toNat = a.toNat % b.toNat) := by
  constructor
  · intro a b hb
    rcases udivmodsi3_unsigned a hb (by omega : 32 < fuel) with ⟨hq, hr⟩
    exact ⟨_, _, hq, hr, BitVec.toNat_udiv, BitVec.toNat_umod⟩
  · intro a b hb
    rcases udivmoddi3_unsigned a hb hfuel with ⟨hq, hr⟩
    exact ⟨_, _, hq, hr, BitVec.toNat_udiv, BitVec.toNat_umod⟩

/-- Divisors and dividends with the top bit set. -/
theorem unsigned_division_topBit :
    ∃ q r, udivsi3 65 (0xffffffff#32) (0x80000000#32) = some q ∧
      umodsi3 65 (0xffffffff#32) (0x80000000#32) = some r ∧
      q.toNat = 0xffffffff / 0x80000000 ∧ r.toNat = 0xffffffff % 0x80000000 :=
  (unsigned_division 65 (by omega)).1 0xffffffff#32 0x80000000#32 (by decide)

/-- The signed routines keep the law of `/` and `%` exactly where the remainder is not
negative: `__modsi3` and `__moddi3` return the remainder of the magnitudes. -/
theorem signed_division_iff (fuel : Nat) (hfuel : 64 < fuel) :
    (∀ a b : BitVec 32, b ≠ 0 → ¬(a = BitVec.intMin 32 ∧ b = -1) →
      (TruncatedDivision a b (divsi3 fuel a b) (modsi3 fuel a b) ↔
        0 ≤ a.toInt ∨ b.toInt ∣ a.toInt)) ∧
    (∀ a b : BitVec 64, b ≠ 0 → ¬(a = BitVec.intMin 64 ∧ b = -1) →
      (TruncatedDivision a b (divdi3 fuel a b) (moddi3 fuel a b) ↔
        0 ≤ a.toInt ∨ b.toInt ∣ a.toInt)) := by
  constructor
  · intro a b hb hover
    rcases udivmodsi3_signed a hb (by omega : 32 < fuel) with ⟨hq, hr⟩
    rw [hq, hr]
    exact truncatedDivision_iff hb hover
  · intro a b hb hover
    rcases udivmoddi3_signed a hb hfuel with ⟨hq, hr⟩
    rw [hq, hr]
    exact truncatedDivision_iff hb hover

theorem signed_division_iff_seven :
    TruncatedDivision (7#32) (-2#32) (divsi3 65 7#32 (-2#32)) (modsi3 65 7#32 (-2#32)) :=
  ((signed_division_iff 65 (by omega)).1 7#32 (-2#32) (by decide) (by decide)).2
    (Or.inl (by decide))

/-- `-7 % 2` comes out as `1`. -/
theorem modsi3_negative_dividend :
    divsi3 65 (-7#32) 2#32 = some (-3#32) ∧ modsi3 65 (-7#32) 2#32 = some 1#32 ∧
      ¬TruncatedDivision (-7#32) 2#32 (divsi3 65 (-7#32) 2#32) (modsi3 65 (-7#32) 2#32) := by
  have hq : divsi3 65 (-7#32) 2#32 = some (-3#32) := by decide
  have hr : modsi3 65 (-7#32) 2#32 = some 1#32 := by decide
  refine ⟨hq, hr, ?_⟩
  rw [hq, hr]
  rintro ⟨q, r, hq', hr', -, hlaw⟩
  obtain rfl := Option.some.inj hq'
  obtain rfl := Option.some.inj hr'
  exact absurd hlaw (by decide)

end Libc
end F32c
