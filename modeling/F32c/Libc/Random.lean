import F32c.Lehmer
import Mathlib.Tactic.NormNum.GCD

/-!
# Random numbers

`random` multiplies its seed by 16807 modulo `2^31 - 1`.  It splits the seed by 127773 and takes the
difference of two products of 32 bits, which is negative when its sign bit is set.
-/

namespace F32c
namespace Libc

open Lehmer

section Random

/-- The result of a call, and the seed that it leaves. -/
structure Random where
  value : BitVec 32
  randseed : BitVec 32

/-- `x`; the seed can not be 0, so another value is used. -/
def randomX (randseed : BitVec 32) : BitVec 32 :=
  if randseed = 0#32 then 123459876#32 else randseed

/-- `hi`. -/
def randomHi (randseed : BitVec 32) : BitVec 32 := (randomX randseed).sdiv 127773#32

/-- `lo`. -/
def randomLo (randseed : BitVec 32) : BitVec 32 := (randomX randseed).srem 127773#32

/-- `t`, before it is corrected. -/
def randomT (randseed : BitVec 32) : BitVec 32 :=
  16807#32 * randomLo randseed - 2836#32 * randomHi randseed

/-- `random`. -/
def random (randseed : BitVec 32) : Random :=
  let t := randomT randseed
  let t := if t.slt 0#32 then t + 0x7fffffff#32 else t
  { value := t, randseed := t }

/-- The seed after a number of calls. -/
def seedAt (randseed : BitVec 32) : Nat → BitVec 32
  | 0 => randseed
  | n + 1 => (random (seedAt randseed n)).randseed

/-- The value that a call returns. -/
def returned (randseed : BitVec 32) (n : Nat) : BitVec 32 := (random (seedAt randseed n)).value

end Random

section Step

/-- `2^31 - 1`. -/
def modulus : Nat := 2 ^ 31 - 1

/-- A seed that the generator can have. -/
def SeedRange (x : BitVec 32) : Prop := 1 ≤ x.toNat ∧ x.toNat ≤ 2 ^ 31 - 2

instance (x : BitVec 32) : Decidable (SeedRange x) := inferInstanceAs (Decidable (_ ∧ _))

variable {x : BitVec 32}

theorem SeedRange.ne_zero (h : SeedRange x) : x ≠ 0#32 := by
  rintro rfl
  exact absurd h.1 (by decide)

theorem SeedRange.msb (h : SeedRange x) : x.msb = false := by
  rw [BitVec.msb_eq_false_iff_two_mul_lt]
  have hle := h.2
  omega

/-- The seed is split like a natural number. -/
theorem SeedRange.split (h : SeedRange x) :
    randomX x = x ∧ (randomHi x).toNat = x.toNat / 127773 ∧
      (randomLo x).toNat = x.toNat % 127773 := by
  have hx : randomX x = x := if_neg h.ne_zero
  have hquot : (127773#32).msb = false := by decide
  refine ⟨hx, ?_, ?_⟩
  · rw [randomHi, hx, BitVec.sdiv_eq, h.msb, hquot]
    exact BitVec.toNat_udiv
  · rw [randomLo, hx, BitVec.srem_eq, h.msb, hquot]
    exact BitVec.toNat_umod

theorem modulus_split : modulus = 16807 * 127773 + 2836 := rfl

/-- The products do not leave 31 bits. -/
theorem SeedRange.products (h : SeedRange x) :
    (16807#32 * randomLo x).toNat = 16807 * (x.toNat % 127773) ∧
      (2836#32 * randomHi x).toNat = 2836 * (x.toNat / 127773) ∧
      16807 * (x.toNat % 127773) < modulus ∧ 2836 * (x.toNat / 127773) < modulus := by
  rcases h.split with ⟨-, hhi, hlo⟩
  have hlt : x.toNat < modulus := by
    have hle := h.2
    unfold modulus
    omega
  rcases products_lt modulus_split (by decide) (by decide) (by decide) hlt with ⟨hlow, hhigh⟩
  refine ⟨?_, ?_, hlow, hhigh⟩
  · rw [BitVec.toNat_mul, hlo]
    exact Nat.mod_eq_of_lt (lt_trans hlow (by decide))
  · rw [BitVec.toNat_mul, hhi]
    exact Nat.mod_eq_of_lt (lt_trans hhigh (by decide))

/-- The difference, as a signed number. -/
theorem SeedRange.toInt_t (h : SeedRange x) :
    (randomT x).toInt = difference 16807 127773 2836 x.toNat := by
  rcases h.products with ⟨hlow, hhigh, hlow', hhigh'⟩
  have hm : modulus = 2147483647 := rfl
  have hint : ∀ y : BitVec 32, y.toNat < modulus → y.toInt = y.toNat := by
    intro y hy
    rw [BitVec.toInt_eq_toNat_of_lt]
    omega
  rw [randomT, BitVec.toInt_sub, hint _ (by omega), hint _ (by omega), hlow, hhigh, difference]
  exact Int.bmod_eq_of_le (by omega) (by omega)

/-- A signed number that is not negative. -/
theorem toNat_of_toInt {y : BitVec 32} {k : Nat} (h : y.toInt = k) : y.toNat = k := by
  have hlt := y.isLt
  rw [BitVec.toInt_eq_toNat_cond] at h
  split at h <;> omega

/-- A call makes a step of the generator. -/
theorem SeedRange.random_toNat (h : SeedRange x) :
    (random x).randseed.toNat = next 16807 modulus x.toNat := by
  have hm : modulus = 2147483647 := rfl
  have hlt : x.toNat < modulus := by
    have hle := h.2
    omega
  have hnext := next_eq modulus_split (by decide) (by decide) (by decide) hlt
  have hrange : next 16807 modulus x.toNat < modulus := Nat.mod_lt _ (by decide)
  have ht := h.toInt_t
  apply toNat_of_toInt
  rw [random, hnext]
  by_cases hneg : difference 16807 127773 2836 x.toNat < 0
  · have hslt : (randomT x).slt 0#32 = true := by
      rw [BitVec.slt_iff_toInt_lt, ht]
      exact hneg
    rw [if_pos hneg] at hnext ⊢
    simp only [hslt, if_true]
    rw [BitVec.toInt_add, ht, show (0x7fffffff#32).toInt = (modulus : Int) from rfl]
    exact Int.bmod_eq_of_le (by omega) (by omega)
  · have hslt : (randomT x).slt 0#32 = false := by
      rw [Bool.eq_false_iff, Ne, BitVec.slt_iff_toInt_lt, ht]
      exact hneg
    rw [if_neg hneg]
    simp only [hslt, Bool.false_eq_true, if_false]
    exact ht

theorem coprime_modulus : Nat.Coprime modulus 16807 := by
  norm_num [modulus]

theorem seedRange_of_next {y : BitVec 32} {k : Nat} (hpos : 0 < k) (hlt : k < modulus)
    (h : y.toNat = k) : SeedRange y := by
  have hm : modulus = 2147483647 := rfl
  unfold SeedRange
  omega

theorem SeedRange.random (h : SeedRange x) : SeedRange (Libc.random x).randseed := by
  have hm : modulus = 2147483647 := rfl
  have hle := h.2
  rcases next_range coprime_modulus (x := x.toNat) h.1 (by omega) with ⟨hpos, hlt⟩
  exact seedRange_of_next hpos hlt h.random_toNat

/-- The first call replaces a seed of 0. -/
theorem random_zero : Libc.random 0#32 = Libc.random 123459876#32 := rfl

/-- The seeds of a run from the initial seed. -/
theorem seedAt_toNat (n : Nat) :
    SeedRange (seedAt 0#32 (n + 1)) ∧
      (seedAt 0#32 (n + 1)).toNat = (next 16807 modulus)^[n + 1] 123459876 := by
  have hstart : SeedRange 123459876#32 := by decide
  induction n with
  | zero =>
      change SeedRange (Libc.random 0#32).randseed ∧ (Libc.random 0#32).randseed.toNat = _
      rw [random_zero]
      exact ⟨hstart.random, hstart.random_toNat⟩
  | succ n ih =>
      rcases ih with ⟨hrange, hseed⟩
      rw [Function.iterate_succ_apply', ← hseed]
      exact ⟨hrange.random, hrange.random_toNat⟩

/-- A call computes a step of the Park-Miller generator, with no product that leaves 32 bits, so
that the calls from the initial seed 0 return the sequence that starts from 123459876. -/
theorem park_miller :
    (∀ x : BitVec 32, SeedRange x →
      (Libc.random x).randseed.toNat = 16807 * x.toNat % (2 ^ 31 - 1) ∧
      (Libc.random x).value = (Libc.random x).randseed ∧
      SeedRange (Libc.random x).randseed ∧
      (16807#32 * randomLo x).toNat = 16807 * (randomLo x).toNat ∧
      (2836#32 * randomHi x).toNat = 2836 * (randomHi x).toNat) ∧
    ∀ n : Nat,
      (returned 0#32 n).toNat = 16807 ^ (n + 1) * 123459876 % (2 ^ 31 - 1) ∧
      seedAt 0#32 (n + 1) = returned 0#32 n ∧
      seedAt 0#32 (n + 1) ≠ 0#32 := by
  constructor
  · intro x h
    rcases h.split with ⟨-, hhi, hlo⟩
    rcases h.products with ⟨hlow, hhigh, -, -⟩
    refine ⟨h.random_toNat, rfl, h.random, ?_, ?_⟩
    · rw [hlow, hlo]
    · rw [hhigh, hhi]
  · intro n
    rcases seedAt_toNat n with ⟨hrange, hseed⟩
    rw [iterate_next] at hseed
    exact ⟨hseed, rfl, hrange.ne_zero⟩

/-- The first values. -/
theorem park_miller_first :
    (Libc.random 1#32).value = 16807#32 ∧ (returned 0#32 1).toNat =
      16807 ^ 2 * 123459876 % (2 ^ 31 - 1) := by
  rcases park_miller with ⟨hstep, hrun⟩
  rcases hstep 1#32 (by decide) with ⟨hvalue, hsame, -⟩
  refine ⟨?_, (hrun 1).1⟩
  rw [hsame]
  exact BitVec.eq_of_toNat_eq hvalue

end Step

end Libc
end F32c
