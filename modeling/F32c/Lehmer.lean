import Mathlib.Data.Nat.GCD.Basic
import Mathlib.Logic.Function.Iterate
import Mathlib.Tactic.LinearCombination

/-!
# Multiplicative generators

A generator that multiplies its state by `a` modulo `m`, and the decomposition with which a step is
computed without a product above `m`: with `m = a * q + r` the step is the difference of the
products of the two parts of the state by `q`, plus `m` if it is negative.
-/

namespace F32c
namespace Lehmer

section Generator

variable {a m : Nat}

/-- A step of the generator. -/
def next (a m x : Nat) : Nat := a * x % m

/-- The states other than zero are closed under a step. -/
theorem next_range (hcop : Nat.Coprime m a) {x : Nat} (hpos : 0 < x) (hlt : x < m) :
    0 < next a m x ∧ next a m x < m := by
  constructor
  · rw [Nat.pos_iff_ne_zero]
    intro hzero
    have hdvd : m ∣ x := hcop.dvd_of_dvd_mul_left (Nat.dvd_of_mod_eq_zero hzero)
    exact absurd (Nat.le_of_dvd hpos hdvd) (by omega)
  · exact Nat.mod_lt _ (by omega)

/-- The states of a run. -/
theorem iterate_next (x n : Nat) : (next a m)^[n + 1] x = a ^ (n + 1) * x % m := by
  induction n with
  | zero => simp [next]
  | succ n ih =>
      rw [Function.iterate_succ_apply', ih, next, Nat.mul_mod_mod, ← Nat.mul_assoc,
        ← Nat.pow_succ']

theorem iterate_range (hcop : Nat.Coprime m a) {x : Nat} (hpos : 0 < x) (hlt : x < m) (n : Nat) :
    0 < (next a m)^[n] x ∧ (next a m)^[n] x < m := by
  induction n with
  | zero => exact ⟨hpos, hlt⟩
  | succ n ih =>
      rw [Function.iterate_succ_apply']
      exact next_range hcop ih.1 ih.2

end Generator

section Schrage

variable {a m q r : Nat}

/-- The difference of the products of the parts of the state. -/
def difference (a q r x : Nat) : Int := (a * (x % q) : Nat) - (r * (x / q) : Nat)

theorem difference_eq (hsplit : m = a * q + r) (x : Nat) :
    difference a q r x = a * x - m * (x / q : Nat) := by
  have hx : (x : Int) = (q : Int) * (x / q : Nat) + (x % q : Nat) := by
    exact_mod_cast (Nat.div_add_mod x q).symm
  have hm : (m : Int) = a * q + r := by exact_mod_cast hsplit
  rw [difference, Nat.cast_mul, Nat.cast_mul]
  linear_combination (-(a : Int)) * hx + (x / q : Nat) * hm

/-- Neither product reaches the modulus. -/
theorem products_lt (hsplit : m = a * q + r) (hsmall : r ≤ q) (hpos : 0 < q) (ha : 0 < a) {x : Nat}
    (hlt : x < m) : a * (x % q) < m ∧ r * (x / q) < m := by
  constructor
  · have hmod : x % q < q := Nat.mod_lt _ hpos
    have hmul : a * (x % q) < a * q := Nat.mul_lt_mul_of_pos_left hmod ha
    omega
  · have hmul : r * (x / q) ≤ q * (x / q) := Nat.mul_le_mul_right _ hsmall
    have hdiv : q * (x / q) ≤ x := Nat.mul_div_le x q
    omega

/-- The difference, corrected, is the step. -/
theorem next_eq (hsplit : m = a * q + r) (hsmall : r ≤ q) (hpos : 0 < q) (ha : 0 < a) {x : Nat}
    (hlt : x < m) :
    (next a m x : Int) =
      if difference a q r x < 0 then difference a q r x + m else difference a q r x := by
  rcases products_lt hsplit hsmall hpos ha hlt with ⟨hlow, hhigh⟩
  have hrange : -(m : Int) < difference a q r x ∧ difference a q r x < m := by
    unfold difference
    omega
  have hmod : (difference a q r x) % m = next a m x := by
    rw [difference_eq hsplit, Int.sub_mul_emod_self_left]
    exact_mod_cast rfl
  rw [← hmod]
  split
  · next hneg =>
      rw [← Int.add_emod_right]
      exact Int.emod_eq_of_lt (by omega) (by omega)
  · next hnonneg => exact Int.emod_eq_of_lt (by omega) (by omega)

end Schrage

end Lehmer
end F32c
