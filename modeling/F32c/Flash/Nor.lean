import Mathlib.Data.BitVec
import Mathlib.Logic.Function.Basic
import Mathlib.Tactic.Common

/-!
# NOR flash contents

Programming a NOR flash can only clear bits, and erasing sets all bits of a range.
This module is about the contents alone, for cells of any width: what a sequence of
programmed values leaves in a range, and that a range reads back as programmed when it
was blank before.
-/

namespace F32c
namespace Nor

variable {w : Nat}

/-- The value of each cell. -/
abbrev Contents (w : Nat) := Nat → BitVec w

/-- Consecutive cells are programmed, beginning at `base`. -/
def program (m : Contents w) (base : Nat) : List (BitVec w) → Contents w
  | [] => m
  | d :: ds => program (Function.update m base (m base &&& d)) (base + 1) ds

/-- The cells of a range are erased. -/
def erase (m : Contents w) (base len : Nat) : Contents w :=
  fun a => if base ≤ a ∧ a < base + len then BitVec.allOnes w else m a

/-- Consecutive cells are read. -/
def read (m : Contents w) (base : Nat) : Nat → List (BitVec w)
  | 0 => []
  | n + 1 => m base :: read m (base + 1) n

/-- A range that holds ones only. -/
def Blank (m : Contents w) (base len : Nat) : Prop :=
  ∀ a, base ≤ a → a < base + len → m a = BitVec.allOnes w

section Ranges

variable {m m' : Contents w} {base len a : Nat}

theorem erase_inside (h : base ≤ a ∧ a < base + len) : erase m base len a = BitVec.allOnes w := by
  rw [erase, if_pos h]

theorem erase_outside (h : a < base ∨ base + len ≤ a) : erase m base len a = m a := by
  rw [erase, if_neg (by omega)]

theorem blank_erase : Blank (erase m base len) base len :=
  fun _ hlo hhi => erase_inside ⟨hlo, hhi⟩

theorem blank_zero : Blank m base 0 := by
  intro a hlo hhi
  omega

theorem Blank.congr (h : Blank m base len) (heq : ∀ a, base ≤ a → a < base + len → m' a = m a) :
    Blank m' base len :=
  fun a hlo hhi => (heq a hlo hhi).trans (h a hlo hhi)

/-- Two adjacent ranges. -/
theorem blank_add {k : Nat} :
    Blank m base (len + k) ↔ Blank m base len ∧ Blank m (base + len) k := by
  constructor
  · intro h
    exact ⟨fun a hlo hhi => h a hlo (by omega), fun a hlo hhi => h a (by omega) (by omega)⟩
  · rintro ⟨hleft, hright⟩ a hlo hhi
    by_cases ha : a < base + len
    · exact hleft a hlo ha
    · exact hright a (by omega) (by omega)

theorem blank_succ : Blank m base (len + 1) ↔ m base = BitVec.allOnes w ∧ Blank m (base + 1) len := by
  rw [Nat.add_comm, blank_add]
  refine and_congr_left fun _ => ⟨fun h => h base (Nat.le_refl _) (by omega), fun h a hlo hhi => ?_⟩
  rw [show a = base by omega]
  exact h

end Ranges

section Program

variable {m : Contents w} {base : Nat}

theorem program_append (xs ys : List (BitVec w)) :
    program m base (xs ++ ys) = program (program m base xs) (base + xs.length) ys := by
  induction xs generalizing m base with
  | nil =>
      rfl
  | cons x xs ih =>
      rw [List.cons_append, program, ih, program, List.length_cons]
      congr 1
      omega

/-- Cells outside of the programmed range keep their values. -/
theorem program_outside {xs : List (BitVec w)} {a : Nat}
    (h : a < base ∨ base + xs.length ≤ a) : program m base xs a = m a := by
  induction xs generalizing m base with
  | nil =>
      rfl
  | cons x xs ih =>
      rw [List.length_cons] at h
      rw [program, ih (by omega), Function.update_of_ne (by omega)]

/-- A cell that holds zeros only cannot be programmed to anything else. -/
theorem program_zero {xs : List (BitVec w)} {a : Nat} (h : m a = 0#w) :
    program m base xs a = 0#w := by
  induction xs generalizing m base with
  | nil =>
      exact h
  | cons x xs ih =>
      rw [program]
      apply ih
      by_cases ha : a = base
      · subst ha
        simp [h]
      · rw [Function.update_of_ne ha, h]

theorem read_congr {m m' : Contents w} {n : Nat}
    (h : ∀ a, base ≤ a → a < base + n → m a = m' a) : read m base n = read m' base n := by
  induction n generalizing base with
  | zero =>
      rfl
  | succ n ih =>
      rw [read, read, h base (Nat.le_refl _) (by omega),
        ih fun a hlo hhi => h a (by omega) (by omega)]

theorem head?_read {n : Nat} (h : n ≠ 0) : (read m base n).head? = some (m base) := by
  cases n with
  | zero =>
      exact absurd rfl h
  | succ n =>
      rfl

/-- A blank range reads back as it was programmed. -/
theorem read_program {xs : List (BitVec w)} (h : Blank m base xs.length) :
    read (program m base xs) base xs.length = xs := by
  induction xs generalizing m base with
  | nil =>
      rfl
  | cons x xs ih =>
      obtain ⟨hfirst, hrest⟩ := blank_succ.1 h
      have hblank : Blank (Function.update m base (m base &&& x)) (base + 1) xs.length :=
        hrest.congr fun a hlo _ => Function.update_of_ne (by omega) _ _
      rw [List.length_cons, read, program, ih hblank, program_outside (by omega)]
      simp [hfirst]

end Program

end Nor
end F32c
