import Mathlib.Logic.Function.Iterate
import Mathlib.Tactic.Common

/-!
# Clocked machines

A synchronous design is a function from the registers before a clock edge and
the inputs sampled by that edge to the registers after it.  This module keeps
the part of the argument that every such design shares: the state reached after
a number of clocks, and the rules that lift a fact about one clock to a fact
about every run.

The inputs of a run are a function of time, so a statement about every run
quantifies over every pattern of requests, delays and acknowledgements.
-/

namespace F32c
namespace Clocked

universe u v

variable {σ : Type u}
variable {ι : Type v}

/-- The registers after `n` clocks of a run that starts in `s`. -/
def stateAt (step : σ → ι → σ) (s : σ) (inp : Nat → ι) : Nat → σ
  | 0 => s
  | n + 1 => step (stateAt step s inp n) (inp n)

@[simp] theorem stateAt_zero
    (step : σ → ι → σ) (s : σ) (inp : Nat → ι) :
    stateAt step s inp 0 = s := by
  rfl

theorem stateAt_succ
    (step : σ → ι → σ) (s : σ) (inp : Nat → ι) (n : Nat) :
    stateAt step s inp (n + 1) = step (stateAt step s inp n) (inp n) := by
  rfl

/-- A run may be cut at any clock and continued from the state reached there. -/
theorem stateAt_add
    (step : σ → ι → σ) (s : σ) (inp : Nat → ι) (m n : Nat) :
    stateAt step s inp (m + n) =
      stateAt step (stateAt step s inp m) (fun k => inp (m + k)) n := by
  induction n with
  | zero =>
      rfl
  | succ n ih =>
      rw [← Nat.add_assoc, stateAt_succ, stateAt_succ, ih]

section Invariant

variable {step : σ → ι → σ}
variable {Inv : σ → Prop}

/-- An invariant that each clock preserves holds after every number of clocks. -/
theorem stateAt_invariant
    {s : σ} (hinit : Inv s)
    (hstep : ∀ s i, Inv s → Inv (step s i))
    (inp : Nat → ι) (n : Nat) :
    Inv (stateAt step s inp n) := by
  induction n with
  | zero =>
      exact hinit
  | succ n ih =>
      exact hstep _ _ ih

/--
The same rule for an invariant that a clock preserves only under a condition on
the registers and inputs of that clock.
-/
theorem stateAt_invariant_of
    (ok : σ → ι → Prop) {s : σ} {inp : Nat → ι}
    (hinit : Inv s)
    (hstep : ∀ s i, ok s i → Inv s → Inv (step s i))
    (hok : ∀ n, ok (stateAt step s inp n) (inp n)) (n : Nat) :
    Inv (stateAt step s inp n) := by
  induction n with
  | zero =>
      exact hinit
  | succ n ih =>
      exact hstep _ _ (hok n) ih

end Invariant

section Progress

variable {step : σ → ι → σ}

/--
Progress by a rank: as long as a run waits and the goal is not reached, each
clock keeps it waiting and lowers the rank, so the goal is reached.
-/
theorem stateAt_progress
    (wait goal : σ → Prop) (rank : σ → Nat) {s : σ} {inp : Nat → ι}
    (hstep : ∀ n, wait (stateAt step s inp n) → ¬goal (stateAt step s inp n) →
      wait (stateAt step s inp (n + 1)) ∧
        rank (stateAt step s inp (n + 1)) < rank (stateAt step s inp n))
    {n : Nat} (hn : wait (stateAt step s inp n)) :
    ∃ m, n ≤ m ∧ wait (stateAt step s inp m) ∧ goal (stateAt step s inp m) := by
  induction hr : rank (stateAt step s inp n) using Nat.strongRecOn generalizing n with
  | ind r ih =>
      by_cases hg : goal (stateAt step s inp n)
      · exact ⟨n, Nat.le_refl n, hn, hg⟩
      · obtain ⟨hw, hlt⟩ := hstep n hn hg
        obtain ⟨m, hm, hgoal⟩ := ih _ (hr ▸ hlt) hw rfl
        exact ⟨m, by omega, hgoal⟩

/--
Progress under fairness: until the goal is met no clock raises the rank, and each
fair clock lowers it.
-/
theorem stateAt_progress_fair
    (goal : σ → ι → Prop) (fair : ι → Prop) (rank : σ → Nat) {s : σ} {inp : Nat → ι}
    (hstep : ∀ n, ¬goal (stateAt step s inp n) (inp n) →
      rank (stateAt step s inp (n + 1)) ≤ rank (stateAt step s inp n) ∧
        (fair (inp n) → rank (stateAt step s inp (n + 1)) < rank (stateAt step s inp n)))
    (hfair : ∀ n, ∃ m, n ≤ m ∧ fair (inp m)) (n : Nat) :
    ∃ m, n ≤ m ∧ goal (stateAt step s inp m) (inp m) := by
  by_contra hnever
  have hnot : ∀ m, n ≤ m → ¬goal (stateAt step s inp m) (inp m) :=
    fun m hm hg => hnever ⟨m, hm, hg⟩
  have hmono : ∀ k m, n ≤ k → k ≤ m →
      rank (stateAt step s inp m) ≤ rank (stateAt step s inp k) := by
    intro k m hk hm
    obtain ⟨d, rfl⟩ := Nat.exists_eq_add_of_le hm
    clear hm
    induction d with
    | zero => exact Nat.le_refl _
    | succ d ih => exact Nat.le_trans (hstep (k + d) (hnot (k + d) (by omega))).1 ih
  have hdown : ∀ d, ∃ m, n ≤ m ∧
      rank (stateAt step s inp m) + d ≤ rank (stateAt step s inp n) := by
    intro d
    induction d with
    | zero => exact ⟨n, Nat.le_refl n, Nat.le_refl _⟩
    | succ d ih =>
        obtain ⟨m, hm, hle⟩ := ih
        obtain ⟨k, hk, hf⟩ := hfair m
        have h1 := hmono m k hm hk
        have h2 := (hstep k (hnot k (by omega))).2 hf
        exact ⟨k + 1, by omega, by omega⟩
  obtain ⟨m, -, hle⟩ := hdown (rank (stateAt step s inp n) + 1)
  omega

/-- A log that keeps growing while it is too short becomes long enough. -/
theorem exists_le_of_grows
    (len : Nat → Nat) {n b : Nat}
    (hgrow : ∀ k, n ≤ k → len k < b → ∃ m, k ≤ m ∧ len k < len m) :
    ∃ m, n ≤ m ∧ b ≤ len m := by
  have hall : ∀ d k, n ≤ k → b - len k ≤ d → ∃ m, n ≤ m ∧ b ≤ len m := by
    intro d
    induction d with
    | zero =>
        intro k hk hd
        exact ⟨k, hk, by omega⟩
    | succ d ih =>
        intro k hk hd
        by_cases hlt : len k < b
        · obtain ⟨m, hm, hgt⟩ := hgrow k hk hlt
          exact ih m (by omega) (by omega)
        · exact ⟨k, hk, by omega⟩
  exact hall (b - len n) n (Nat.le_refl n) (Nat.le_refl _)

/--
Progress of something that waits until a fair clock, and then makes a step of the
at most `b` that it can make.
-/
theorem exists_of_steps
    {P : Nat → Nat → Prop} {goal fair : Nat → Prop} {b : Nat}
    (hwait : ∀ t n, P t n → ¬fair t → P (t + 1) n)
    (hstep : ∀ t n, P t n → fair t → goal (t + 1) ∨ P (t + 1) (n + 1))
    (hbound : ∀ t n, P t n → n ≤ b)
    (hfair : ∀ t, ∃ t', t ≤ t' ∧ fair t') {t n : Nat} (h : P t n) :
    ∃ t', t ≤ t' ∧ goal t' := by
  have hlater : ∀ d t n, P t n → fair (t + d) →
      ∃ u, t ≤ u ∧ (goal u ∨ P u (n + 1)) := by
    intro d
    induction d with
    | zero =>
        intro t n h hf
        exact ⟨t + 1, by omega, hstep t n h hf⟩
    | succ d ih =>
        intro t n h hf
        by_cases hnow : fair t
        · exact ⟨t + 1, by omega, hstep t n h hnow⟩
        · obtain ⟨u, hu, hres⟩ := ih (t + 1) n (hwait t n h hnow)
            (by rwa [show t + 1 + d = t + (d + 1) by omega])
          exact ⟨u, by omega, hres⟩
  induction hr : b - n using Nat.strongRecOn generalizing t n with
  | ind r ih =>
      obtain ⟨t', hle, hf⟩ := hfair t
      obtain ⟨d, rfl⟩ := Nat.exists_eq_add_of_le hle
      obtain ⟨u, hu, hgoal | hnext⟩ := hlater d t n h hf
      · exact ⟨u, hu, hgoal⟩
      · have hle := hbound u (n + 1) hnext
        obtain ⟨t'', hu', hgoal⟩ := ih (b - (n + 1)) (by omega) hnext rfl
        exact ⟨t'', by omega, hgoal⟩

/-- Something that waits until a fair clock happens some time. -/
theorem exists_of_wait
    {P goal fair : Nat → Prop}
    (hwait : ∀ t, P t → ¬fair t → P (t + 1))
    (hgo : ∀ t, P t → fair t → goal (t + 1))
    (hfair : ∀ t, ∃ t', t ≤ t' ∧ fair t') {t : Nat} (h : P t) :
    ∃ t', t ≤ t' ∧ goal t' := by
  refine @exists_of_steps (fun t n => n = 0 ∧ P t) goal fair 0 ?_ ?_ ?_ hfair t 0 ⟨rfl, h⟩
  · rintro t n ⟨hn, hP⟩ hf
    exact ⟨hn, hwait t hP hf⟩
  · rintro t n ⟨-, hP⟩ hf
    exact .inl (hgo t hP hf)
  · rintro t n ⟨hn, -⟩
    omega

end Progress

section Trace

variable {α : Type}
variable (step : σ → ι → σ) (event : σ → ι → Option α) (s : σ) (inp : Nat → ι)

/-- The events of the first `n` clocks. -/
def trace (n : Nat) : List α :=
  (List.range n).flatMap fun t => (event (stateAt step s inp t) (inp t)).toList

theorem trace_succ (n : Nat) :
    trace step event s inp (n + 1) =
      trace step event s inp n ++ (event (stateAt step s inp n) (inp n)).toList := by
  rw [trace, trace, List.range_succ, List.flatMap_append, List.flatMap_singleton]

/-- Later events are appended. -/
theorem trace_add (m n : Nat) :
    ∃ rest, trace step event s inp (m + n) = trace step event s inp m ++ rest := by
  induction n with
  | zero => exact ⟨[], (List.append_nil _).symm⟩
  | succ n ih =>
      obtain ⟨rest, hrest⟩ := ih
      refine ⟨rest ++ (event (stateAt step s inp (m + n)) (inp (m + n))).toList, ?_⟩
      rw [← Nat.add_assoc, trace_succ, hrest, List.append_assoc]

end Trace

section Simulation

/--
A simulation of a machine that counts the steps of an abstract one: a clock
makes one abstract step, or none and then it does not raise the rank.
-/
def Simulates (step : σ → ι → σ) (fair : ι → Prop) (R : Nat → σ → Nat → Prop) : Prop :=
  ∀ k s i n, R k s n →
    (∃ k', R k' (step s i) (n + 1)) ∨ ∃ k', k' ≤ k ∧ (fair i → k' < k) ∧ R k' (step s i) n

variable {step : σ → ι → σ}
variable {fair : ι → Prop}
variable {R : Nat → σ → Nat → Prop}
variable {s : σ}
variable {inp : Nat → ι}

/-- At every later clock the machine has made some number of further abstract steps. -/
theorem Simulates.later (h : Simulates step fair R) {k n t : Nat}
    (hR : R k (stateAt step s inp t) n) (d : Nat) :
    ∃ k' e, R k' (stateAt step s inp (t + d)) (n + e) := by
  induction d with
  | zero =>
      exact ⟨k, 0, hR⟩
  | succ d ih =>
      obtain ⟨k₁, e, hR₁⟩ := ih
      rcases h k₁ _ (inp (t + d)) _ hR₁ with ⟨k', hR'⟩ | ⟨k', -, -, hR'⟩
      · exact ⟨k', e + 1, hR'⟩
      · exact ⟨k', e, hR'⟩

/-- Before a later clock the next abstract step is made, or the rank has not grown. -/
theorem Simulates.before (h : Simulates step fair R) {k n t : Nat}
    (hR : R k (stateAt step s inp t) n) (d : Nat) :
    (∃ t' k', t ≤ t' ∧ R k' (stateAt step s inp t') (n + 1)) ∨
      ∃ k', k' ≤ k ∧ R k' (stateAt step s inp (t + d)) n := by
  induction d with
  | zero =>
      exact .inr ⟨k, Nat.le_refl k, hR⟩
  | succ d ih =>
      rcases ih with hdone | ⟨k₁, hle, hR₁⟩
      · exact .inl hdone
      · rcases h k₁ _ (inp (t + d)) n hR₁ with ⟨k', hR'⟩ | ⟨k', hle', -, hR'⟩
        · exact .inl ⟨t + d + 1, k', by omega, hR'⟩
        · exact .inr ⟨k', by omega, hR'⟩

/-- If fair clocks keep coming, the next abstract step is made. -/
theorem Simulates.next (h : Simulates step fair R) (hfair : ∀ t, ∃ t', t ≤ t' ∧ fair (inp t'))
    {k n t : Nat} (hR : R k (stateAt step s inp t) n) :
    ∃ t' k', t ≤ t' ∧ R k' (stateAt step s inp t') (n + 1) := by
  induction k using Nat.strongRecOn generalizing t with
  | ind k ih =>
      obtain ⟨t₁, hle, hf⟩ := hfair t
      obtain ⟨d, rfl⟩ := Nat.exists_eq_add_of_le hle
      rcases h.before hR d with hdone | ⟨k₁, hk₁, hR₁⟩
      · exact hdone
      · rcases h k₁ _ (inp (t + d)) n hR₁ with ⟨k', hR'⟩ | ⟨k', -, hlt, hR'⟩
        · exact ⟨t + d + 1, k', by omega, hR'⟩
        · obtain ⟨t', k'', hle', hR''⟩ := ih k' (by have := hlt hf; omega) (t := t + d + 1) hR'
          exact ⟨t', k'', by omega, hR''⟩

/-- Every number of abstract steps is reached. -/
theorem Simulates.reaches (h : Simulates step fair R)
    (hfair : ∀ t, ∃ t', t ≤ t' ∧ fair (inp t')) {k : Nat} (hinit : R k s 0) (n : Nat) :
    ∃ t k, R k (stateAt step s inp t) n := by
  induction n with
  | zero =>
      exact ⟨0, k, hinit⟩
  | succ n ih =>
      obtain ⟨t, k, hR⟩ := ih
      obtain ⟨t', k', -, hR'⟩ := h.next hfair hR
      exact ⟨t', k', hR'⟩

end Simulation

end Clocked
end F32c
