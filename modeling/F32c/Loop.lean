import Mathlib.Tactic.Common

/-!
# Loops of a program

A `while` loop of the C library is run with a bound on the number of times its
test is made.  The run ends with `some` state when the test fails within that
bound, and with `none` when the bound is used up, so a statement that a run
returns `some` state says that the loop terminates.
-/

namespace F32c
namespace Loop

universe u

variable {σ : Type u}

/-- `while (cond) body`, making the test at most `n` times. -/
def whileLoop (cond : σ → Bool) (body : σ → σ) : Nat → σ → Option σ
  | 0, _ => none
  | n + 1, s => if cond s then whileLoop cond body n (body s) else some s

variable {cond : σ → Bool} {body : σ → σ}

theorem whileLoop_of_false
    {s : σ} {n : Nat}
    (h : cond s = false) :
    whileLoop cond body (n + 1) s = some s := by
  simp [whileLoop, h]

theorem whileLoop_of_true
    {s : σ} {n : Nat}
    (h : cond s = true) :
    whileLoop cond body (n + 1) s = whileLoop cond body n (body s) := by
  simp [whileLoop, h]

/-- What a loop keeps and a measure it lowers give the state it ends in. -/
theorem whileLoop_rule
    (I : σ → Prop) (μ : σ → Nat)
    (hstep : ∀ s, I s → cond s = true → I (body s) ∧ μ (body s) < μ s) :
    ∀ (n : Nat) (s : σ), I s → μ s < n →
      ∃ s', whileLoop cond body n s = some s' ∧ I s' ∧ cond s' = false := by
  intro n
  induction n with
  | zero =>
      intro s _ hn
      omega
  | succ n ih =>
      intro s hI hn
      cases hc : cond s with
      | false => exact ⟨s, whileLoop_of_false hc, hI, hc⟩
      | true =>
          rcases hstep s hI hc with ⟨hI', hμ⟩
          rw [whileLoop_of_true hc]
          exact ih (body s) hI' (by omega)

/-- What each pass keeps holds in the state that a loop ends in, if it ends. -/
theorem whileLoop_keep
    (I : σ → Prop)
    (hstep : ∀ s, I s → cond s = true → I (body s)) :
    ∀ (n : Nat) (s s' : σ), I s → whileLoop cond body n s = some s' → I s' ∧ cond s' = false := by
  intro n
  induction n with
  | zero =>
      intro s s' _ hrun
      cases hrun
  | succ n ih =>
      intro s s' hI hrun
      cases hc : cond s with
      | false =>
          rw [whileLoop_of_false hc] at hrun
          cases hrun
          exact ⟨hI, hc⟩
      | true =>
          rw [whileLoop_of_true hc] at hrun
          exact ih (body s) s' (hstep s hI hc) hrun

/-- The state after the first `n` passes, or after all of them where there are fewer. -/
def passes (cond : σ → Bool) (body : σ → σ) : Nat → σ → σ
  | 0, s => s
  | n + 1, s => if cond s then passes cond body n (body s) else s

/-- The last pass comes after the others. -/
theorem passes_succ (n : Nat) (s : σ) :
    passes cond body (n + 1) s =
      if cond (passes cond body n s) then body (passes cond body n s) else passes cond body n s := by
  induction n generalizing s with
  | zero =>
      rfl
  | succ n ih =>
      rw [passes]
      cases hc : cond s with
      | false => simp [passes, hc]
      | true =>
          rw [if_pos rfl, ih (body s)]
          simp [passes, hc]

/-- What one pass keeps is kept by any number of passes. -/
theorem passes_keep
    (I : σ → Prop)
    (hstep : ∀ s, I s → cond s = true → I (body s)) :
    ∀ (n : Nat) (s : σ), I s → I (passes cond body n s) := by
  intro n
  induction n with
  | zero =>
      intro s hI
      exact hI
  | succ n ih =>
      intro s hI
      cases hc : cond s with
      | false => simpa [passes, hc] using hI
      | true =>
          rw [passes, if_pos hc]
          exact ih (body s) (hstep s hI hc)

/-- The states in which the first `n` passes begin. -/
def visited (cond : σ → Bool) (body : σ → σ) : Nat → σ → List σ
  | 0, _ => []
  | n + 1, s => if cond s then s :: visited cond body n (body s) else []

theorem visited_keep
    (I : σ → Prop)
    (hstep : ∀ s, I s → cond s = true → I (body s)) :
    ∀ (n : Nat) (s : σ), I s → ∀ t ∈ visited cond body n s, I t ∧ cond t = true := by
  intro n
  induction n with
  | zero =>
      intro s _ t ht
      simp [visited] at ht
  | succ n ih =>
      intro s hI t ht
      rw [visited] at ht
      split at ht
      · next hc =>
          rcases List.mem_cons.1 ht with rfl | ht
          · exact ⟨hI, hc⟩
          · exact ih (body s) (hstep s hI hc) t ht
      · simp at ht

/-- What the passes do to a part of the state, one after the other. -/
theorem passes_foldl {β : Type u}
    (view : σ → β) (act : β → σ → β)
    (hstep : ∀ s, cond s = true → view (body s) = act (view s) s) :
    ∀ (n : Nat) (s : σ),
      view (passes cond body n s) = (visited cond body n s).foldl act (view s) := by
  intro n
  induction n with
  | zero =>
      intro s
      rfl
  | succ n ih =>
      intro s
      cases hc : cond s with
      | false => simp [passes, visited, hc]
      | true =>
          rw [passes, visited, if_pos hc, if_pos hc, List.foldl_cons, ih (body s), hstep s hc]

/-- A measure that every pass lowers bounds the number of passes. -/
theorem passes_end
    (I : σ → Prop) (μ : σ → Nat)
    (hstep : ∀ s, I s → cond s = true → I (body s) ∧ μ (body s) < μ s) :
    ∀ (n : Nat) (s : σ), I s → μ s ≤ n →
      I (passes cond body n s) ∧ cond (passes cond body n s) = false := by
  intro n
  induction n with
  | zero =>
      intro s hI hn
      refine ⟨hI, ?_⟩
      cases hc : cond s with
      | false => exact hc
      | true =>
          have := (hstep s hI hc).2
          omega
  | succ n ih =>
      intro s hI hn
      cases hc : cond s with
      | false => simpa [passes, hc] using hI
      | true =>
          rcases hstep s hI hc with ⟨hI', hμ⟩
          rw [passes, if_pos hc]
          exact ih (body s) hI' (by omega)

section Exchange

variable {ι ρ : Type u} {ret : σ → Option ρ} {step : σ → ι → σ ⊕ ρ}

/-- A loop that takes an input in each pass: the result after exactly these inputs.  `ret` is the
test at the head of the loop, and `step` goes on or returns. -/
def exchange (ret : σ → Option ρ) (step : σ → ι → σ ⊕ ρ) : List ι → σ → Option ρ
  | [], s => ret s
  | i :: is, s =>
    if (ret s).isSome then none
    else
      match step s i with
      | .inl s' => exchange ret step is s'
      | .inr r => if is.isEmpty then some r else none

/-- What each pass keeps holds of the result, together with the inputs that were taken. -/
theorem exchange_rule
    (I : σ → List ι → Prop) (Q : ρ → List ι → Prop)
    (hret : ∀ s is r, I s is → ret s = some r → Q r is)
    (hnext : ∀ s is i s', I s is → ret s = none → step s i = .inl s' → I s' (is ++ [i]))
    (hstop : ∀ s is i r, I s is → ret s = none → step s i = .inr r → Q r (is ++ [i])) :
    ∀ (is : List ι) (s : σ) (before : List ι) (r : ρ), I s before →
      exchange ret step is s = some r → Q r (before ++ is) := by
  intro is
  induction is with
  | nil =>
      intro s before r hI hr
      rw [List.append_nil]
      exact hret s before r hI hr
  | cons i is ih =>
      intro s before r hI hr
      rw [exchange] at hr
      cases hnone : ret s with
      | some r' => simp [hnone] at hr
      | none =>
          rw [hnone, if_neg (by simp)] at hr
          rw [List.append_cons]
          cases hstep : step s i with
          | inl s' =>
              rw [hstep] at hr
              exact ih s' (before ++ [i]) r (hnext s before i s' hI hnone hstep) hr
          | inr r' =>
              rw [hstep] at hr
              dsimp only at hr
              split at hr
              · next hempty =>
                  rw [List.isEmpty_iff.1 hempty, List.append_nil, ← Option.some.inj hr]
                  exact hstop s before i r' hI hnone hstep
              · cases hr

end Exchange

end Loop
end F32c
