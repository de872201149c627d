import Mathlib.Logic.Function.Basic
import Mathlib.Data.Nat.ModEq

/-!
# Ring buffers

The contents of a ring of `size` entries, of which `count` are in use from
`tail` on.  Writing behind the last entry appends to the contents and advancing
the tail drops the first one.
-/

namespace F32c
namespace Ring

universe u

variable {α : Type u}

/-- The entries in use, oldest first. -/
def contents (size : Nat) (mem : Nat → α) (tail count : Nat) : List α :=
  (List.range count).map (fun k => mem ((tail + k) % size))

@[simp] theorem contents_zero (size : Nat) (mem : Nat → α) (tail : Nat) :
    contents size mem tail 0 = [] := by
  rfl

@[simp] theorem length_contents (size : Nat) (mem : Nat → α) (tail count : Nat) :
    (contents size mem tail count).length = count := by
  simp [contents]

/-- The oldest entry and the others. -/
theorem contents_succ (size : Nat) (mem : Nat → α) (tail count : Nat) :
    contents size mem tail (count + 1) =
      mem (tail % size) :: contents size mem ((tail + 1) % size) count := by
  simp only [contents, List.range_succ_eq_map, List.map_cons, List.map_map, Nat.add_zero]
  congr 1
  apply List.map_congr_left
  intro k _
  simp only [Function.comp, Nat.mod_add_mod]
  congr 2
  omega

/-- Two offsets within a ring name the same entry only if they are equal. -/
theorem offset_inj {size tail j k : Nat} (hj : j < size) (hk : k < size)
    (h : (tail + j) % size = (tail + k) % size) : j = k := by
  have hmod : j ≡ k [MOD size] := Nat.ModEq.add_left_cancel' tail h
  rwa [Nat.ModEq, Nat.mod_eq_of_lt hj, Nat.mod_eq_of_lt hk] at hmod

/-- Only the entries of the ring matter. -/
theorem contents_congr {size : Nat} (hsize : 0 < size) {mem mem' : Nat → α}
    (h : ∀ k < size, mem k = mem' k) (tail count : Nat) :
    contents size mem tail count = contents size mem' tail count := by
  apply List.map_congr_left
  intro k _
  exact h _ (Nat.mod_lt _ hsize)

/-- An entry that is not in use may be written. -/
theorem contents_update {size : Nat} (mem : Nat → α) (tail : Nat) {count : Nat}
    (hcount : count < size) (x : α) :
    contents size (Function.update mem ((tail + count) % size) x) tail count =
      contents size mem tail count := by
  apply List.map_congr_left
  intro k hk
  have hlt : k < count := List.mem_range.mp hk
  rw [Function.update_of_ne]
  intro heq
  have := offset_inj (by omega) hcount heq
  omega

/-- An entry written behind the last one is appended. -/
theorem contents_push {size : Nat} (mem : Nat → α) (tail : Nat) {count : Nat}
    (hcount : count < size) (x : α) :
    contents size (Function.update mem ((tail + count) % size) x) tail (count + 1) =
      contents size mem tail count ++ [x] := by
  rw [← contents_update mem tail hcount x]
  simp only [contents, List.range_succ, List.map_append, List.map_cons, List.map_nil,
    Function.update_self]

end Ring
end F32c
