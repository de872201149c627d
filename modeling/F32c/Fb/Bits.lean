import F32c.Fb.Draw
import Mathlib.Data.Set.Lattice
import Mathlib.Tactic

/-!
# The framebuffer bit by bit

A little-endian memory is a sequence of bits in which a pixel of `b` bits with
number `off` holds the bits from `off * b` on, whatever the depth.  The stores of
the library are seen here as paints: each one writes a pattern over an interval
of bits and keeps all other bits.  Two lists of stores that paint one pattern
over the same set of bits have the same effect.
-/

namespace F32c
namespace Fb

section Bits

/-- A bit of the memory. -/
def bitAt (m : Memory) (k : Int) : Bool := (m (k / 8)).getLsbD (k % 8).toNat

theorem memory_ext {m m' : Memory} (h : ∀ k, bitAt m k = bitAt m' k) : m = m' := by
  funext b
  apply BitVec.eq_of_getLsbD_eq
  intro j hj
  have hbit := h (8 * b + j)
  rw [bitAt, bitAt, show (8 * b + (j : Int)) / 8 = b by omega,
    show ((8 * b + (j : Int)) % 8).toNat = j by omega] at hbit
  exact hbit

theorem bitAt_storeBytes (m : Memory) (a : Int) (n : Nat) {w : Nat} (v : BitVec w) (k : Int) :
    bitAt (storeBytes m a n v) k =
      if 8 * a ≤ k ∧ k < 8 * (a + n) then v.getLsbD (k - 8 * a).toNat else bitAt m k := by
  rw [bitAt, storeBytes]
  by_cases h : 8 * a ≤ k ∧ k < 8 * (a + n)
  · rw [if_pos (by omega), if_pos h, BitVec.getLsbD_extractLsb']
    have hlt : (k % 8).toNat < 8 := by omega
    rw [decide_eq_true hlt, Bool.true_and]
    congr 1
    omega
  · rw [if_neg (by omega), if_neg h, bitAt]

theorem bitAt_memset (m : Memory) (a : Int) (c : Byte) (len : Nat) (k : Int) :
    bitAt (memset m a c len) k =
      if 8 * a ≤ k ∧ k < 8 * (a + len) then c.getLsbD (k % 8).toNat else bitAt m k := by
  rw [bitAt, memset]
  by_cases h : 8 * a ≤ k ∧ k < 8 * (a + len)
  · rw [if_pos (by omega), if_pos h]
  · rw [if_neg (by omega), if_neg h, bitAt]

theorem getLsbD_loadWord (m : Memory) (a : Int) {j : Nat} (hj : j < 32) :
    (loadWord m a).getLsbD j = bitAt m (8 * a + j) := by
  rw [loadWord, bitAt]
  simp only [BitVec.getLsbD_append]
  by_cases h0 : j < 8
  · rw [if_pos h0, show (8 * a + (j : Int)) / 8 = a by omega]
    congr 1
    omega
  · by_cases h1 : j < 16
    · rw [if_neg h0, if_pos (by omega), show (8 * a + (j : Int)) / 8 = a + 1 by omega]
      congr 1
      omega
    · by_cases h2 : j < 24
      · rw [if_neg h0, if_neg (by omega), if_pos (by omega),
          show (8 * a + (j : Int)) / 8 = a + 2 by omega]
        congr 1
        omega
      · rw [if_neg h0, if_neg (by omega), if_neg (by omega),
          show (8 * a + (j : Int)) / 8 = a + 3 by omega]
        congr 1
        omega

end Bits

section Plot

/-- A field of `b` bits of a word replaced by the low bits of another. -/
theorem getLsbD_field (w color mask : BitVec 32) {b s j : Nat} (hj : j < 32)
    (hmask : ∀ i, mask.getLsbD i = decide (i < b)) :
    ((w &&& ~~~(mask <<< s)) ||| ((color &&& mask) <<< s)).getLsbD j =
      if s ≤ j ∧ j < s + b then color.getLsbD (j - s) else w.getLsbD j := by
  simp only [BitVec.getLsbD_or, BitVec.getLsbD_and, BitVec.getLsbD_not, BitVec.getLsbD_shiftLeft,
    hj, decide_true, Bool.true_and, hmask]
  by_cases hs : j < s
  · simp [hs, show ¬s ≤ j by omega]
  · by_cases hb : j - s < b
    · simp [hs, hb, show s ≤ j ∧ j < s + b by omega]
    · simp [hs, hb, show ¬(s ≤ j ∧ j < s + b) by omega]

theorem wordAt_eq (off : CInt) (s : Nat) : wordAt off s = 4 * (off.toInt / 2 ^ s) := by
  rw [wordAt, BitVec.toInt_sshiftRight, Int.shiftRight_eq_div_pow]
  norm_cast

/-- The plot functions of the packed depths, at the level of bits. -/
theorem bitAt_plotField (m : Memory) (off color mask : BitVec 32) {b n s : Nat}
    (hbn : b * 2 ^ n = 32) (hs : s = b * (off.toInt % 2 ^ n).toNat)
    (hmask : ∀ i, mask.getLsbD i = decide (i < b)) (k : Int) :
    bitAt (storeWord m (wordAt off n) ((loadWord m (wordAt off n) &&& ~~~(mask <<< s)) |||
        ((color &&& mask) <<< s))) k =
      if off.toInt * b ≤ k ∧ k < off.toInt * b + b then color.getLsbD (k % b).toNat
      else bitAt m k := by
  obtain ⟨q, hq⟩ : ∃ q, off.toInt / 2 ^ n = q := ⟨_, rfl⟩
  obtain ⟨r, hr⟩ : ∃ r : Nat, off.toInt % 2 ^ n = r :=
    ⟨(off.toInt % 2 ^ n).toNat, (Int.toNat_of_nonneg (Int.emod_nonneg _ (by positivity))).symm⟩
  have hlt : r < 2 ^ n := by
    have := Int.emod_lt_of_pos off.toInt (by positivity : (0 : Int) < 2 ^ n)
    rw [hr] at this
    exact_mod_cast this
  rw [hr, Int.toNat_natCast] at hs
  -- the pixel is the field of the word `q` at place `s`
  have hpixel : off.toInt * b = 32 * q + s := by
    have hdiv := Int.mul_ediv_add_emod off.toInt (2 ^ n)
    rw [hq, hr] at hdiv
    have hbn' : (b : Int) * 2 ^ n = 32 := by exact_mod_cast hbn
    rw [hs, ← hdiv, ← hbn']
    push_cast
    ring
  have hfit : s + b ≤ 32 := by
    rw [hs, ← hbn, ← Nat.mul_succ]
    exact Nat.mul_le_mul_left b hlt
  have hb : 0 < b := Nat.pos_of_ne_zero (by rintro rfl; omega)
  rw [storeWord, bitAt_storeBytes, wordAt_eq, hq, hpixel]
  by_cases hword : 8 * (4 * q) ≤ k ∧ k < 8 * (4 * q + (4 : Nat))
  · rw [if_pos hword]
    have hj : (k - 8 * (4 * q)).toNat < 32 := by omega
    rw [getLsbD_field _ _ _ hj hmask, getLsbD_loadWord _ _ hj]
    by_cases hin : 32 * q + s ≤ k ∧ k < 32 * q + s + b
    · rw [if_pos (by omega), if_pos hin]
      congr 1
      have hmod : k % b = k - (32 * q + s) := by
        rw [← hpixel] at hin ⊢
        have hk : k = (k - off.toInt * b) + b * off.toInt := by ring
        rw [hk, Int.add_mul_emod_self_left, Int.emod_eq_of_lt (by omega) (by omega)]
        ring
      omega
    · rw [if_neg (by omega), if_neg hin]
      congr 1
      omega
  · rw [if_neg hword, if_neg (by omega)]

theorem getLsbD_mask {b i : Nat} {mask : BitVec 32} (hb : b ≤ 32)
    (hmask : mask = BitVec.ofNat 32 (2 ^ b - 1)) : mask.getLsbD i = decide (i < b) := by
  rw [hmask, BitVec.getLsbD_ofNat, Nat.testBit_two_pow_sub_one]
  by_cases h : i < b
  · simp [h, show i < 32 by omega]
  · simp [h]

/-- The low bits of an offset, read as a signed or as an unsigned word. -/
theorem toNat_and_low (off : CInt) {n : Nat} (hn : n ≤ 32) :
    (off &&& BitVec.ofNat 32 (2 ^ n - 1)).toNat = (off.toInt % 2 ^ n).toNat := by
  have hpow : 2 ^ n ≤ 2 ^ 32 := Nat.pow_le_pow_right (by omega) hn
  have hpos : 0 < 2 ^ n := Nat.two_pow_pos n
  have hmod : off.toInt % 2 ^ n = (off.toNat % 2 ^ n : Nat) := by
    rw [BitVec.toInt_eq_toNat_cond]
    push_cast
    split
    · rfl
    · have hdvd : (2 : Int) ^ n ∣ 4294967296 := pow_dvd_pow 2 hn
      rw [Int.sub_emod, Int.emod_eq_zero_of_dvd hdvd, sub_zero, Int.emod_emod]
  rw [hmod, Int.toNat_natCast, BitVec.toNat_and, BitVec.toNat_ofNat,
    Nat.mod_eq_of_lt (by omega), Nat.and_two_pow_sub_one_eq_mod]

/-- A plot paints the bits of its pixel with the bits of the colour. -/
theorem bitAt_plot (d : Depth) (m : Memory) (off color : CInt) (k : Int) :
    bitAt (d.plot m off color) k =
      if off.toInt * d.bits ≤ k ∧ k < off.toInt * d.bits + d.bits then
        color.getLsbD (k % d.bits).toNat
      else bitAt m k := by
  have hwhole : ∀ n : Nat, 0 < n → bitAt (storeBytes m (n * off.toInt) n color) k =
      if off.toInt * (8 * n : Nat) ≤ k ∧ k < off.toInt * (8 * n : Nat) + (8 * n : Nat) then
        color.getLsbD (k % (8 * n : Nat)).toNat
      else bitAt m k := by
    intro n hn
    have hpixel : 8 * (n * off.toInt) = off.toInt * (8 * n : Nat) := by
      push_cast
      ring
    rw [bitAt_storeBytes, mul_add, hpixel]
    by_cases hin : off.toInt * (8 * n : Nat) ≤ k ∧ k < off.toInt * (8 * n : Nat) + (8 * n : Nat)
    · rw [if_pos (by push_cast at *; omega), if_pos hin]
      congr 1
      have hmod : k % (8 * n : Nat) = k - off.toInt * (8 * n : Nat) := by
        have hk : k = (k - off.toInt * (8 * n : Nat)) + (8 * n : Nat) * off.toInt := by ring
        rw [hk, Int.add_mul_emod_self_left, Int.emod_eq_of_lt (by omega) (by omega)]
        ring
      rw [hmod]
    · rw [if_neg (by push_cast at *; omega), if_neg hin]
  cases d with
  | bpp1 =>
      refine bitAt_plotField m off color 0x1#32 (b := 1) (n := 5) rfl ?_
        (fun i => getLsbD_mask (by omega) rfl) k
      rw [one_mul]
      exact toNat_and_low off (n := 5) (by omega)
  | bpp2 =>
      refine bitAt_plotField m off color 0x3#32 (b := 2) (n := 4) rfl ?_
        (fun i => getLsbD_mask (by omega) rfl) k
      have hlow := toNat_and_low off (n := 4) (by omega)
      have hlt : (off &&& 0xf#32).toNat < 2 ^ 4 := by
        rw [BitVec.toNat_and]
        exact lt_of_le_of_lt Nat.and_le_right (by decide)
      have hmul : ((off &&& 0xf#32) * 2#32).toNat = 2 * (off &&& 0xf#32).toNat := by
        rw [BitVec.toNat_mul, BitVec.toNat_ofNat]
        omega
      exact hmul.trans (congrArg (2 * ·) hlow)
  | bpp4 =>
      rw [Depth.plot, plotBpp4, BitVec.or_comm]
      refine bitAt_plotField m off color 0xf#32 (b := 4) (n := 3) rfl ?_
        (fun i => getLsbD_mask (by omega) rfl) k
      have hlow := toNat_and_low off (n := 3) (by omega)
      have hshift : (off <<< 2 &&& 0x1f#32).toNat = 4 * (off &&& 0x7#32).toNat := by
        have h31 : (0x1f#32).toNat = 2 ^ 5 - 1 := rfl
        have h7 : (0x7#32).toNat = 2 ^ 3 - 1 := rfl
        rw [BitVec.toNat_and, BitVec.toNat_and, BitVec.toNat_shiftLeft, Nat.shiftLeft_eq, h31, h7,
          Nat.and_two_pow_sub_one_eq_mod, Nat.and_two_pow_sub_one_eq_mod]
        omega
      exact hshift.trans (congrArg (4 * ·) hlow)
  | bpp8 =>
      have h := hwhole 1 (by omega)
      rwa [Nat.cast_one, one_mul] at h
  | bpp16 => exact hwhole 2 (by omega)
  | bpp24 => exact hwhole 4 (by omega)

end Plot

section Paint

variable (fb : Screen) (P : Int → Bool)

/-- The stores write the pattern `P` over the bits of `S` and keep all others. -/
def Painted (stores : List Store) (S : Set Int) : Prop :=
  ∀ m k, (k ∈ S → bitAt (runStores fb stores m) k = P k) ∧
    (k ∉ S → bitAt (runStores fb stores m) k = bitAt m k)

variable {fb P}

/-- What is painted over the same bits is the same memory. -/
theorem Painted.runStores_eq {stores stores' : List Store} {S : Set Int}
    (h : Painted fb P stores S) (h' : Painted fb P stores' S) (m : Memory) :
    runStores fb stores m = runStores fb stores' m := by
  apply memory_ext
  intro k
  by_cases hk : k ∈ S
  · rw [(h m k).1 hk, (h' m k).1 hk]
  · rw [(h m k).2 hk, (h' m k).2 hk]

theorem Painted.nil : Painted fb P [] ∅ := by
  intro m k
  simp [runStores]

theorem Painted.append {stores stores' : List Store} {S T : Set Int}
    (h : Painted fb P stores S) (h' : Painted fb P stores' T) :
    Painted fb P (stores ++ stores') (S ∪ T) := by
  intro m k
  have hrun : runStores fb (stores ++ stores') m = runStores fb stores' (runStores fb stores m) :=
    List.foldl_append
  rw [hrun]
  by_cases hT : k ∈ T
  · simp [hT, (h' (runStores fb stores m) k).1 hT]
  · rw [(h' (runStores fb stores m) k).2 hT]
    by_cases hS : k ∈ S
    · simp [hS, (h m k).1 hS]
    · simp [hS, hT, (h m k).2 hS]

theorem Painted.flatMap {α : Type} {l : List α} {f : α → List Store} {S : α → Set Int}
    (h : ∀ x ∈ l, Painted fb P (f x) (S x)) :
    Painted fb P (l.flatMap f) {k | ∃ x ∈ l, k ∈ S x} := by
  induction l with
  | nil =>
      have hempty : {k | ∃ x ∈ ([] : List α), k ∈ S x} = ∅ := by simp
      rw [hempty]
      exact Painted.nil
  | cons x l ih =>
      have hunion : {k | ∃ y ∈ x :: l, k ∈ S y} = S x ∪ {k | ∃ y ∈ l, k ∈ S y} := by
        ext k
        simp
      rw [hunion, List.flatMap_cons]
      exact (h x List.mem_cons_self).append (ih fun y hy => h y (List.mem_cons_of_mem x hy))

/-- A single store that writes the pattern over an interval of bits. -/
theorem Painted.single {s : Store} {lo hi : Int}
    (h : ∀ m k, bitAt (s.run fb m) k = if lo ≤ k ∧ k < hi then P k else bitAt m k) :
    Painted fb P [s] (Set.Ico lo hi) := by
  intro m k
  have hrun : runStores fb [s] m = s.run fb m := rfl
  rw [hrun, h m k, Set.mem_Ico]
  constructor <;> intro hk <;> simp [hk]

theorem Painted.bounds {stores : List Store} {i j i' j' : Int}
    (h : Painted fb P stores (Set.Ico i j)) (hi : i = i') (hj : j = j') :
    Painted fb P stores (Set.Ico i' j') := by
  rw [← hi, ← hj]
  exact h

/-- Two intervals of bits painted one after the other. -/
theorem Painted.adjacent {stores stores' : List Store} {i j k : Int}
    (h : Painted fb P stores (Set.Ico i j)) (h' : Painted fb P stores' (Set.Ico j k))
    (hij : i ≤ j) (hjk : j ≤ k) : Painted fb P (stores ++ stores') (Set.Ico i k) := by
  rw [← Set.Ico_union_Ico_eq_Ico hij hjk]
  exact h.append h'

/-- An unrolled pass of four stores. -/
theorem Painted.four {s₀ s₁ s₂ s₃ : Store} {i c : Int} (hc : 0 ≤ c)
    (h₀ : Painted fb P [s₀] (Set.Ico i (i + c)))
    (h₁ : Painted fb P [s₁] (Set.Ico (i + c) (i + 2 * c)))
    (h₂ : Painted fb P [s₂] (Set.Ico (i + 2 * c) (i + 3 * c)))
    (h₃ : Painted fb P [s₃] (Set.Ico (i + 3 * c) (i + 4 * c))) :
    Painted fb P [s₀, s₁, s₂, s₃] (Set.Ico i (i + 4 * c)) :=
  ((h₀.adjacent h₁ (by omega) (by omega)).adjacent h₂ (by omega) (by omega)).adjacent h₃
    (by omega) (by omega)

/-- A loop that paints one interval after the other. -/
theorem Painted.range {f : Nat → List Store} {i c : Int} (hc : 0 ≤ c) (n : Nat)
    (h : ∀ k < n, Painted fb P (f k) (Set.Ico (i + c * k) (i + c * (k + 1)))) :
    Painted fb P ((List.range n).flatMap f) (Set.Ico i (i + c * n)) := by
  induction n with
  | zero =>
      simpa using Painted.nil
  | succ n ih =>
      rw [List.range_succ, List.flatMap_append, List.flatMap_singleton]
      have hn : 0 ≤ c * n := mul_nonneg hc (Int.natCast_nonneg n)
      have hlast := h n (by omega)
      rw [show ((n + 1 : Nat) : Int) = n + 1 by push_cast; rfl]
      exact (ih fun k hk => h k (by omega)).adjacent hlast (by omega) (by
        rw [mul_add]
        omega)

end Paint

end Fb
end F32c
