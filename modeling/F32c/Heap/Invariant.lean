import F32c.Heap.Tiling

/-!
# The heap invariant

One specification for each call of the allocator over the tiling of the heap,
and from them the invariant of every program that uses the heap.
-/

namespace F32c
namespace Heap

variable {l : Layout}
variable {fuel : Nat}
variable {mem : Mem}
variable {cs : List Chunk}

section Loops

/-- The merge loop of `free` ends at the first chunk in use or at the terminator. -/
theorem merge_spec {i len : Nat} (h : Headers mem (i + len) cs)
    (hterm : mem (i + len + total cs) = 0#32) (hb : total cs < 2 ^ 31) {n : Nat}
    (hn : cs.length < n) :
    ∃ frees rest, cs = frees ++ rest ∧ (∀ c ∈ frees, c.free = true) ∧
      merge mem i n len = .ok (len + total frees) := by
  induction cs generalizing len n with
  | nil =>
      obtain ⟨n, rfl⟩ := Nat.exists_eq_succ_of_ne_zero (show n ≠ 0 by simp at hn; omega)
      refine ⟨[], [], rfl, by simp, ?_⟩
      have hzero : mem (i + len) = 0#32 := by simpa using hterm
      simp [merge, hzero, isFree]
  | cons c cs ih =>
      obtain ⟨n, rfl⟩ := Nat.exists_eq_succ_of_ne_zero (show n ≠ 0 by simp at hn; omega)
      obtain ⟨hhead, hpos, htail⟩ := h
      simp only [total_cons] at hterm hb
      simp only [List.length_cons] at hn
      rw [merge, hhead, c.isFree_header (by omega), c.getLen_header (by omega)]
      cases hf : c.free
      · exact ⟨[], c :: cs, rfl, by simp, by simp⟩
      · have hrest : mem (i + (len + c.len) + total cs) = 0#32 := by
          rw [← hterm]
          congr 1
          omega
        obtain ⟨frees, rest, rfl, hall, hmerge⟩ :=
          ih (by rwa [← Nat.add_assoc]) hrest (by omega) (show cs.length < n by omega)
        refine ⟨c :: frees, rest, rfl, ?_, ?_⟩
        · intro d hd
          rcases List.mem_cons.mp hd with rfl | hd
          · exact hf
          · exact hall d hd
        · rw [if_pos rfl, hmerge, total_cons, Nat.add_assoc]

/-- A free block that the search of `malloc` may return. -/
def Fits (cs : List Chunk) (i size : Nat) (b : Nat × Nat) : Prop :=
  ∃ pre c post, cs = pre ++ c :: post ∧ c.free = true ∧ size ≤ c.len ∧ b = (i + total pre, c.len)

theorem fits_cons_iff {i size : Nat} {b : Nat × Nat} {c : Chunk} :
    Fits (c :: cs) i size b ↔
      (c.free = true ∧ size ≤ c.len ∧ b = (i, c.len)) ∨ Fits cs (i + c.len) size b := by
  constructor
  · rintro ⟨pre, d, post, hcs, hfree, hsize, rfl⟩
    rcases pre with _ | ⟨e, pre⟩
    · obtain ⟨rfl, rfl⟩ := List.cons.inj hcs
      exact .inl ⟨hfree, hsize, by simp⟩
    · obtain ⟨rfl, rfl⟩ := List.cons.inj hcs
      exact .inr ⟨pre, d, post, rfl, hfree, hsize, by simp [Nat.add_assoc]⟩
  · rintro (⟨hfree, hsize, rfl⟩ | ⟨pre, d, post, rfl, hfree, hsize, rfl⟩)
    · exact ⟨[], c, cs, rfl, hfree, hsize, by simp⟩
    · exact ⟨c :: pre, d, post, rfl, hfree, hsize, by simp [Nat.add_assoc]⟩

/-- The smallest of the free blocks that are large enough and of the best one found before. -/
structure Best (cs : List Chunk) (i size : Nat) (best r : Option (Nat × Nat)) : Prop where
  found : ∀ b ∈ r, b ∈ best ∨ Fits cs i size b
  least : ∀ b', b' ∈ best ∨ Fits cs i size b' → ∃ b ∈ r, b.2 ≤ b'.2

/-- The search of `malloc` ends, with the smallest free block that is large enough. -/
theorem scan_spec (size : Nat) {i n : Nat} (h : Headers mem i cs) (hterm : mem (i + total cs) = 0#32)
    (hb : total cs < 2 ^ 31) (hn : cs.length < n) (best : Option (Nat × Nat))
    (hbest : ∀ b ∈ best, size ≤ b.2) :
    ∃ r, scan mem size n i best = .ok r ∧ Best cs i size best r := by
  induction cs generalizing i n best with
  | nil =>
      obtain ⟨n, rfl⟩ := Nat.exists_eq_succ_of_ne_zero (show n ≠ 0 by simp at hn; omega)
      have hzero : mem i = 0#32 := by simpa using hterm
      refine ⟨best, by simp [scan, hzero, getLen], fun b hb => .inl hb, ?_⟩
      rintro b' (hb' | ⟨pre, c, post, hcs, -⟩)
      · exact ⟨b', hb', Nat.le_refl _⟩
      · simp at hcs
  | cons c cs ih =>
      obtain ⟨n, rfl⟩ := Nat.exists_eq_succ_of_ne_zero (show n ≠ 0 by simp at hn; omega)
      obtain ⟨hhead, hpos, htail⟩ := h
      simp only [total_cons] at hterm hb
      simp only [List.length_cons] at hn
      have hrest := fun best hbest => ih (i := i + c.len) (n := n) htail
        (by rw [← hterm]; congr 1; omega) (by omega) (by omega) best hbest
      rw [scan, hhead, c.getLen_header (by omega), c.isFree_header (by omega), if_pos hpos]
      split_ifs with hfit hexact
      · simp only [Bool.and_eq_true, decide_eq_true_eq] at hfit
        refine ⟨_, rfl, ?_, ?_⟩
        · intro b hb
          obtain rfl : (i, c.len) = b := by simpa using hb
          exact .inr (fits_cons_iff.mpr (.inl ⟨hfit.1.1, hfit.1.2, rfl⟩))
        · -- no block that is large enough is smaller than one of the very size
          have hleast (b' : Nat × Nat) (hb' : size ≤ b'.2) :
              ∃ b ∈ some (i, c.len), b.2 ≤ b'.2 := ⟨_, rfl, by simpa [hexact] using hb'⟩
          rintro b' (hb' | ⟨pre, d, post, -, -, hsize, rfl⟩)
          · exact hleast b' (hbest b' hb')
          · exact hleast _ hsize
      · simp only [Bool.and_eq_true, decide_eq_true_eq, Option.all_eq_true] at hfit
        obtain ⟨⟨hfree, hsize⟩, hless⟩ := hfit
        obtain ⟨r, hr, hfound, hleast⟩ := hrest (some (i, c.len)) (by simpa using hsize)
        refine ⟨r, hr, ?_, ?_⟩
        · intro b hb
          rcases hfound b hb with hhere | htail
          · obtain rfl : (i, c.len) = b := by simpa using hhere
            exact .inr (fits_cons_iff.mpr (.inl ⟨hfree, hsize, rfl⟩))
          · exact .inr (fits_cons_iff.mpr (.inr htail))
        · obtain ⟨b, hb, hle⟩ := hleast (i, c.len) (.inl rfl)
          rintro b' (hb' | hb')
          · exact ⟨b, hb, Nat.le_trans hle (by simpa using hless b' hb')⟩
          · rcases fits_cons_iff.mp hb' with ⟨-, -, rfl⟩ | htail
            · exact ⟨b, hb, hle⟩
            · exact hleast b' (.inr htail)
      · obtain ⟨r, hr, hfound, hleast⟩ := hrest best hbest
        refine ⟨r, hr, ?_, ?_⟩
        · intro b hb
          exact (hfound b hb).imp_right fun htail => fits_cons_iff.mpr (.inr htail)
        · rintro b' (hb' | hb')
          · exact hleast b' (.inl hb')
          · rcases fits_cons_iff.mp hb' with ⟨hfree, hsize, rfl⟩ | htail
            · -- a better block was known
              obtain ⟨b₀, hb₀, hlt⟩ : ∃ b₀ ∈ best, b₀.2 < c.len := by
                simpa [hfree, hsize, Option.all_eq_true] using hfit
              obtain ⟨b, hb, hle⟩ := hleast b₀ (.inl hb₀)
              exact ⟨b, hb, by show b.2 ≤ c.len; omega⟩
            · exact hleast b' (.inr htail)

end Loops

section Specs

/-- `free` of a block in use. -/
theorem free_spec {p : Nat} (h : Tiles mem cs) (hfuel : total cs < fuel) (hp : p ∈ used 0 cs) :
    ∃ mem' cs', free fuel mem (some p) = .ok mem' ∧ Tiles mem' cs' ∧
      (∀ q, q ∈ used 0 cs' ↔ q ∈ used 0 cs ∧ q ≠ p) ∧
      ∀ q ∈ used 0 cs, q ≠ p → Keeps mem mem' q := by
  obtain ⟨pre, c, post, rfl, hfree, rfl⟩ := exists_of_mem_used hp
  simp only [Nat.zero_add]
  have hb := h.bound
  have hterm := h.terminator
  have hlength := length_le_total h.headers
  obtain ⟨hpre, hhead, hpos, hpost⟩ := headers_append.mp h.headers
  simp only [total_append, total_cons, List.length_append, List.length_cons, Nat.zero_add]
    at hb hterm hlength hfuel hhead hpost
  obtain ⟨frees, rest, rfl, hall, hmerge⟩ := merge_spec (n := fuel) hpost
    (by rw [← hterm]; congr 1; omega) (by omega) (by omega)
  simp only [total_append] at hb
  set block : Chunk := ⟨c.len + total frees, true⟩ with hblock
  set mem' := Function.update mem (total pre) block.header with hmem'
  have hagree : ∀ j, j < total pre ∨ total pre + total (c :: frees) ≤ j → mem' j = mem j := by
    intro j hj
    simp only [total_cons] at hj
    rw [hmem', Function.update_of_ne (by omega)]
  have hsplit : pre ++ c :: (frees ++ rest) = pre ++ ((c :: frees) ++ rest) := rfl
  rw [hsplit] at h hp ⊢
  have hnone : used (total pre + c.len) frees = [] := used_eq_nil hall
  have hused : used (total pre) (c :: frees) = [total pre + 1] := by
    rw [used, hfree, hnone]
    rfl
  have hold (q : Nat) : q ∈ used 0 (pre ++ ((c :: frees) ++ rest)) ↔
      q ∈ used 0 pre ∨ q = total pre + 1 ∨ q ∈ used (total pre + total (c :: frees)) rest := by
    rw [used_middle, hused, List.mem_append, List.mem_append, List.mem_singleton]
  have hne (q : Nat)
      (hq : q ∈ used 0 pre ∨ q ∈ used (total pre + total (c :: frees)) rest) :
      q ≠ total pre + 1 := by
    rcases hq with hq | hq
    · have := mem_used_bounds hpre hq
      omega
    · have hrest : Headers mem (total pre + total (c :: frees)) rest := by
        rw [total_cons, ← Nat.add_assoc]
        exact (headers_append.mp hpost).2
      have := mem_used_bounds hrest hq
      simp only [total_cons] at this
      omega
  have hheaders : Headers mem' (total pre) [block] := by
    refine ⟨?_, ?_, trivial⟩
    · rw [hmem', Function.update_self]
    · show 0 < c.len + total frees
      omega
  refine ⟨mem', pre ++ ([block] ++ rest), ?_, h.replace hagree ?_ hheaders, ?_, ?_⟩
  · rw [free]
    simp only [Nat.add_sub_cancel, hhead, c.isFree_header (by omega), hfree, Bool.false_eq_true,
      if_false, c.toNat_header (by omega), Nat.zero_add, hmerge]
    rfl
  · simp [hblock]
  · intro q
    have hnew : used 0 (pre ++ ([block] ++ rest)) =
        used 0 pre ++ used (total pre + total (c :: frees)) rest := by
      rw [used_middle]
      simp [used, hblock]
    rw [hnew, hold, List.mem_append]
    constructor
    · intro hq
      exact ⟨hq.imp_right .inr, hne q hq⟩
    · rintro ⟨hq | rfl | hq, hqp⟩
      · exact .inl hq
      · exact absurd rfl hqp
      · exact .inr hq
  · intro q hq hqp
    rcases (hold q).mp hq with hq | rfl | hq
    · exact h.keeps hagree (.inl hq)
    · exact absurd rfl hqp
    · exact h.keeps hagree (.inr hq)

/-- The chunks that `carve` leaves of one of length `len`. -/
def carved (len size : Nat) : List Chunk :=
  if size < len then [⟨size, false⟩, ⟨len - size, true⟩] else [⟨size, false⟩]

theorem total_carved {len size : Nat} (h : size ≤ len) : total (carved len size) = len := by
  rw [carved]
  split_ifs <;> simp <;> omega

theorem used_carved (i len size : Nat) : used i (carved len size) = [i + 1] := by
  rw [carved]
  split_ifs <;> rfl

theorem carve_headers (mem : Mem) (i : Nat) {len size : Nat} (h : 0 < size) :
    Headers (carve mem i len size) i (carved len size) := by
  rw [carve, carved]
  split_ifs with hlt
  · refine ⟨?_, h, ?_, ?_, trivial⟩
    · rw [Function.update_of_ne (by omega), Function.update_self]
      rfl
    · rw [Function.update_self]
      rfl
    · show 0 < len - size
      omega
  · exact ⟨Function.update_self _ _ _, h, trivial⟩

theorem carve_of_outside (mem : Mem) {i len size j : Nat} (hsize : size ≤ len) (hpos : 0 < size)
    (hj : j < i ∨ i + len ≤ j) : carve mem i len size j = mem j := by
  rw [carve]
  split_ifs with hlt
  · rw [Function.update_of_ne (by omega), Function.update_of_ne (by omega)]
  · rw [Function.update_of_ne (by omega)]

/-- A free block is taken. -/
theorem carve_spec {i len size : Nat} (h : Tiles mem cs) (hpos : 0 < size)
    (hfit : Fits cs 0 size (i, len)) :
    ∃ cs', Tiles (carve mem i len size) cs' ∧
      (∀ q, q ∈ used 0 cs' ↔ q ∈ used 0 cs ∨ q = i + 1) ∧ i + 1 ∉ used 0 cs ∧
      getLen (carve mem i len size i) = size ∧
      ∀ q ∈ used 0 cs, Keeps mem (carve mem i len size) q := by
  obtain ⟨pre, c, post, rfl, hfree, hsize, hpair⟩ := hfit
  obtain ⟨rfl, rfl⟩ := Prod.mk.inj hpair
  rw [Nat.zero_add]
  have hsplit : pre ++ c :: post = pre ++ ([c] ++ post) := rfl
  rw [hsplit] at h ⊢
  have hb := h.bound
  obtain ⟨hpre, htail⟩ := headers_append.mp h.headers
  obtain ⟨-, hpost⟩ := headers_append.mp htail
  simp only [total_append, total_cons, total_nil, Nat.zero_add, Nat.add_zero] at hb hpost
  have hagree : ∀ j, j < total pre ∨ total pre + total [c] ≤ j →
      carve mem (total pre) c.len size j = mem j := by
    intro j hj
    exact carve_of_outside mem hsize hpos (by simpa using hj)
  have hold (q : Nat) : q ∈ used 0 (pre ++ ([c] ++ post)) ↔
      q ∈ used 0 pre ∨ q ∈ used (total pre + total [c]) post := by
    rw [used_middle]
    simp [used, hfree]
  have hheaders : Headers (carve mem (total pre) c.len size) (total pre) (carved c.len size) :=
    carve_headers mem (total pre) hpos
  refine ⟨pre ++ (carved c.len size ++ post), ?_, ?_, ?_, ?_, ?_⟩
  · exact h.replace hagree (by simp [total_carved hsize]) hheaders
  · intro q
    rw [hold, used_middle, used_carved, total_carved hsize]
    simp only [List.mem_append, List.mem_singleton, total_cons, total_nil, Nat.add_zero]
    tauto
  · rw [hold]
    rintro (hq | hq)
    · have := mem_used_bounds hpre hq
      omega
    · rw [total_cons, total_nil, Nat.add_zero] at hq
      have := mem_used_bounds hpost hq
      omega
  · have hhead : carve mem (total pre) c.len size (total pre) =
        (⟨size, false⟩ : Chunk).header := by
      rw [carved] at hheaders
      split_ifs at hheaders
      · exact hheaders.1
      · exact hheaders.1
    rw [hhead, Chunk.getLen_header (by show size < 2 ^ 31; omega)]
  · intro q hq
    exact h.keeps hagree ((hold q).mp hq)

end Specs

section Bytes

theorem writeByte_of_ne (mem : Mem) {a j : Nat} (b : Byte) (h : j ≠ a / 4) :
    writeByte mem a b j = mem j := by
  rw [writeByte, Function.update_of_ne h]

/-- Copying into a block changes only its words. -/
theorem memcpy_of_outside (mem : Mem) (src : Nat) {dst n k j : Nat} (hn : n ≤ 4 * k)
    (hj : j < dst ∨ dst + k ≤ j) : memcpy mem dst src n j = mem j := by
  induction n with
  | zero =>
      rfl
  | succ n ih =>
      rw [memcpy, writeByte_of_ne _ _ (by omega), ih (by omega)]

theorem bzero_of_outside (mem : Mem) {dst n k j : Nat} (hn : n ≤ 4 * k)
    (hj : j < dst ∨ dst + k ≤ j) : bzero mem dst n j = mem j := by
  induction n with
  | zero =>
      rfl
  | succ n ih =>
      rw [bzero, writeByte_of_ne _ _ (by omega), ih (by omega)]

end Bytes

section Invariant

/-- The chunks in use are the blocks that the program owns. -/
structure Owns (mem : Mem) (live : Finset Nat) (cs : List Chunk) : Prop where
  tiles : Tiles mem cs
  live : ∀ p, p ∈ live ↔ p ∈ used 0 cs

/-- The invariant of the allocator. -/
structure Inv (s : State) : Prop where
  owns : s.started = true → ∃ cs, Owns s.mem s.live cs
  idle : s.started = false → s.live = ∅

theorem Inv.started {s : State} (h : Inv s) {p : Nat} (hp : p ∈ s.live) : s.started = true := by
  cases hs : s.started
  · rw [h.idle hs] at hp
    simp at hp
  · rfl

/-- A pointer is behind a header. -/
theorem Inv.pos {s : State} (h : Inv s) {p : Nat} (hp : p ∈ s.live) : 0 < p := by
  obtain ⟨cs, htiles, hlive⟩ := h.owns (h.started hp)
  exact (mem_used_bounds htiles.headers ((hlive p).mp hp)).1

/-- The words of a block in use may be changed. -/
theorem Inv.write {s : State} (h : Inv s) {p : Nat} (hp : p ∈ s.live) {mem' : Mem}
    (hagree : ∀ j, j ∉ payload s.mem p → mem' j = s.mem j) :
    Inv { s with mem := mem' } ∧ ∀ q ∈ s.live, q ≠ p → Keeps s.mem mem' q := by
  have hs := h.started hp
  obtain ⟨cs, htiles, hlive⟩ := h.owns hs
  obtain ⟨pre, c, post, rfl, hfree, rfl⟩ := exists_of_mem_used ((hlive p).mp hp)
  have hsplit : pre ++ c :: post = pre ++ ([c] ++ post) := rfl
  rw [hsplit] at htiles hlive
  have hb := htiles.bound
  obtain ⟨-, htail⟩ := headers_append.mp htiles.headers
  obtain ⟨⟨hhead, hpos, -⟩, -⟩ := headers_append.mp htail
  simp only [total_append, total_cons, total_nil, Nat.zero_add, Nat.add_zero] at hb hhead
  have hout (j : Nat) (hj : j ≤ total pre ∨ total pre + c.len ≤ j) : mem' j = s.mem j := by
    apply hagree
    rw [payload, Finset.mem_Ico, Nat.zero_add, Nat.add_sub_cancel, hhead,
      c.getLen_header (by omega)]
    omega
  have hagree' : ∀ j, j < total pre ∨ total pre + total [c] ≤ j → mem' j = s.mem j := by
    intro j hj
    simp only [total_cons, total_nil, Nat.add_zero] at hj
    exact hout j (by omega)
  have htiles' : Tiles mem' (pre ++ ([c] ++ post)) := by
    refine htiles.replace hagree' rfl ⟨?_, hpos, trivial⟩
    rw [hout _ (by omega), hhead]
  refine ⟨⟨fun _ => ⟨_, htiles', hlive⟩, h.idle⟩, fun q hq hqp => ?_⟩
  have hmem := (hlive q).mp hq
  rw [used_middle, List.mem_append, List.mem_append] at hmem
  rcases hmem with hmem | hmem | hmem
  · exact htiles.keeps hagree' (.inl hmem)
  · simp [used, hfree] at hmem
    omega
  · exact htiles.keeps hagree' (.inr hmem)

theorem heapTop_lt (l : Layout) : heapTop l < 2 ^ 30 := by
  rw [heapTop]
  split_ifs
  all_goals first
    | exact Nat.two_pow_pos 30
    | (apply Nat.lt_of_le_of_lt (Nat.sub_le _ _)
       apply Nat.div_lt_of_lt_mul
       exact BitVec.isLt _)

/-- `malloc_init` makes the heap one free chunk, or leaves it empty. -/
theorem mallocInit_spec (mem : Mem) : ∃ cs, Owns (mallocInit l mem) ∅ cs := by
  have htop := heapTop_lt l
  by_cases hzero : heapTop l = 0
  · refine ⟨[], ⟨trivial, ?_, by simp⟩, by simp [used]⟩
    simp [mallocInit, hzero]
  · refine ⟨[⟨heapTop l, true⟩], ⟨⟨?_, by show 0 < heapTop l; omega, trivial⟩, ?_, ?_⟩, ?_⟩
    · rw [mallocInit, Function.update_of_ne (by omega), Function.update_self]
      rfl
    · simp [mallocInit]
    · simp only [total_cons, total_nil]
      omega
    · simp [used]

/-- The number of words that `malloc` looks for. -/
def wordsFor (size : Word) : Nat := (((size + 3#32) >>> 2) + 1#32).toNat

theorem wordsFor_eq {size : Word} (h : size.toNat ≤ 2 ^ 32 - 4) :
    wordsFor size = (size.toNat + 3) / 4 + 1 := by
  have hadd : (size + 3#32).toNat = size.toNat + 3 := by
    rw [BitVec.toNat_add]
    exact Nat.mod_eq_of_lt (by simp; omega)
  rw [wordsFor, BitVec.toNat_add, BitVec.toNat_ushiftRight, hadd, Nat.shiftRight_eq_div_pow]
  exact Nat.mod_eq_of_lt (by simp; omega)

/-- Rounding up the largest sizes wraps around. -/
theorem wordsFor_wrap {size : Word} (h : 2 ^ 32 - 4 < size.toNat) : wordsFor size = 1 := by
  have hlt := size.isLt
  have hadd : (size + 3#32).toNat = size.toNat + 3 - 2 ^ 32 := by
    rw [BitVec.toNat_add]
    simp
    omega
  rw [wordsFor, BitVec.toNat_add, BitVec.toNat_ushiftRight, hadd, Nat.shiftRight_eq_div_pow,
    Nat.div_eq_of_lt (by omega)]
  rfl

theorem wordsFor_pos (size : Word) : 0 < wordsFor size := by
  rcases Nat.lt_or_ge (2 ^ 32 - 4) size.toNat with h | h
  · rw [wordsFor_wrap h]
    exact Nat.one_pos
  · rw [wordsFor_eq h]
    exact Nat.succ_pos _

/-- The heap that a call searches, set up before if it was not. -/
def searched (l : Layout) (a : Alloc) : Mem := if a.started then a.mem else mallocInit l a.mem

/-- There is a free chunk of so many words. -/
def HasRoom (mem : Mem) (words : Nat) : Prop :=
  ∃ cs, Tiles mem cs ∧ ∃ b, Fits cs 0 words b

/-- What `malloc` does on a tiled heap. -/
theorem malloc_cases {a : Alloc} (h : Tiles (searched l a) cs) (hfuel : 2 ^ 31 ≤ fuel)
    {size : Word} (hsize : size ≠ 0#32) :
    (malloc l fuel a size = .ok ({ started := true, mem := searched l a }, none) ∧
        ∀ b, ¬Fits cs 0 (wordsFor size) b) ∨
      ∃ i len, malloc l fuel a size =
          .ok ({ started := true, mem := carve (searched l a) i len (wordsFor size) },
            some (i + 1)) ∧
        Fits cs 0 (wordsFor size) (i, len) ∧
        ∀ b, Fits cs 0 (wordsFor size) b → len ≤ b.2 := by
  have hb := h.bound
  have hlength := length_le_total h.headers
  obtain ⟨r, hscan, hfound, hleast⟩ := scan_spec (wordsFor size) (n := fuel) h.headers
    (by simpa using h.terminator) hb (by omega) none (by simp)
  have hmalloc : malloc l fuel a size =
      (match r with
      | none => .ok ({ started := true, mem := searched l a }, none)
      | some (i, len) =>
          .ok ({ started := true, mem := carve (searched l a) i len (wordsFor size) },
            some (i + 1))) := by
    rw [malloc, if_neg hsize]
    rw [wordsFor, searched] at hscan
    simp only [hscan]
    rcases r with _ | ⟨i, len⟩ <;> rfl
  rcases r with _ | ⟨i, len⟩
  · refine .inl ⟨hmalloc, fun b hb => ?_⟩
    obtain ⟨b', hb', -⟩ := hleast b (.inr hb)
    simp at hb'
  · refine .inr ⟨i, len, hmalloc, ?_, fun b hb => ?_⟩
    · simpa using hfound (i, len) rfl
    · obtain ⟨b', hb', hle⟩ := hleast b (.inr hb)
      obtain rfl : (i, len) = b' := by simpa using hb'
      exact hle

/-- The searched heap holds the blocks of the program. -/
theorem Inv.searched {s : State} (h : Inv s) :
    ∃ cs, Owns (searched l s.toAlloc) s.live cs ∧
      ∀ q ∈ s.live, Keeps s.mem (Heap.searched l s.toAlloc) q := by
  rw [Heap.searched]
  cases hs : s.started
  · obtain ⟨cs, hcs⟩ := mallocInit_spec (l := l) s.mem
    have hempty := h.idle hs
    exact ⟨cs, by simpa [hempty] using hcs, by simp [hempty]⟩
  · obtain ⟨cs, hcs⟩ := h.owns hs
    exact ⟨cs, by simpa using hcs, fun q _ => ⟨rfl, fun _ _ => rfl⟩⟩

/-- A request whose size can be rounded up, or that finds nothing free. -/
def Servable (l : Layout) (a : Alloc) (size : Word) : Prop :=
  size.toNat ≤ 2 ^ 32 - 4 ∨ ¬HasRoom (searched l a) 1

/-- `malloc` returns, keeps all blocks and may add one that is large enough. -/
theorem malloc_spec {s : State} (h : Inv s) (hfuel : 2 ^ 31 ≤ fuel) {size : Word}
    (hsize : Servable l s.toAlloc size) :
    ∃ a ptr, malloc l fuel s.toAlloc size = .ok (a, ptr) ∧
      Inv { a with live := s.live ∪ ptr.toFinset } ∧
      (∀ q ∈ s.live, Keeps s.mem a.mem q) ∧
      ∀ p ∈ ptr, p ∉ s.live ∧ 0 < p ∧ 0 < size.toNat ∧
        size.toNat ≤ 4 * (getLen (a.mem (p - 1)) - 1) := by
  by_cases hzero : size = 0#32
  · refine ⟨s.toAlloc, none, by rw [malloc, if_pos hzero], ?_, ?_, by simp⟩
    · simpa using h
    · exact fun q _ => ⟨rfl, fun _ _ => rfl⟩
  · have hpos : 0 < size.toNat := by
      apply Nat.pos_of_ne_zero
      intro h0
      exact hzero (BitVec.eq_of_toNat_eq h0)
    obtain ⟨cs, ⟨htiles, hlive⟩, hkeep⟩ := h.searched (l := l)
    rcases malloc_cases htiles hfuel hzero with ⟨hmalloc, -⟩ | ⟨i, len, hmalloc, hfit, -⟩
    · exact ⟨_, _, hmalloc, ⟨fun _ => ⟨cs, htiles, by simpa using hlive⟩, by simp⟩, hkeep, by simp⟩
    · have hwords : wordsFor size = (size.toNat + 3) / 4 + 1 := by
        rcases hsize with hsmall | hnone
        · exact wordsFor_eq hsmall
        · obtain ⟨pre, c, post, hcs, hfree, hlen, hpair⟩ := hfit
          have hpos := wordsFor_pos size
          exact absurd ⟨cs, htiles, _, pre, c, post, hcs, hfree, by omega, rfl⟩ hnone
      obtain ⟨cs', htiles', hused, hfresh, hlen, hkeeps⟩ :=
        carve_spec htiles (wordsFor_pos size) hfit
      refine ⟨_, _, hmalloc, ⟨fun _ => ⟨cs', htiles', fun q => ?_⟩, by simp⟩, fun q hq => ?_, ?_⟩
      · rw [hused, ← hlive, or_comm]
        simp
      · exact (hkeep q hq).trans (hkeeps q ((hlive q).mp hq))
      · intro p hp
        obtain rfl : i + 1 = p := by simpa using hp
        rw [hlive, Nat.add_sub_cancel, hlen, hwords]
        exact ⟨hfresh, by omega, hpos, by omega⟩

theorem payload_congr {mem mem' : Mem} {p : Nat} (h : mem' (p - 1) = mem (p - 1)) :
    payload mem' p = payload mem p := by
  rw [payload, payload, h]

theorem header_not_mem_payload {mem : Mem} {p : Nat} (hp : 0 < p) : p - 1 ∉ payload mem p := by
  rw [payload, Finset.mem_Ico]
  omega

theorem payload_nonempty {mem : Mem} {p n : Nat} (hp : 0 < p) (hn : 0 < n)
    (h : n ≤ 4 * (getLen (mem (p - 1)) - 1)) : (payload mem p).Nonempty :=
  ⟨p, by rw [payload, Finset.mem_Ico]; omega⟩

/-- Writing at most the words behind the header of a block stays inside it. -/
theorem outside_of_not_mem_payload {mem : Mem} {p j : Nat} (hp : 0 < p) (hj : j ∉ payload mem p) :
    j < p ∨ p + (getLen (mem (p - 1)) - 1) ≤ j := by
  rw [payload, Finset.mem_Ico] at hj
  omega

theorem calloc_spec {s : State} (h : Inv s) (hfuel : 2 ^ 31 ≤ fuel) {number size : Word}
    (hsize : Servable l s.toAlloc (number * size)) :
    ∃ a ptr, calloc l fuel s.toAlloc number size = .ok (a, ptr) ∧
      Inv { a with live := s.live ∪ ptr.toFinset } ∧ (∀ q ∈ s.live, Keeps s.mem a.mem q) ∧
      ∀ p ∈ ptr, (payload a.mem p).Nonempty := by
  obtain ⟨a, ptr, hmalloc, hinv, hkeeps, hptr⟩ := malloc_spec (l := l) h hfuel hsize
  rcases ptr with _ | p
  · exact ⟨a, none, by rw [calloc, hmalloc]; rfl, hinv, hkeeps, by simp⟩
  · obtain ⟨hfresh, hpos, hn, hfit⟩ := hptr p rfl
    have hagree (j : Nat) (hj : j ∉ payload a.mem p) :
        bzero a.mem p (number * size).toNat j = a.mem j :=
      bzero_of_outside a.mem hfit (outside_of_not_mem_payload hpos hj)
    have hwrite := hinv.write (p := p) (by simp) hagree
    refine ⟨_, some p, by rw [calloc, hmalloc]; rfl, hwrite.1, fun q hq => ?_, ?_⟩
    · exact (hkeeps q hq).trans
        (hwrite.2 q (by simp [hq]) (fun heq => hfresh (heq ▸ hq)))
    · intro q hq
      obtain rfl : p = q := by simpa using hq
      rw [payload_congr (hagree _ (header_not_mem_payload hpos))]
      exact payload_nonempty hpos hn hfit

/-- `free` of a block of the program. -/
theorem Inv.free {s : State} (h : Inv s) (hfuel : 2 ^ 31 ≤ fuel) {ptr : Option Nat}
    (hptr : ∀ p ∈ ptr, p ∈ s.live) :
    ∃ mem', free fuel s.mem ptr = .ok mem' ∧
      Inv { s with mem := mem', live := s.live \ ptr.toFinset } ∧
      ∀ q ∈ s.live, some q ≠ ptr → Keeps s.mem mem' q := by
  rcases ptr with _ | p
  · exact ⟨s.mem, rfl, by simpa using h, fun q _ _ => ⟨rfl, fun _ _ => rfl⟩⟩
  · have hp := hptr p rfl
    obtain ⟨cs, htiles, hlive⟩ := h.owns (h.started hp)
    have hb := htiles.bound
    obtain ⟨mem', cs', hfree, htiles', hused, hkeeps⟩ :=
      free_spec htiles (show total cs < fuel by omega) ((hlive p).mp hp)
    refine ⟨mem', hfree, ⟨fun _ => ⟨cs', htiles', fun q => ?_⟩, fun hs => ?_⟩, fun q hq hne => ?_⟩
    · rw [hused, ← hlive]
      simp
    · rw [h.started hp] at hs
      exact Bool.noConfusion hs
    · exact hkeeps q ((hlive q).mp hq) (fun heq => hne (by rw [heq]))

/-- Copying the old block writes into the new one only. -/
theorem copyBlock_of_outside {mem : Mem} {size : Word} {old : Option Nat} {p j : Nat} (hp : 0 < p)
    (hfit : size.toNat ≤ 4 * (getLen (mem (p - 1)) - 1)) (hj : j ∉ payload mem p) :
    copyBlock mem size old (some p) j = mem j := by
  rcases old with _ | o
  · rfl
  · refine memcpy_of_outside mem o ?_ (outside_of_not_mem_payload hp hj)
    split_ifs <;> omega

theorem realloc_eq {a a' : Alloc} {old ptr : Option Nat} {size : Word} {mem' : Mem}
    (hmalloc : malloc l fuel a size = .ok (a', ptr))
    (hfree : free fuel (copyBlock a'.mem size old ptr) old = .ok mem') :
    realloc l fuel a old size = .ok ({ a' with mem := mem' }, ptr) := by
  rw [realloc, hmalloc]
  show (do
    let mem' ← free fuel (copyBlock a'.mem size old ptr) old
    return (({ started := a'.started, mem := mem' } : Alloc), ptr)) = _
  rw [hfree]
  rfl

theorem realloc_spec {s : State} (h : Inv s) (hfuel : 2 ^ 31 ≤ fuel) {old : Option Nat}
    (hold : ∀ p ∈ old, p ∈ s.live) {size : Word} (hsize : Servable l s.toAlloc size) :
    ∃ a ptr, realloc l fuel s.toAlloc old size = .ok (a, ptr) ∧
      Inv { a with live := (s.live \ old.toFinset) ∪ ptr.toFinset } ∧
      (∀ q ∈ s.live, some q ≠ old → Keeps s.mem a.mem q) ∧
      (∀ p ∈ ptr, (payload a.mem p).Nonempty) ∧
      ∃ a₁, malloc l fuel s.toAlloc size = .ok (a₁, ptr) ∧
        ∀ p ∈ ptr, Keeps (copyBlock a₁.mem size old ptr) a.mem p := by
  obtain ⟨a, ptr, hmalloc, hinv, hkeeps, hptr⟩ := malloc_spec (l := l) h hfuel hsize
  have hold' : ∀ p ∈ old, p ∈ s.live ∪ ptr.toFinset := fun p hp => by simp [hold p hp]
  have hlive : (s.live ∪ ptr.toFinset) \ old.toFinset =
      (s.live \ old.toFinset) ∪ ptr.toFinset := by
    rw [Finset.union_sdiff_distrib]
    congr 1
    apply Finset.sdiff_eq_self_of_disjoint
    rw [Finset.disjoint_left]
    intro q hq hq'
    exact (hptr q (by simpa using hq)).1 (hold q (by simpa using hq'))
  have hcopy : Inv ⟨⟨a.started, copyBlock a.mem size old ptr⟩, s.live ∪ ptr.toFinset⟩ ∧
      (∀ q ∈ s.live, Keeps a.mem (copyBlock a.mem size old ptr) q) ∧
      ∀ p ∈ ptr, payload (copyBlock a.mem size old ptr) p = payload a.mem p := by
    rcases ptr with _ | p
    · rcases old with _ | o
      · exact ⟨hinv, fun q _ => ⟨rfl, fun _ _ => rfl⟩, by simp⟩
      · exact ⟨hinv, fun q _ => ⟨rfl, fun _ _ => rfl⟩, by simp⟩
    · obtain ⟨hfresh, hpos, -, hfit⟩ := hptr p rfl
      have hagree := fun j (hj : j ∉ payload a.mem p) =>
        @copyBlock_of_outside a.mem size old p j hpos hfit hj
      have hwrite := hinv.write (p := p) (by simp) hagree
      refine ⟨hwrite.1, fun q hq => hwrite.2 q (by simp [hq]) (fun heq => hfresh (heq ▸ hq)), ?_⟩
      intro q hq
      obtain rfl : p = q := by simpa using hq
      exact payload_congr (hagree _ (header_not_mem_payload hpos))
  obtain ⟨hinv₁, hkeeps₁, hnew⟩ := hcopy
  obtain ⟨mem', hfree, hinv₂, hkeeps₂⟩ := hinv₁.free hfuel hold'
  have hne (p : Nat) (hp : p ∈ ptr) : some p ≠ old := fun heq => (hptr p hp).1 (hold p heq.symm)
  refine ⟨{ a with mem := mem' }, ptr, realloc_eq hmalloc hfree, ?_, fun q hq hne => ?_,
    fun p hp => ?_, a, hmalloc, fun p hp => hkeeps₂ p (by simp [hp]) (hne p hp)⟩
  · rw [← hlive]
    exact hinv₂
  · exact ((hkeeps q hq).trans (hkeeps₁ q hq)).trans (hkeeps₂ q (by simp [hq]) hne)
  · obtain ⟨-, hpos, hn, hfit⟩ := hptr p hp
    rw [(hkeeps₂ p (by simp [hp]) (hne p hp)).1, hnew p hp]
    exact payload_nonempty hpos hn hfit

/-- A program keeps every block that it does not give to the call. -/
def Preserves (s : State) (op : Op) (s' : State) : Prop :=
  ∀ q ∈ s.live, some q ≠ op.given → q ∈ s'.live ∧ Keeps s.mem s'.mem q

/-- What a program may do, with every request that the heap can serve or that finds nothing
free. -/
structure Careful (l : Layout) (s : State) (op : Op) : Prop where
  given : ∀ ptr ∈ op.given, ptr ∈ s.live
  request : Servable l s.toAlloc op.request
  inside : ∀ ptr i v, op = .store ptr i v → i ∈ payload s.mem ptr

theorem Valid.careful {s : State} {op : Op} (h : Valid s op) : Careful l s op :=
  ⟨h.given, .inl (Nat.le_of_lt h.request), h.inside⟩

/-- Every block has a word. -/
def Filled (s : State) : Prop := ∀ p ∈ s.live, (payload s.mem p).Nonempty

/-- The blocks that stay keep their words, and the ones that are new have some. -/
theorem Filled.next {s s' : State} (h : Filled s)
    (hnext : ∀ q ∈ s'.live, (q ∈ s.live ∧ payload s'.mem q = payload s.mem q) ∨
      (payload s'.mem q).Nonempty) : Filled s' := by
  intro q hq
  rcases hnext q hq with ⟨hold, hsame⟩ | hnew
  · rw [hsame]
    exact h q hold
  · exact hnew

/-- Every operation of a program returns and keeps the invariant. -/
theorem inv_step {s : State} (h : Inv s) (hfuel : 2 ^ 31 ≤ fuel) {op : Op}
    (hvalid : Careful l s op) :
    ∃ s', step l fuel s op = .ok s' ∧ Inv s' ∧ Preserves s op s' ∧ (Filled s → Filled s') := by
  cases op with
  | malloc size =>
      have hrequest : Servable l s.toAlloc size := hvalid.request
      obtain ⟨a, ptr, hcall, hinv, hkeeps, hptr⟩ := malloc_spec h hfuel hrequest
      refine ⟨_, by rw [step, hcall]; rfl, hinv, fun q hq _ => ⟨by simp [hq], hkeeps q hq⟩,
        fun hfilled => hfilled.next fun q hq => ?_⟩
      rcases Finset.mem_union.mp hq with hq | hq
      · exact .inl ⟨hq, (hkeeps q hq).1⟩
      · obtain ⟨-, hpos, hn, hfit⟩ := hptr q (Option.mem_toFinset.mp hq)
        exact .inr (payload_nonempty hpos hn hfit)
  | calloc number size =>
      have hrequest : Servable l s.toAlloc (number * size) := hvalid.request
      obtain ⟨a, ptr, hcall, hinv, hkeeps, hptr⟩ := calloc_spec h hfuel hrequest
      refine ⟨_, by rw [step, hcall]; rfl, hinv, fun q hq _ => ⟨by simp [hq], hkeeps q hq⟩,
        fun hfilled => hfilled.next fun q hq => ?_⟩
      rcases Finset.mem_union.mp hq with hq | hq
      · exact .inl ⟨hq, (hkeeps q hq).1⟩
      · exact .inr (hptr q (Option.mem_toFinset.mp hq))
  | realloc old size =>
      have hrequest : Servable l s.toAlloc size := hvalid.request
      have hgiven : ∀ p ∈ old, p ∈ s.live := hvalid.given
      obtain ⟨a, ptr, hcall, hinv, hkeeps, hptr, -⟩ := realloc_spec h hfuel hgiven hrequest
      refine ⟨_, by rw [step, hcall]; rfl, hinv, fun q hq hne => ⟨?_, hkeeps q hq hne⟩,
        fun hfilled => hfilled.next fun q hq => ?_⟩
      · have hq' : q ∉ old.toFinset := by
          rw [Option.mem_toFinset]
          exact fun hmem => hne hmem.symm
        simp only [Finset.mem_union, Finset.mem_sdiff]
        exact .inl ⟨hq, hq'⟩
      · rcases Finset.mem_union.mp hq with hq | hq
        · obtain ⟨hq, hne⟩ := Finset.mem_sdiff.mp hq
          rw [Option.mem_toFinset] at hne
          exact .inl ⟨hq, (hkeeps q hq (fun heq => hne heq.symm)).1⟩
        · exact .inr (hptr q (Option.mem_toFinset.mp hq))
  | free ptr =>
      have hgiven : ∀ p ∈ ptr, p ∈ s.live := hvalid.given
      obtain ⟨mem', hcall, hinv, hkeeps⟩ := h.free hfuel hgiven
      refine ⟨_, by rw [step, hcall]; rfl, hinv, fun q hq hne => ⟨?_, hkeeps q hq hne⟩,
        fun hfilled => hfilled.next fun q hq => ?_⟩
      · have hq' : q ∉ ptr.toFinset := by
          rw [Option.mem_toFinset]
          exact fun hmem => hne hmem.symm
        exact Finset.mem_sdiff.mpr ⟨hq, hq'⟩
      · obtain ⟨hq, hne⟩ := Finset.mem_sdiff.mp hq
        rw [Option.mem_toFinset] at hne
        exact .inl ⟨hq, (hkeeps q hq (fun heq => hne heq.symm)).1⟩
  | store ptr i v =>
      have hi := hvalid.inside ptr i v rfl
      have hp := hvalid.given ptr rfl
      have hagree (j : Nat) (hj : j ∉ payload s.mem ptr) :
          Function.update s.mem i v j = s.mem j := by
        apply Function.update_of_ne
        rintro rfl
        exact hj hi
      have hwrite := h.write hp hagree
      refine ⟨_, rfl, hwrite.1, fun q hq hne => ⟨hq, hwrite.2 q hq ?_⟩,
        fun hfilled => hfilled.next fun q hq => .inl ⟨hq, ?_⟩⟩
      · rintro rfl
        exact hne rfl
      · by_cases hqp : q = ptr
        · subst hqp
          exact payload_congr (hagree _ (header_not_mem_payload (h.pos hp)))
        · exact (hwrite.2 q hq hqp).1

theorem inv_of_reachable {s : State} (hfuel : 2 ^ 31 ≤ fuel) (h : Reachable l fuel s) :
    Inv s := by
  induction h with
  | initial mem =>
      exact ⟨fun hs => Bool.noConfusion hs, fun _ => rfl⟩
  | step h hvalid hs ih =>
      obtain ⟨s', hs', hinv, -⟩ := inv_step (l := l) ih hfuel hvalid.careful
      rw [hs] at hs'
      rwa [Except.ok.inj hs']

/-- The words that hold the headers and the terminator. -/
def heads : Nat → List Chunk → List Nat
  | i, [] => [i]
  | i, c :: cs => i :: heads (i + c.len) cs

theorem mem_heads {i j : Nat} (hj : j ∈ heads i cs) : ∃ pre post, cs = pre ++ post ∧
    j = i + total pre := by
  induction cs generalizing i with
  | nil =>
      exact ⟨[], [], rfl, by simpa [heads] using hj⟩
  | cons c cs ih =>
      rcases List.mem_cons.mp hj with rfl | hj
      · exact ⟨[], c :: cs, rfl, by simp⟩
      · obtain ⟨pre, post, rfl, rfl⟩ := ih hj
        exact ⟨c :: pre, post, rfl, by simp [Nat.add_assoc]⟩

/-- Two splits of the heap: the same place, or one lies before the other chunk. -/
theorem append_eq_append_cons {pre pre' post' : List Chunk} {c : Chunk} {post : List Chunk}
    (h : pre ++ post = pre' ++ c :: post') :
    total pre ≤ total pre' ∨ total pre' + c.len ≤ total pre := by
  rcases List.append_eq_append_iff.mp h with ⟨as, rfl, -⟩ | ⟨as, rfl, has⟩
  · left
    simp
  · rcases as with _ | ⟨d, as⟩
    · left
      simp
    · obtain ⟨rfl, -⟩ := List.cons.inj has
      right
      simp

/-- A block contains no header. -/
theorem not_mem_payload_of_mem_heads (h : Tiles mem cs) {p j : Nat} (hp : p ∈ used 0 cs)
    (hj : j ∈ heads 0 cs) : j ∉ payload mem p := by
  obtain ⟨pre', c, post', hcs, -, rfl⟩ := exists_of_mem_used hp
  obtain ⟨pre, post, hcs', rfl⟩ := mem_heads hj
  have hb := h.bound
  have hhead : mem (total pre') = c.header := by
    have hheaders := h.headers
    rw [hcs] at hheaders
    simpa using (headers_append.mp hheaders).2.1
  rw [hcs] at hb
  simp only [total_append, total_cons] at hb
  rw [payload, Finset.mem_Ico, Nat.zero_add, Nat.zero_add, Nat.add_sub_cancel, hhead,
    c.getLen_header (by omega)]
  rcases append_eq_append_cons (hcs'.symm.trans hcs) with hle | hle <;> omega

/-- Two blocks have no word in common. -/
theorem disjoint_payload (h : Tiles mem cs) {p q : Nat} (hp : p ∈ used 0 cs) (hq : q ∈ used 0 cs)
    (hne : p ≠ q) : Disjoint (payload mem p) (payload mem q) := by
  obtain ⟨pre, c, post, hcs, -, rfl⟩ := exists_of_mem_used hp
  obtain ⟨pre', c', post', hcs', -, rfl⟩ := exists_of_mem_used hq
  have hb := h.bound
  have hhead : mem (total pre) = c.header := by
    have hheaders := h.headers
    rw [hcs] at hheaders
    simpa using (headers_append.mp hheaders).2.1
  have hhead' : mem (total pre') = c'.header := by
    have hheaders := h.headers
    rw [hcs'] at hheaders
    simpa using (headers_append.mp hheaders).2.1
  have hlen : c.len < 2 ^ 31 := by
    rw [hcs] at hb
    simp only [total_append, total_cons] at hb
    omega
  have hlen' : c'.len < 2 ^ 31 := by
    rw [hcs'] at hb
    simp only [total_append, total_cons] at hb
    omega
  rw [Finset.disjoint_left]
  intro j hj hj'
  rw [payload, Finset.mem_Ico, Nat.zero_add, Nat.add_sub_cancel, hhead, c.getLen_header hlen]
    at hj
  rw [payload, Finset.mem_Ico, Nat.zero_add, Nat.add_sub_cancel, hhead', c'.getLen_header hlen']
    at hj'
  rcases append_eq_append_cons (hcs.symm.trans hcs') with hle | hle <;>
    rcases append_eq_append_cons (hcs'.symm.trans hcs) with hle' | hle' <;> omega

/-- What holds of the heap between the calls of a program. -/
structure Intact (s : State) : Prop where
  tiled : s.started = true → ∃ cs, Tiles s.mem cs ∧ (∀ p, p ∈ s.live ↔ p ∈ used 0 cs) ∧
    ∀ p ∈ s.live, ∀ j ∈ heads 0 cs, j ∉ payload s.mem p
  idle : s.started = false → s.live = ∅
  disjoint : ∀ p ∈ s.live, ∀ q ∈ s.live, p ≠ q → Disjoint (payload s.mem p) (payload s.mem q)

theorem Inv.intact {s : State} (h : Inv s) : Intact s := by
  refine ⟨fun hs => ?_, h.idle, fun p hp q hq hne => ?_⟩
  · obtain ⟨cs, htiles, hlive⟩ := h.owns hs
    exact ⟨cs, htiles, hlive, fun p hp j hj =>
      not_mem_payload_of_mem_heads htiles ((hlive p).mp hp) hj⟩
  · obtain ⟨cs, htiles, hlive⟩ := h.owns (h.started hp)
    exact disjoint_payload htiles ((hlive p).mp hp) ((hlive q).mp hq) hne

/--
In every state of every program the heap is tiled and the blocks are disjoint,
and every operation returns and keeps all blocks but the one it is given.
-/
theorem heap_intact {s : State} (hfuel : 2 ^ 31 ≤ fuel) (h : Reachable l fuel s) :
    Intact s ∧ ∀ op, Valid s op → ∃ s', step l fuel s op = .ok s' ∧ Preserves s op s' := by
  have hinv := inv_of_reachable hfuel h
  refine ⟨hinv.intact, fun op hvalid => ?_⟩
  obtain ⟨s', hs, -, hpreserves, -⟩ := inv_step (l := l) hinv hfuel hvalid.careful
  exact ⟨s', hs, hpreserves⟩

/-- The first block of a heap of 1023 words. -/
theorem heap_intact_malloc :
    ∃ s : State, s.live = {1} ∧ Intact s := by
  have hreach : Reachable ⟨0#30, 2048#32⟩ (2 ^ 31)
      ⟨⟨true, carve (mallocInit ⟨0#30, 2048#32⟩ (fun _ => 0#32)) 0 1023 2⟩, {1}⟩ := by
    have hvalid : Valid ⟨⟨false, fun _ => 0#32⟩, ∅⟩ (.malloc 4#32) :=
      ⟨by simp [Op.given], by decide, by simp⟩
    exact .step (.initial (fun _ => 0#32)) hvalid rfl
  exact ⟨_, rfl, (heap_intact (Nat.le_refl _) hreach).1⟩

end Invariant

end Heap
end F32c
