import F32c.Heap.Invariant

/-!
# Sizes and contents of blocks

`malloc` rounds a size up to words without a check, so a size of the last three
values of a `size_t` becomes a block without a payload, and `calloc` multiplies
without a check.  `realloc` gives the old block back also when there is no new
one.  The heap stays tiled as long as `malloc` is not asked for such a size
while something is free.
-/

namespace F32c
namespace Heap

variable {l : Layout}
variable {fuel : Nat}
variable {mem : Mem}
variable {cs : List Chunk}

section Bytes

theorem getLsbD_setByte {w : Word} {k i : Nat} {b : Byte} (hi : i < 32) :
    (setByte w k b).getLsbD i =
      if 8 * k ≤ i ∧ i < 8 * k + 8 then b.getLsbD (i - 8 * k) else w.getLsbD i := by
  have hmask : ∀ j, (0xff#32).getLsbD j = decide (j < 8) := by
    intro j
    rcases Nat.lt_or_ge j 32 with hj | hj
    · interval_cases j <;> rfl
    · rw [BitVec.getLsbD_of_ge _ _ hj]
      simp
      omega
  simp only [setByte, BitVec.getLsbD_or, BitVec.getLsbD_and, BitVec.getLsbD_not,
    BitVec.getLsbD_shiftLeft, BitVec.getLsbD_setWidth, hmask, hi]
  by_cases hlow : i < 8 * k
  · simp [hlow, show ¬8 * k ≤ i by omega]
  · by_cases hhigh : i < 8 * k + 8
    · simp [hlow, hhigh, show 8 * k ≤ i by omega, show i - 8 * k < 8 by omega,
        show i - 8 * k < 32 by omega]
    · simp [hlow, hhigh, show ¬i - 8 * k < 8 by omega, BitVec.getLsbD_of_ge b (i - 8 * k) (by omega)]

theorem readByte_writeByte (mem : Mem) (a : Nat) (b : Byte) : readByte (writeByte mem a b) a = b := by
  have hlt : a % 4 < 4 := Nat.mod_lt _ (by omega)
  apply BitVec.eq_of_getLsbD_eq
  intro i hi
  rw [readByte, writeByte, Function.update_self, BitVec.getLsbD_setWidth, BitVec.getLsbD_ushiftRight,
    getLsbD_setByte (by omega), if_pos (by omega)]
  simp [hi]

theorem readByte_writeByte_of_ne (mem : Mem) {a a' : Nat} (b : Byte) (h : a' ≠ a) :
    readByte (writeByte mem a b) a' = readByte mem a' := by
  rw [readByte, writeByte]
  by_cases hword : a' / 4 = a / 4
  · rw [hword, Function.update_self, readByte, hword]
    apply BitVec.eq_of_getLsbD_eq
    intro i hi
    rw [BitVec.getLsbD_setWidth, BitVec.getLsbD_setWidth, BitVec.getLsbD_ushiftRight,
      BitVec.getLsbD_ushiftRight, getLsbD_setByte (by omega), if_neg (by omega)]
  · rw [Function.update_of_ne hword, readByte]

theorem readByte_congr {mem mem' : Mem} {a : Nat} (h : mem' (a / 4) = mem (a / 4)) :
    readByte mem' a = readByte mem a := by
  rw [readByte, readByte, h]

/-- The header of the block that is cleared. -/
theorem bzero_header (mem : Mem) (i n : Nat) : bzero mem (i + 1) n i = mem i :=
  @bzero_of_outside mem (i + 1) n n i (by omega) (.inl (by omega))

theorem readByte_bzero (mem : Mem) (dst : Nat) {n b : Nat} (hb : b < n) :
    readByte (bzero mem dst n) (4 * dst + b) = 0#8 := by
  induction n with
  | zero =>
      omega
  | succ n ih =>
      rw [bzero]
      rcases Nat.lt_or_eq_of_le (Nat.le_of_lt_succ hb) with hlt | rfl
      · rw [readByte_writeByte_of_ne _ _ (by omega), ih hlt]
      · exact readByte_writeByte ..

/-- Copying does not change a byte that it does not write. -/
theorem readByte_memcpy_of_ne (mem : Mem) (dst src n : Nat) {a : Nat}
    (h : ∀ b < n, a ≠ 4 * dst + b) : readByte (memcpy mem dst src n) a = readByte mem a := by
  induction n with
  | zero =>
      rfl
  | succ n ih =>
      rw [memcpy, readByte_writeByte_of_ne _ _ (h n (by omega)), ih (fun b hb => h b (by omega))]

theorem readByte_memcpy (mem : Mem) {dst src n b : Nat} (hb : b < n)
    (h : ∀ b < n, ∀ c < n, 4 * src + b ≠ 4 * dst + c) :
    readByte (memcpy mem dst src n) (4 * dst + b) = readByte mem (4 * src + b) := by
  induction n with
  | zero =>
      omega
  | succ n ih =>
      rw [memcpy]
      rcases Nat.lt_or_eq_of_le (Nat.le_of_lt_succ hb) with hlt | rfl
      · rw [readByte_writeByte_of_ne _ _ (by omega)]
        exact ih hlt fun b hb c hc => h b (by omega) c (by omega)
      · rw [readByte_writeByte]
        exact readByte_memcpy_of_ne _ _ _ _ fun c hc => h b (by omega) c (by omega)

end Bytes

section Runs

/-- The states of a program that starts with any memory and no blocks, and never asks for a
size that cannot be rounded up while something is free. -/
inductive Run (l : Layout) (fuel : Nat) : State → Prop
  | initial (mem : Mem) : Run l fuel { started := false, mem := mem, live := ∅ }
  | step {s s' : State} {op : Op} (h : Run l fuel s) (careful : Careful l s op)
      (hs : Heap.step l fuel s op = .ok s') : Run l fuel s'

theorem Run.inv {s : State} (hfuel : 2 ^ 31 ≤ fuel) (h : Run l fuel s) : Inv s ∧ Filled s := by
  induction h with
  | initial mem =>
      exact ⟨⟨fun hs => Bool.noConfusion hs, fun _ => rfl⟩, by simp [Filled]⟩
  | step h hcareful hs ih =>
      obtain ⟨s', hs', hinv, -, hfilled⟩ := inv_step (l := l) ih.1 hfuel hcareful
      rw [hs] at hs'
      rw [Except.ok.inj hs']
      exact ⟨hinv, hfilled ih.2⟩

end Runs

section Sizes

/-- The first `n` bytes at a pointer lie in its block and in no other chunk. -/
def Holds (mem : Mem) (p n : Nat) : Prop :=
  ∃ cs, Tiles mem cs ∧ p ∈ used 0 cs ∧ ∀ b < n, p + b / 4 ∈ payload mem p ∧
    ∀ pre c post, cs = pre ++ c :: post → total pre ≠ p - 1 →
      p + b / 4 < total pre ∨ total pre + c.len ≤ p + b / 4

theorem holds_of_used {p n : Nat} (h : Tiles mem cs) (hp : p ∈ used 0 cs)
    (hn : n ≤ 4 * (getLen (mem (p - 1)) - 1)) : Holds mem p n := by
  refine ⟨cs, h, hp, fun b hb => ?_⟩
  have hpos := (mem_used_bounds h.headers hp).1
  have hin : p + b / 4 ∈ payload mem p := by
    rw [payload, Finset.mem_Ico]
    omega
  refine ⟨hin, fun pre c post hcs hne => ?_⟩
  obtain ⟨pre', c', post', hcs', -, rfl⟩ := exists_of_mem_used hp
  have hb := h.bound
  have hhead : mem (total pre') = c'.header := by
    have hheaders := h.headers
    rw [hcs'] at hheaders
    simpa using (headers_append.mp hheaders).2.1
  have hlen : c'.len < 2 ^ 31 := by
    rw [hcs'] at hb
    simp only [total_append, total_cons] at hb
    omega
  rw [payload, Finset.mem_Ico, Nat.zero_add, Nat.add_sub_cancel, hhead, c'.getLen_header hlen]
    at hin
  rcases append_eq_append_cons (hcs.symm.trans hcs') with hle | hle <;>
    rcases append_eq_append_cons (hcs'.symm.trans hcs) with hle' | hle' <;> omega

theorem Holds.le {p n : Nat} (h : Holds mem p n) : n ≤ 4 * (getLen (mem (p - 1)) - 1) := by
  obtain ⟨cs, htiles, hp, hbytes⟩ := h
  have hpos := (mem_used_bounds htiles.headers hp).1
  rcases Nat.eq_zero_or_pos n with rfl | hn
  · exact Nat.zero_le _
  · have hin := (hbytes (n - 1) (by omega)).1
    rw [payload, Finset.mem_Ico] at hin
    omega

/-- A free chunk with room for `n` bytes and a header. -/
def RoomFor (cs : List Chunk) (n : Nat) (b : Nat × Nat) : Prop :=
  ∃ pre c post, cs = pre ++ c :: post ∧ c.free = true ∧ n + 4 ≤ 4 * c.len ∧ b = (total pre, c.len)

theorem roomFor_iff {n : Word} {b : Nat × Nat} (h : n.toNat ≤ 2 ^ 32 - 4) :
    RoomFor cs n.toNat b ↔ Fits cs 0 (wordsFor n) b := by
  have hwords : ∀ k : Nat, n.toNat + 4 ≤ 4 * k ↔ wordsFor n ≤ k := by
    intro k
    rw [wordsFor_eq h]
    omega
  simp only [RoomFor, Fits, hwords, Nat.zero_add]

/-- What `malloc` is for: a block of the smallest free chunk that has room, or no block where
none has. -/
def MallocMeets (l : Layout) (fuel : Nat) (s : State) (n : Word) : Prop :=
  ∃ a ptr, malloc l fuel s.toAlloc n = .ok (a, ptr) ∧ (∀ p ∈ ptr, Holds a.mem p n.toNat) ∧
    ∃ cs, Tiles (searched l s.toAlloc) cs ∧ (ptr = none → ∀ b, ¬RoomFor cs n.toNat b) ∧
      ∀ p ∈ ptr, ∃ len, RoomFor cs n.toNat (p - 1, len) ∧ ∀ b, RoomFor cs n.toNat b → len ≤ b.2

/-- What `calloc` is for: a block of zeros, of the product of its arguments. -/
def CallocMeets (l : Layout) (fuel : Nat) (s : State) (number size : Word) : Prop :=
  ∃ a ptr, calloc l fuel s.toAlloc number size = .ok (a, ptr) ∧
    ∀ p ∈ ptr, Holds a.mem p (number.toNat * size.toNat) ∧
      ∀ b < number.toNat * size.toNat, readByte a.mem (4 * p + b) = 0#8

/-- A size that is rounded up right, unless nothing is free. -/
theorem wordsFor_of_servable {a : Alloc} {n : Word} (h : Servable l a n)
    (htiles : Tiles (searched l a) cs) {b : Nat × Nat} (hfit : Fits cs 0 (wordsFor n) b) :
    n.toNat ≤ 2 ^ 32 - 4 := by
  rcases h with hsmall | hnone
  · exact hsmall
  · obtain ⟨pre, c, post, hcs, hfree, hlen, hpair⟩ := hfit
    have hpos := wordsFor_pos n
    exact absurd ⟨cs, htiles, _, pre, c, post, hcs, hfree, by omega, rfl⟩ hnone

theorem malloc_meets_iff {s : State} (hfuel : 2 ^ 31 ≤ fuel) (h : Inv s) {n : Word}
    (hn : n ≠ 0#32) : MallocMeets l fuel s n ↔ Servable l s.toAlloc n := by
  constructor
  · rintro ⟨a, ptr, hcall, hholds, -⟩
    by_contra hnot
    rw [Servable, not_or, not_le, not_not] at hnot
    obtain ⟨hlarge, cs, htiles, b, hfit⟩ := hnot
    have hwords := wordsFor_wrap hlarge
    rcases malloc_cases htiles hfuel hn with ⟨-, hnone⟩ | ⟨i, len, hmalloc, hfit', -⟩
    · rw [hwords] at hnone
      exact hnone b hfit
    · rw [hcall] at hmalloc
      obtain ⟨rfl, rfl⟩ := Prod.mk.inj (Except.ok.inj hmalloc)
      obtain ⟨-, -, -, -, hlen, -⟩ := carve_spec htiles (wordsFor_pos n) hfit'
      have hle := (hholds (i + 1) rfl).le
      rw [Nat.add_sub_cancel, hlen, hwords] at hle
      omega
  · intro hservable
    obtain ⟨cs, ⟨htiles, -⟩, -⟩ := h.searched (l := l)
    rcases malloc_cases htiles hfuel hn with ⟨hmalloc, hnone⟩ | ⟨i, len, hmalloc, hfit, hleast⟩
    · refine ⟨_, _, hmalloc, by simp, cs, htiles, fun _ b hb => ?_, by simp⟩
      rcases hservable with hsmall | hfull
      · exact hnone b ((roomFor_iff hsmall).mp hb)
      · obtain ⟨pre, c, post, hcs, hfree, hlen, -⟩ := hb
        exact hfull ⟨cs, htiles, _, pre, c, post, hcs, hfree, by omega, rfl⟩
    · have hsmall := wordsFor_of_servable hservable htiles hfit
      obtain ⟨cs', htiles', hused, -, hlen, -⟩ := carve_spec htiles (wordsFor_pos n) hfit
      refine ⟨_, _, hmalloc, ?_, cs, htiles, by simp, ?_⟩
      · intro p hp
        obtain rfl : i + 1 = p := by simpa using hp
        refine holds_of_used htiles' ((hused _).mpr (.inr rfl)) ?_
        rw [Nat.add_sub_cancel, hlen, wordsFor_eq hsmall]
        omega
      · intro p hp
        obtain rfl : i + 1 = p := by simpa using hp
        rw [Nat.add_sub_cancel]
        exact ⟨len, (roomFor_iff hsmall).mpr hfit,
          fun b hb => hleast b ((roomFor_iff hsmall).mp hb)⟩

theorem wordsFor_le (n : Word) : wordsFor n ≤ 2 ^ 30 := by
  rcases Nat.lt_or_ge (2 ^ 32 - 4) n.toNat with h | h
  · rw [wordsFor_wrap h]
    omega
  · rw [wordsFor_eq h]
    omega

theorem calloc_eq {a a' : Alloc} {number size : Word} {ptr : Option Nat}
    (hmalloc : malloc l fuel a (number * size) = .ok (a', ptr)) :
    calloc l fuel a number size =
      .ok (ptr.elim a' fun p => { a' with mem := bzero a'.mem p (number * size).toNat }, ptr) := by
  rw [calloc, hmalloc]
  rcases ptr with _ | p <;> rfl

/-- The product is not wrapped, or `malloc` finds nothing for what is left of it. -/
def Unwrapped (l : Layout) (a : Alloc) (number size : Word) : Prop :=
  number.toNat * size.toNat ≤ 2 ^ 32 - 4 ∨ number * size = 0#32 ∨
    ¬HasRoom (searched l a) (wordsFor (number * size))

theorem calloc_meets_iff {s : State} (hfuel : 2 ^ 31 ≤ fuel) (h : Inv s) (number size : Word) :
    CallocMeets l fuel s number size ↔ Unwrapped l s.toAlloc number size := by
  constructor
  · rintro ⟨a, ptr, hcall, hholds⟩
    by_contra hnot
    rw [Unwrapped, not_or, not_or, not_le, not_not] at hnot
    obtain ⟨hlarge, hne, cs, htiles, b, hfit⟩ := hnot
    rcases malloc_cases htiles hfuel hne with ⟨-, hnone⟩ | ⟨i, len, hmalloc, hfit', -⟩
    · exact hnone b hfit
    · rw [calloc_eq hmalloc] at hcall
      obtain ⟨rfl, rfl⟩ := Prod.mk.inj (Except.ok.inj hcall)
      obtain ⟨-, -, -, -, hlen, -⟩ := carve_spec htiles (wordsFor_pos (number * size)) hfit'
      have hle := (hholds (i + 1) rfl).1.le
      simp only [Option.elim_some, Nat.add_sub_cancel, bzero_header, hlen] at hle
      have := wordsFor_le (number * size)
      omega
  · intro hunwrapped
    by_cases hne : number * size = 0#32
    · have hmalloc : malloc l fuel s.toAlloc (number * size) = .ok (s.toAlloc, none) := by
        rw [malloc, if_pos hne]
      exact ⟨_, _, calloc_eq hmalloc, by simp⟩
    · obtain ⟨cs, ⟨htiles, -⟩, -⟩ := h.searched (l := l)
      rcases malloc_cases htiles hfuel hne with ⟨hmalloc, -⟩ | ⟨i, len, hmalloc, hfit, -⟩
      · exact ⟨_, _, calloc_eq hmalloc, by simp⟩
      · have hproduct : number.toNat * size.toNat ≤ 2 ^ 32 - 4 := by
          rcases hunwrapped with hsmall | hzero | hnone
          · exact hsmall
          · exact absurd hzero hne
          · exact absurd ⟨cs, htiles, _, hfit⟩ hnone
        have hnat : (number * size).toNat = number.toNat * size.toNat := by
          rw [BitVec.toNat_mul]
          exact Nat.mod_eq_of_lt (by omega)
        have hservable : Servable l s.toAlloc (number * size) := .inl (by rw [hnat]; exact hproduct)
        obtain ⟨a, ptr, hcall, hinv, -, -⟩ := calloc_spec h hfuel hservable
        have hsame := calloc_eq hmalloc
        rw [hcall] at hsame
        obtain ⟨rfl, rfl⟩ := Prod.mk.inj (Except.ok.inj hsame)
        refine ⟨_, _, hcall, fun p hp => ?_⟩
        obtain rfl : i + 1 = p := by simpa using hp
        obtain ⟨-, -, -, -, hlen, -⟩ := carve_spec htiles (wordsFor_pos (number * size)) hfit
        obtain ⟨cs', htiles', hlive⟩ := hinv.owns rfl
        constructor
        · refine holds_of_used htiles' ((hlive _).mp (by simp)) ?_
          simp only [Option.elim_some, Nat.add_sub_cancel, bzero_header, hlen]
          rw [wordsFor_eq (by omega), hnat]
          omega
        · intro b hb
          exact readByte_bzero _ _ (by omega)

end Sizes

section Realloc

/-- The number of bytes of a block. -/
def payloadBytes (mem : Mem) (p : Nat) : Nat := 4 * (getLen (mem (p - 1)) - 1)

/-- What `realloc` is for: the old block moves to a new one, or nothing happens. -/
def ReallocMeets (l : Layout) (fuel : Nat) (s : State) (p : Nat) (n : Word) : Prop :=
  ∃ a ptr, realloc l fuel s.toAlloc (some p) n = .ok (a, ptr) ∧ (ptr = none → a.mem = s.mem) ∧
    ∀ q ∈ ptr, q ∉ s.live ∧
      (∃ cs, Tiles a.mem cs ∧ ∀ r, r ∈ used 0 cs ↔ r ∈ s.live ∧ r ≠ p ∨ r = q) ∧
      Holds a.mem q (min (payloadBytes s.mem p) n.toNat) ∧
      (∀ b < min (payloadBytes s.mem p) n.toNat,
        readByte a.mem (4 * q + b) = readByte s.mem (4 * p + b)) ∧
      ∀ r ∈ s.live, r ≠ p → Keeps s.mem a.mem r

/-- `free` changes the header of its block, to one of a free chunk. -/
theorem free_ok {p : Nat} {mem' : Mem} (h : free fuel mem (some p) = .ok mem') :
    isFree (mem' (p - 1)) = true ∧ ∀ j, j ≠ p - 1 → mem' j = mem j := by
  simp only [free] at h
  split at h
  · simp at h
  · cases hmerge : merge mem (p - 1) fuel (mem (p - 1)).toNat with
    | error e =>
        simp [hmerge, bind, Except.bind] at h
    | ok len =>
        simp only [hmerge, bind, Except.bind, pure, Except.pure, Except.ok.injEq] at h
        subst h
        refine ⟨?_, fun j hj => Function.update_of_ne hj ..⟩
        have htop : (0x80000000#32).msb = true := rfl
        rw [Function.update_self, isFree_eq, setFree, BitVec.msb_or, htop, Bool.or_true]

theorem realloc_ok {a a' b : Alloc} {old ptr ptr' : Option Nat} {size : Word}
    (hmalloc : malloc l fuel a size = .ok (a', ptr))
    (h : realloc l fuel a old size = .ok (b, ptr')) :
    ptr' = ptr ∧ free fuel (copyBlock a'.mem size old ptr) old = .ok b.mem := by
  cases hfree : free fuel (copyBlock a'.mem size old ptr) old with
  | error e =>
      rw [realloc, hmalloc] at h
      simp [bind, Except.bind, hfree] at h
  | ok mem' =>
      rw [realloc_eq hmalloc hfree] at h
      obtain ⟨rfl, rfl⟩ := Prod.mk.inj (Except.ok.inj h)
      exact ⟨rfl, rfl⟩

theorem copyBlock_some (mem : Mem) (n : Word) (p q : Nat) :
    copyBlock mem n (some p) (some q) =
      memcpy mem q p (min (payloadBytes mem p) n.toNat) := by
  simp only [copyBlock, payloadBytes, Nat.mul_comm 4]
  congr 1
  split_ifs with hlt
  · exact (Nat.min_eq_right (Nat.le_of_lt hlt)).symm
  · exact (Nat.min_eq_left (not_lt.mp hlt)).symm

theorem mem_payload_of_lt {p b : Nat} (hp : 0 < p) (hb : b < payloadBytes mem p) :
    p + b / 4 ∈ payload mem p := by
  rw [payloadBytes] at hb
  rw [payload, Finset.mem_Ico]
  omega

theorem Keeps.readByte {mem mem' : Mem} {p b : Nat} (h : Keeps mem mem' p) (hp : 0 < p)
    (hb : b < payloadBytes mem p) : readByte mem' (4 * p + b) = readByte mem (4 * p + b) := by
  apply readByte_congr
  apply h.2
  rw [show (4 * p + b) / 4 = p + b / 4 by omega]
  exact mem_payload_of_lt hp hb

theorem Keeps.payloadBytes {mem mem' : Mem} {p : Nat} (h : Keeps mem mem' p) (hp : 0 < p) :
    payloadBytes mem' p = payloadBytes mem p := by
  have hcard := congrArg Finset.card h.1
  rw [payload, payload, Nat.card_Ico, Nat.card_Ico] at hcard
  rw [Heap.payloadBytes, Heap.payloadBytes]
  omega

theorem realloc_meets_iff {s : State} (hfuel : 2 ^ 31 ≤ fuel) (h : Inv s) (hfilled : Filled s)
    {p : Nat} (hp : p ∈ s.live) {n : Word} (hn : n ≠ 0#32) :
    ReallocMeets l fuel s p n ↔ n.toNat ≤ 2 ^ 32 - 4 ∧ HasRoom s.mem (wordsFor n) := by
  have hsearched : searched l s.toAlloc = s.mem := by
    rw [searched, h.started hp, if_pos rfl]
  obtain ⟨cs, htiles, hlive⟩ := h.owns (h.started hp)
  have htiles' : Tiles (searched l s.toAlloc) cs := by
    rw [hsearched]
    exact htiles
  have hpos := h.pos hp
  constructor
  · rintro ⟨a, ptr, hcall, hnull, hmoved⟩
    rcases malloc_cases htiles' hfuel hn with ⟨hmalloc, -⟩ | ⟨i, len, hmalloc, hfit, -⟩
    · -- the old block has been freed
      obtain ⟨rfl, hfree⟩ := realloc_ok hmalloc hcall
      have hheader := (free_ok hfree).1
      obtain ⟨-, -, -, -, hused⟩ := payload_of_mem_used htiles.headers htiles.bound ((hlive p).mp hp)
      rw [hnull rfl, hused] at hheader
      exact Bool.noConfusion hheader
    · obtain ⟨rfl, hfree⟩ := realloc_ok hmalloc hcall
      refine ⟨?_, cs, htiles, (i, len), hfit⟩
      by_contra hlarge
      -- the new block has no payload
      obtain ⟨-, -, -, hfresh, hlen, -⟩ := carve_spec htiles' (wordsFor_pos n) hfit
      have hne : i ≠ p - 1 := by
        rintro rfl
        apply hfresh
        rw [Nat.sub_add_cancel hpos]
        exact (hlive p).mp hp
      have hle := (hmoved (i + 1) rfl).2.2.1.le
      rw [Nat.add_sub_cancel, (free_ok hfree).2 i hne, copyBlock_some,
        @memcpy_of_outside _ _ _ _ _ i (Nat.le_mul_of_pos_left _ (by omega))
          (.inl (Nat.lt_succ_self i)), hlen, wordsFor_wrap (not_le.mp hlarge)] at hle
      obtain ⟨j, hj⟩ := hfilled p hp
      rw [payload, Finset.mem_Ico] at hj
      rw [payloadBytes] at hle
      omega
  · rintro ⟨hsmall, cs', htiles'', b, hfit⟩
    have hservable : Servable l s.toAlloc n := .inl hsmall
    obtain ⟨a, ptr, hcall, hinv, hkeeps, -, a₁, hmalloc, hnew⟩ :=
      @realloc_spec l fuel s h hfuel (some p) (by simpa using hp) n hservable
    obtain ⟨a₁', ptr', hmalloc', hinv₁, hkeeps₁, hptr⟩ := malloc_spec h hfuel hservable
    rw [hmalloc] at hmalloc'
    obtain ⟨rfl, rfl⟩ := Prod.mk.inj (Except.ok.inj hmalloc')
    refine ⟨a, ptr, hcall, ?_, fun q hq => ?_⟩
    · rintro rfl
      -- there is a block of the size asked for
      rcases malloc_cases (l := l) (hsearched ▸ htiles'') hfuel hn with ⟨-, hnone⟩ | ⟨i, len, hsome, -⟩
      · exact absurd hfit (hnone b)
      · rw [hmalloc] at hsome
        simp at hsome
    · obtain rfl : ptr = some q := hq
      obtain ⟨hfresh, hqpos, -, hroom⟩ := hptr q rfl
      have hold := hkeeps₁ p hp
      have hcopied := hnew q rfl
      rw [copyBlock_some, hold.payloadBytes hpos] at hcopied
      set size := min (payloadBytes s.mem p) n.toNat with hsize
      have hheader : memcpy a₁.mem q p size (q - 1) = a₁.mem (q - 1) :=
        @memcpy_of_outside _ _ _ _ size _ (by omega) (.inl (by omega))
      have hbytes : size ≤ payloadBytes (memcpy a₁.mem q p size) q := by
        rw [payloadBytes, hheader]
        omega
      have hdisjoint := hinv₁.intact.disjoint p (by simp [hp]) q (by simp)
        (fun heq => hfresh (heq ▸ hp))
      have hapart : ∀ b < size, ∀ c < size, 4 * p + b ≠ 4 * q + c := by
        intro b hb c hc heq
        have hleft : p + b / 4 ∈ payload a₁.mem p := mem_payload_of_lt hpos (by
          rw [hold.payloadBytes hpos]
          omega)
        have hright : q + c / 4 ∈ payload a₁.mem q := mem_payload_of_lt hqpos (by
          rw [payloadBytes]
          omega)
        rw [show q + c / 4 = p + b / 4 by omega] at hright
        exact Finset.disjoint_left.mp hdisjoint hleft hright
      obtain ⟨cs₁, htiles₁, hlive₁⟩ := hinv.owns (hinv.started (p := q) (by simp))
      refine ⟨hfresh, ⟨cs₁, htiles₁, fun r => ?_⟩, ?_, fun b hb => ?_, fun r hr hne => ?_⟩
      · rw [← hlive₁, or_comm]
        simp
      · refine holds_of_used htiles₁ ((hlive₁ q).mp (by simp)) ?_
        have hkept := hcopied.payloadBytes hqpos
        rw [← payloadBytes, hkept]
        exact hbytes
      · rw [hcopied.readByte hqpos (by omega), readByte_memcpy _ hb hapart,
          hold.readByte hpos (by omega)]
      · exact hkeeps r hr (fun heq => hne (Option.some.inj heq))

end Realloc

section Results

/-- A heap of 1023 words. -/
def smallLayout : Layout := ⟨0#30, 2048#32⟩

def smallStart : State := { started := false, mem := fun _ => 0#32, live := ∅ }

/-- The small heap with a first block of four bytes. -/
def smallBlock : State :=
  { started := true, mem := carve (mallocInit smallLayout fun _ => 0#32) 0 1023 2, live := {1} }

theorem run_smallStart : Run smallLayout (2 ^ 31) smallStart := Run.initial _

theorem run_smallBlock : Run smallLayout (2 ^ 31) smallBlock :=
  @Run.step _ _ _ _ (.malloc 4#32) run_smallStart ⟨by simp [Op.given], .inl (by decide), by simp⟩ rfl

theorem hasRoom_smallStart {words : Nat} (h : words ≤ 1023) :
    HasRoom (searched smallLayout smallStart.toAlloc) words :=
  ⟨[⟨1023, true⟩], ⟨⟨rfl, by decide, trivial⟩, rfl, by decide⟩, (0, 1023), [], ⟨1023, true⟩, [], rfl,
    rfl, h, rfl⟩

theorem hasRoom_smallBlock {words : Nat} (h : words ≤ 1021) : HasRoom smallBlock.mem words :=
  ⟨[⟨2, false⟩, ⟨1021, true⟩], ⟨⟨rfl, by decide, rfl, by decide, trivial⟩, rfl, by decide⟩, (2, 1021),
    [⟨2, false⟩], ⟨1021, true⟩, [], rfl, rfl, h, rfl⟩

/-- `malloc` gives what is asked for exactly when the size can be rounded up or nothing is free,
and `calloc` when the product does not wrap or what is left of it is not there. -/
theorem allocation_size_iff {s : State} (hfuel : 2 ^ 31 ≤ fuel) (h : Run l fuel s) :
    (∀ n : Word, n ≠ 0#32 → (MallocMeets l fuel s n ↔ Servable l s.toAlloc n)) ∧
      ∀ number size : Word,
        (CallocMeets l fuel s number size ↔ Unwrapped l s.toAlloc number size) := by
  have hinv := (h.inv hfuel).1
  exact ⟨fun _ hn => malloc_meets_iff hfuel hinv hn, calloc_meets_iff hfuel hinv⟩

theorem allocation_size_iff_small :
    MallocMeets smallLayout (2 ^ 31) smallStart 4#32 ∧
      CallocMeets smallLayout (2 ^ 31) smallStart 3#32 5#32 := by
  have hsizes := allocation_size_iff (Nat.le_refl _) run_smallStart
  exact ⟨(hsizes.1 4#32 (by decide)).mpr (.inl (by decide)),
    (hsizes.2 3#32 5#32).mpr (.inl (by decide))⟩

/-- The largest size becomes a block of no bytes, and a product of `2^32 + 2` one of four. -/
theorem undersized_blocks :
    Run smallLayout (2 ^ 31) smallStart ∧
      ¬MallocMeets smallLayout (2 ^ 31) smallStart 0xffffffff#32 ∧
      ¬CallocMeets smallLayout (2 ^ 31) smallStart 0x80000001#32 2#32 := by
  have hinv := (run_smallStart.inv (Nat.le_refl _)).1
  refine ⟨run_smallStart, ?_, ?_⟩
  · rw [malloc_meets_iff (Nat.le_refl _) hinv (by decide), Servable]
    rintro (hsmall | hnone)
    · exact absurd hsmall (by decide)
    · exact hnone (hasRoom_smallStart (by decide))
  · rw [calloc_meets_iff (Nat.le_refl _) hinv, Unwrapped]
    rintro (hsmall | hzero | hnone)
    · exact absurd hsmall (by decide)
    · exact absurd hzero (by decide)
    · exact hnone (hasRoom_smallStart (by decide))

/-- `realloc` does what it is for exactly when the heap has room for the new block. -/
theorem realloc_contract_iff {s : State} (hfuel : 2 ^ 31 ≤ fuel) (h : Run l fuel s) {p : Nat}
    (hp : p ∈ s.live) {n : Word} (hn : n ≠ 0#32) :
    ReallocMeets l fuel s p n ↔ n.toNat ≤ 2 ^ 32 - 4 ∧ HasRoom s.mem (wordsFor n) := by
  rcases h.inv hfuel with ⟨hinv, hfilled⟩
  exact realloc_meets_iff hfuel hinv hfilled hp hn

theorem realloc_contract_iff_small : ReallocMeets smallLayout (2 ^ 31) smallBlock 1 8#32 :=
  (realloc_contract_iff (Nat.le_refl _) run_smallBlock (Finset.mem_singleton_self 1)
    (by decide)).mpr ⟨by decide, hasRoom_smallBlock (by decide)⟩

/-- There is no room for 65536 bytes, and the block is lost. -/
theorem realloc_loses_block :
    Run smallLayout (2 ^ 31) smallBlock ∧ 1 ∈ smallBlock.live ∧
      ¬ReallocMeets smallLayout (2 ^ 31) smallBlock 1 0x10000#32 := by
  refine ⟨run_smallBlock, Finset.mem_singleton_self 1, ?_⟩
  have hcall : realloc smallLayout (2 ^ 31) smallBlock.toAlloc (some 1) 0x10000#32 =
      .ok (⟨true, Function.update smallBlock.mem 0 (setFree 1023#32)⟩, none) := rfl
  rintro ⟨a, ptr, hmeets, hnull, -⟩
  rw [hcall] at hmeets
  obtain ⟨rfl, rfl⟩ := Prod.mk.inj (Except.ok.inj hmeets)
  have hheader := congrArg isFree (congrFun (hnull rfl) 0)
  exact absurd hheader (by decide)

end Results

end Heap
end F32c
