import F32c.Heap.Malloc

/-!
# Tilings of the heap

The headers of the chunks lie one behind the other and end at a zero word.  A
change of the words inside one chunk leaves the headers and the payloads of all
other chunks as they are.
-/

namespace F32c
namespace Heap

section Headers

theorem getLen_eq (w : Word) : getLen w = w.toNat % 2 ^ 31 := by
  have hmask : (~~~0x80000000#32).toNat = 2 ^ 31 - 1 := by decide
  rw [getLen, BitVec.toNat_and, hmask, Nat.and_two_pow_sub_one_eq_mod]

theorem isFree_eq (w : Word) : isFree w = w.msb := by
  have hbit : w &&& 0x80000000#32 = if w.msb then 0x80000000#32 else 0#32 := by
    apply BitVec.eq_of_getLsbD_eq
    intro k hk
    have hone : (0x80000000#32).getLsbD k = decide (k = 31) := by
      interval_cases k <;> rfl
    rw [BitVec.getLsbD_and, hone, BitVec.msb_eq_getLsbD_last]
    by_cases hk31 : k = 31
    · subst hk31
      cases w.getLsbD 31 <;> simp
    · cases w.getLsbD 31 <;> simp [hk31, hone]
  rw [isFree, hbit]
  cases w.msb <;> rfl

theorem toNat_setFree {n : Nat} (h : n < 2 ^ 31) :
    (setFree (BitVec.ofNat 32 n)).toNat = 2 ^ 31 + n := by
  have hn : (BitVec.ofNat 32 n).toNat = n := by
    rw [BitVec.toNat_ofNat, Nat.mod_eq_of_lt (by omega)]
  rw [setFree, BitVec.toNat_or, hn, Nat.or_comm]
  exact (Nat.two_pow_add_eq_or_of_lt h 1).symm

/-- A chunk with the words of its header and its payload. -/
structure Chunk where
  len : Nat
  free : Bool
deriving DecidableEq, Repr

def Chunk.header (c : Chunk) : Word :=
  if c.free then setFree (BitVec.ofNat 32 c.len) else BitVec.ofNat 32 c.len

theorem Chunk.toNat_header {c : Chunk} (h : c.len < 2 ^ 31) :
    c.header.toNat = (if c.free then 2 ^ 31 else 0) + c.len := by
  rw [Chunk.header]
  split_ifs
  · exact toNat_setFree h
  · rw [BitVec.toNat_ofNat, Nat.mod_eq_of_lt (by omega), Nat.zero_add]

theorem Chunk.getLen_header {c : Chunk} (h : c.len < 2 ^ 31) : getLen c.header = c.len := by
  rw [getLen_eq, c.toNat_header h]
  split_ifs <;> omega

theorem Chunk.isFree_header {c : Chunk} (h : c.len < 2 ^ 31) : isFree c.header = c.free := by
  rw [isFree_eq, BitVec.msb_eq_decide, c.toNat_header h]
  cases c.free
  · simp
    omega
  · simp

end Headers

section Tiling

/-- The number of words of some chunks. -/
def total (cs : List Chunk) : Nat := (cs.map Chunk.len).sum

@[simp] theorem total_nil : total [] = 0 := by
  rfl

@[simp] theorem total_cons (c : Chunk) (cs : List Chunk) :
    total (c :: cs) = c.len + total cs := by
  simp [total]

@[simp] theorem total_append (cs ds : List Chunk) : total (cs ++ ds) = total cs + total ds := by
  simp [total]

/-- The headers of some chunks from the word `i` on. -/
def Headers (mem : Mem) : Nat → List Chunk → Prop
  | _, [] => True
  | i, c :: cs => mem i = c.header ∧ 0 < c.len ∧ Headers mem (i + c.len) cs

theorem headers_append {mem : Mem} {i : Nat} {cs ds : List Chunk} :
    Headers mem i (cs ++ ds) ↔ Headers mem i cs ∧ Headers mem (i + total cs) ds := by
  induction cs generalizing i with
  | nil =>
      simp [Headers]
  | cons c cs ih =>
      simp only [List.cons_append, Headers, ih, total_cons, and_assoc, Nat.add_assoc]

theorem headers_congr {mem mem' : Mem} {i : Nat} {cs : List Chunk}
    (hagree : ∀ j, i ≤ j → j < i + total cs → mem' j = mem j) (h : Headers mem i cs) :
    Headers mem' i cs := by
  induction cs generalizing i with
  | nil =>
      trivial
  | cons c cs ih =>
      obtain ⟨hhead, hpos, htail⟩ := h
      rw [total_cons] at hagree
      refine ⟨?_, hpos, ih (fun j h₁ h₂ => hagree j (by omega) (by omega)) htail⟩
      rw [hagree i (Nat.le_refl i) (by omega), hhead]

theorem length_le_total {mem : Mem} {i : Nat} {cs : List Chunk} (h : Headers mem i cs) :
    cs.length ≤ total cs := by
  induction cs generalizing i with
  | nil =>
      exact Nat.le_refl 0
  | cons c cs ih =>
      obtain ⟨-, hpos, htail⟩ := h
      have := ih htail
      simp only [List.length_cons, total_cons]
      omega

/-- The chunks fill the heap up to the zero word behind them. -/
structure Tiles (mem : Mem) (cs : List Chunk) : Prop where
  headers : Headers mem 0 cs
  terminator : mem (total cs) = 0#32
  bound : total cs < 2 ^ 31

/-- The pointers to the payloads of the chunks in use. -/
def used : Nat → List Chunk → List Nat
  | _, [] => []
  | i, c :: cs => (if c.free then [] else [i + 1]) ++ used (i + c.len) cs

theorem used_append (i : Nat) (cs ds : List Chunk) :
    used i (cs ++ ds) = used i cs ++ used (i + total cs) ds := by
  induction cs generalizing i with
  | nil =>
      simp [used]
  | cons c cs ih =>
      simp only [List.cons_append, used, ih, total_cons, List.append_assoc, Nat.add_assoc]

theorem used_eq_nil {i : Nat} {cs : List Chunk} (h : ∀ c ∈ cs, c.free = true) :
    used i cs = [] := by
  induction cs generalizing i with
  | nil =>
      rfl
  | cons c cs ih =>
      rw [used, h c List.mem_cons_self, if_pos rfl, List.nil_append]
      exact ih (fun d hd => h d (List.mem_cons_of_mem c hd))

/-- A pointer belongs to one chunk in use. -/
theorem exists_of_mem_used {i p : Nat} {cs : List Chunk} (h : p ∈ used i cs) :
    ∃ pre c post, cs = pre ++ c :: post ∧ c.free = false ∧ p = i + total pre + 1 := by
  induction cs generalizing i with
  | nil =>
      simp [used] at h
  | cons c cs ih =>
      rw [used, List.mem_append] at h
      rcases h with hhead | htail
      · cases hf : c.free
        · rw [hf, if_neg Bool.false_ne_true, List.mem_singleton] at hhead
          exact ⟨[], c, cs, rfl, hf, by simpa using hhead⟩
        · simp [hf] at hhead
      · obtain ⟨pre, d, post, rfl, hd, rfl⟩ := ih htail
        exact ⟨c :: pre, d, post, rfl, hd, by simp [Nat.add_assoc]⟩

end Tiling

section Payloads

variable {mem mem' mem'' : Mem}
variable {i p q : Nat}
variable {cs pre es post : List Chunk}

/-- The words of a block lie behind its header, inside its chunk. -/
theorem payload_of_mem_used (h : Headers mem i cs) (hb : total cs < 2 ^ 31)
    (hp : p ∈ used i cs) :
    ∃ n, getLen (mem (p - 1)) = n ∧ i < p ∧ p - 1 + n ≤ i + total cs ∧
      isFree (mem (p - 1)) = false := by
  obtain ⟨pre, c, post, rfl, hfree, rfl⟩ := exists_of_mem_used hp
  obtain ⟨-, hhead, -, -⟩ := headers_append.mp h
  simp only [total_append, total_cons] at hb ⊢
  have hp1 : i + total pre + 1 - 1 = i + total pre := by omega
  rw [hp1, hhead, c.getLen_header (by omega), c.isFree_header (by omega)]
  exact ⟨c.len, rfl, by omega, by omega, hfree⟩

/-- The block and its contents stay the same. -/
def Keeps (mem mem' : Mem) (p : Nat) : Prop :=
  payload mem' p = payload mem p ∧ ∀ j ∈ payload mem p, mem' j = mem j

theorem Keeps.trans (h : Keeps mem mem' p) (h' : Keeps mem' mem'' p) : Keeps mem mem'' p := by
  refine ⟨h'.1.trans h.1, fun j hj => ?_⟩
  rw [h'.2 j (h.1 ▸ hj), h.2 j hj]

theorem keeps_of_agree (h : Headers mem i cs) (hb : total cs < 2 ^ 31) (hp : p ∈ used i cs)
    (hagree : ∀ j, i ≤ j → j < i + total cs → mem' j = mem j) : Keeps mem mem' p := by
  obtain ⟨n, hn, hlo, hhi, -⟩ := payload_of_mem_used h hb hp
  have hhead : mem' (p - 1) = mem (p - 1) := by
    obtain ⟨pre, c, post, rfl, -, rfl⟩ := exists_of_mem_used hp
    obtain ⟨-, -, hc, -⟩ := headers_append.mp h
    simp only [total_append, total_cons] at hagree
    exact hagree _ (by omega) (by omega)
  refine ⟨by rw [payload, payload, hhead], fun j hj => ?_⟩
  rw [payload, Finset.mem_Ico, hn] at hj
  exact hagree j (by omega) (by omega)

/-- A change inside some neighbouring chunks keeps the blocks in all other chunks. -/
theorem Tiles.keeps (h : Tiles mem (pre ++ (es ++ post)))
    (hagree : ∀ j, j < total pre ∨ total pre + total es ≤ j → mem' j = mem j)
    (hp : p ∈ used 0 pre ∨ p ∈ used (total pre + total es) post) : Keeps mem mem' p := by
  obtain ⟨hpre, htail⟩ := headers_append.mp h.headers
  obtain ⟨-, hpost⟩ := headers_append.mp htail
  have hb := h.bound
  simp only [total_append] at hb
  rw [Nat.zero_add] at hpost
  rcases hp with hp | hp
  · exact keeps_of_agree hpre (by omega) hp (fun j _ hj => hagree j (.inl (by omega)))
  · exact keeps_of_agree hpost (by omega) hp (fun j hj _ => hagree j (.inr hj))

/-- Some neighbouring chunks are replaced by others of the same total length. -/
theorem Tiles.replace {ds : List Chunk} (h : Tiles mem (pre ++ (es ++ post)))
    (hagree : ∀ j, j < total pre ∨ total pre + total es ≤ j → mem' j = mem j)
    (hlen : total ds = total es) (hds : Headers mem' (total pre) ds) :
    Tiles mem' (pre ++ (ds ++ post)) := by
  obtain ⟨hpre, htail⟩ := headers_append.mp h.headers
  obtain ⟨-, hpost⟩ := headers_append.mp htail
  have hterm := h.terminator
  have hb := h.bound
  simp only [total_append] at hterm hb
  rw [Nat.zero_add] at hpost
  refine ⟨?_, ?_, ?_⟩
  · rw [headers_append, headers_append, Nat.zero_add, hlen]
    refine ⟨?_, hds, ?_⟩
    · exact headers_congr (fun j _ hj => hagree j (.inl (by omega))) hpre
    · exact headers_congr (fun j hj _ => hagree j (.inr hj)) hpost
  · rw [total_append, total_append, hlen, hagree _ (.inr (by omega)), hterm]
  · simp only [total_append, hlen]
    omega

theorem used_middle (pre es post : List Chunk) :
    used 0 (pre ++ (es ++ post)) =
      used 0 pre ++ (used (total pre) es ++ used (total pre + total es) post) := by
  rw [used_append, Nat.zero_add, used_append]

/-- Pointers into different parts of the heap are different. -/
theorem mem_used_bounds (h : Headers mem i cs) (hp : p ∈ used i cs) :
    i < p ∧ p ≤ i + total cs := by
  obtain ⟨pre, c, post, rfl, -, rfl⟩ := exists_of_mem_used hp
  obtain ⟨-, -, hc, -⟩ := headers_append.mp h
  simp only [total_append, total_cons]
  omega

end Payloads

end Heap
end F32c
