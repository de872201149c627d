import F32c.Core.Pipeline

/-!
# What the units of the datapath compute

The adder, the barrel shifter, the store alignment and the load aligner of the
core, stated over words and over a byte-addressed memory behind the data bus.
-/

namespace F32c
namespace Core

section Alu

theorem aluAddsubx_add (x : Bool) (a b : Word) :
    (aluAddsubx (opMinorAdd x) a b).extractLsb 31 0 = a + b := by
  have h : (opMinorAdd x).getLsbD 1 = false := by cases x <;> rfl
  simp only [aluAddsubx, h]
  apply BitVec.eq_of_toNat_eq
  simp

theorem aluAddsubx_sub (x : Bool) (a b : Word) :
    (aluAddsubx (opMinorSub x) a b).extractLsb 31 0 = a - b := by
  have h : (opMinorSub x).getLsbD 1 = true := by cases x <;> rfl
  simp only [aluAddsubx, h]
  apply BitVec.eq_of_toNat_eq
  simp
  omega

/-- The top bit of a difference is the borrow. -/
theorem aluAddsubx_borrow (x : Bool) (a b : Word) :
    (aluAddsubx (opMinorSub x) a b).getLsbD 32 = a.ult b := by
  have h : (opMinorSub x).getLsbD 1 = true := by cases x <;> rfl
  have ha := a.isLt
  have hb := b.isLt
  simp only [aluAddsubx, h, if_true]
  rw [BitVec.getLsbD, BitVec.toNat_sub, Nat.testBit_eq_decide_div_mod_eq, BitVec.ult,
    Bool.eq_iff_iff]
  simp
  omega

/-- The signed comparison of the EX stage. -/
theorem ult_signs (a b : Word) :
    (a.getLsbD 31 ^^ b.getLsbD 31 ^^ a.ult b) = a.slt b := by
  rw [BitVec.slt_eq_ult]
  simp [BitVec.msb_eq_getLsbD_last]

theorem extractLsb_low_add (a b : Word) :
    (a + b).extractLsb 1 0 = a.extractLsb 1 0 + b.extractLsb 1 0 := by
  apply BitVec.eq_of_toNat_eq
  simp

end Alu

section Shifter

theorem shiftStage_ll (n : Nat) (b : Bool) (w : Word) :
    shiftStage n .ll b w = w <<< (n * b.toNat) := by
  cases b <;> simp [shiftStage]

theorem shiftStage_rl (n : Nat) (b : Bool) (w : Word) :
    shiftStage n .rl b w = w >>> (n * b.toNat) := by
  cases b <;> simp [shiftStage]

theorem shiftStage_ra (n : Nat) (b : Bool) (w : Word) :
    shiftStage n .ra b w = w.sshiftRight (n * b.toNat) := by
  cases b <;> simp [shiftStage]

/-- The five stages of the barrel shifter, in the order of the pipeline. -/
def barrel (fn : ShiftFn) (n : BitVec 5) (w : Word) : Word :=
  shiftStage 4 fn (n.getLsbD 2) (shiftStage 2 fn (n.getLsbD 1) (shiftStage 1 fn (n.getLsbD 0)
    (shiftStage 16 fn (n.getLsbD 4) (shiftStage 8 fn (n.getLsbD 3) w))))

/-- A shift amount is the sum of the stages it selects. -/
theorem shamt_toNat (n : BitVec 5) :
    n.toNat = 8 * (n.getLsbD 3).toNat + 16 * (n.getLsbD 4).toNat + 1 * (n.getLsbD 0).toNat +
      2 * (n.getLsbD 1).toNat + 4 * (n.getLsbD 2).toNat := by
  revert n
  decide

theorem barrel_ll (n : BitVec 5) (w : Word) : barrel .ll n w = w <<< n.toNat := by
  simp only [barrel, shiftStage_ll, ← BitVec.shiftLeft_add]
  rw [shamt_toNat n]

theorem barrel_rl (n : BitVec 5) (w : Word) : barrel .rl n w = w >>> n.toNat := by
  simp only [barrel, shiftStage_rl, ← BitVec.shiftRight_add]
  rw [shamt_toNat n]

theorem barrel_ra (n : BitVec 5) (w : Word) : barrel .ra n w = w.sshiftRight n.toNat := by
  simp only [barrel, shiftStage_ra, ← BitVec.sshiftRight_add]
  rw [shamt_toNat n]

end Shifter

section Bus

/-- The byte address of a lane of a word. -/
def laneAddr (a : Addr) (k : BitVec 2) : Word := a ++ k

/-- The word at an address of a memory of bytes, in little-endian order. -/
def busWord (mem : Word → BitVec 8) (a : Addr) : Word :=
  mem (laneAddr a 3#2) ++ mem (laneAddr a 2#2) ++ mem (laneAddr a 1#2) ++ mem (laneAddr a 0#2)

/-- The bytes that a store with byte selects `sel` writes. -/
def busBytes (a : Addr) (sel : BitVec 4) (data : Word) : List (Word × BitVec 8) :=
  (if sel.getLsbD 0 then [(laneAddr a 0#2, data.extractLsb 7 0)] else []) ++
    (if sel.getLsbD 1 then [(laneAddr a 1#2, data.extractLsb 15 8)] else []) ++
    (if sel.getLsbD 2 then [(laneAddr a 2#2, data.extractLsb 23 16)] else []) ++
    (if sel.getLsbD 3 then [(laneAddr a 3#2, data.extractLsb 31 24)] else [])

theorem offset_cases (o : BitVec 2) : o = 0#2 ∨ o = 1#2 ∨ o = 2#2 ∨ o = 3#2 := by
  revert o
  decide

theorem laneAddr_self (x : Word) :
    laneAddr (x.extractLsb 31 2) (x.extractLsb 1 0) = x := by
  apply BitVec.eq_of_getLsbD_eq
  intro k hk
  simp only [laneAddr, BitVec.getLsbD_append, BitVec.getLsbD_extractLsb]
  grind

/-- Lanes after the one that an address selects hold the bytes after it. -/
theorem laneAddr_add {x : Word} {j : BitVec 2}
    (h : (x.extractLsb 1 0).toNat + j.toNat < 4) :
    laneAddr (x.extractLsb 31 2) (x.extractLsb 1 0 + j) = x + j.setWidth 32 := by
  apply BitVec.eq_of_toNat_eq
  have hx := x.isLt
  simp only [laneAddr, BitVec.toNat_append, BitVec.toNat_add, BitVec.extractLsb_toNat,
    Nat.shiftRight_eq_div_pow, BitVec.toNat_setWidth] at *
  rw [← Nat.shiftLeft_add_eq_or_of_lt (by omega)]
  simp only [Nat.shiftLeft_eq]
  omega

theorem laneAddr_zero {x : Word} (hx : x.extractLsb 1 0 = 0#2) (j : BitVec 2) :
    laneAddr (x.extractLsb 31 2) j = x + j.setWidth 32 := by
  have h := @laneAddr_add x j (by rw [hx]; revert j; decide)
  rwa [hx, BitVec.zero_add] at h

variable {c : Config}

theorem memAlignB_busWord
    (hc : c.bigEndian = false) (mem : Word → BitVec 8) (a : Addr) (o : BitVec 2) :
    memAlignB c o (busWord mem a) = mem (laneAddr a o) := by
  obtain rfl | rfl | rfl | rfl := offset_cases o
  all_goals
    simp only [memAlignB, hc]
    apply BitVec.eq_of_getLsbD_eq
    intro k hk
    simp [busWord]
    grind

theorem memAlignH_busWord
    (hc : c.bigEndian = false) (u : Undef) (mem : Word → BitVec 8) (a : Addr) (o : BitVec 2)
    (ho : o.getLsbD 0 = false) :
    memAlignH c u o (busWord mem a) = mem (laneAddr a (o + 1#2)) ++ mem (laneAddr a o) := by
  have hcase : o = 0#2 ∨ o = 2#2 := by
    revert o
    decide
  obtain rfl | rfl := hcase
  all_goals
    simp only [memAlignH, hc]
    apply BitVec.eq_of_getLsbD_eq
    intro k hk
    simp [busWord]
    grind

/-- A byte load returns the byte at its address. -/
theorem memDataAligned_byte
    (hc : c.bigEndian = false) (u : Undef) (signed : Bool) (mem : Word → BitVec 8) (x : Word) :
    memDataAligned c u .size8 signed (x.extractLsb 1 0) (busWord mem (x.extractLsb 31 2)) =
      if signed then (mem x).signExtend 32 else (mem x).setWidth 32 := by
  have hb := memAlignB_busWord hc mem (x.extractLsb 31 2) (x.extractLsb 1 0)
  rw [laneAddr_self] at hb
  rw [memDataAligned, hb]
  rfl

/-- A half word load returns the two bytes at its address. -/
theorem memDataAligned_half
    (hc : c.bigEndian = false) (u : Undef) (signed : Bool) (mem : Word → BitVec 8) {x : Word}
    (hx : x.getLsbD 0 = false) :
    memDataAligned c u .size16 signed (x.extractLsb 1 0) (busWord mem (x.extractLsb 31 2)) =
      if signed then (mem (x + 1) ++ mem x).signExtend 32
      else (mem (x + 1) ++ mem x).setWidth 32 := by
  have h0 : (x.extractLsb 1 0).getLsbD 0 = false := by simpa using hx
  have hle : (x.extractLsb 1 0).toNat + (1#2).toNat < 4 := by
    generalize x.extractLsb 1 0 = o at h0
    revert o
    decide
  have hh := memAlignH_busWord hc u mem (x.extractLsb 31 2) (x.extractLsb 1 0) h0
  rw [laneAddr_self, laneAddr_add hle] at hh
  rw [memDataAligned, hh, h0]
  rfl

/-- A word load returns the four bytes at its address. -/
theorem memDataAligned_word
    (hc : c.bigEndian = false) (u : Undef) (signed : Bool) (mem : Word → BitVec 8) {x : Word}
    (hx : x.extractLsb 1 0 = 0#2) :
    memDataAligned c u .size32 signed (x.extractLsb 1 0) (busWord mem (x.extractLsb 31 2)) =
      mem (x + 3) ++ mem (x + 2) ++ mem (x + 1) ++ mem x := by
  have hword : (busWord mem (x.extractLsb 31 2)).extractLsb 31 8 ++
      memAlignB c 0#2 (busWord mem (x.extractLsb 31 2)) = busWord mem (x.extractLsb 31 2) := by
    rw [memAlignB_busWord hc]
    apply BitVec.eq_of_getLsbD_eq
    intro k hk
    simp [busWord]
    grind
  rw [memDataAligned, hx, hc]
  refine Eq.trans hword ?_
  simp [busWord, laneAddr_zero hx]

/-- Store data after the 8 and 16 bit stages of the shifter. -/
def storeData (size : MemSize) (o : BitVec 2) (v : Word) : Word :=
  let n := if size.bit1 then 0b00#2 else o
  shiftStage 16 .ll (n.getLsbD 1) (shiftStage 8 .ll (n.getLsbD 0) v)

theorem busBytes_byte (x v : Word) :
    busBytes (x.extractLsb 31 2) (memByteSel .size8 (x.extractLsb 1 0))
      (storeData .size8 (x.extractLsb 1 0) v) = [(x, v.extractLsb 7 0)] := by
  have hx := laneAddr_self x
  generalize x.extractLsb 1 0 = o at hx ⊢
  have hbyte : (shiftStage 8 .ll true v).extractLsb 15 8 = v.extractLsb 7 0 ∧
      (shiftStage 16 .ll true v).extractLsb 23 16 = v.extractLsb 7 0 ∧
      (shiftStage 16 .ll true (shiftStage 8 .ll true v)).extractLsb 31 24 =
        v.extractLsb 7 0 := by
    refine ⟨?_, ?_, ?_⟩
    all_goals
      apply BitVec.eq_of_getLsbD_eq
      intro k hk
      simp [shiftStage]
      grind
  obtain rfl | rfl | rfl | rfl := offset_cases o
  · rw [show memByteSel .size8 0#2 = 0b0001#4 from rfl, show storeData .size8 0#2 v = v from rfl]
    simp [busBytes, hx]
  · rw [show memByteSel .size8 1#2 = 0b0010#4 from rfl,
      show storeData .size8 1#2 v = shiftStage 8 .ll true v from rfl]
    simp [busBytes, hx, hbyte]
  · rw [show memByteSel .size8 2#2 = 0b0100#4 from rfl,
      show storeData .size8 2#2 v = shiftStage 16 .ll true v from rfl]
    simp [busBytes, hx, hbyte]
  · rw [show memByteSel .size8 3#2 = 0b1000#4 from rfl,
      show storeData .size8 3#2 v = shiftStage 16 .ll true (shiftStage 8 .ll true v) from rfl]
    simp [busBytes, hx, hbyte]

theorem busBytes_half {x : Word} (hx : x.getLsbD 0 = false) (v : Word) :
    busBytes (x.extractLsb 31 2) (memByteSel .size16 (x.extractLsb 1 0))
      (storeData .size16 (x.extractLsb 1 0) v) =
        [(x, v.extractLsb 7 0), (x + 1, v.extractLsb 15 8)] := by
  have h0 : (x.extractLsb 1 0).getLsbD 0 = false := by simpa using hx
  have hcase : x.extractLsb 1 0 = 0#2 ∨ x.extractLsb 1 0 = 2#2 := by
    generalize x.extractLsb 1 0 = o at h0
    revert o
    decide
  have hlane0 := laneAddr_self x
  have hlane1 : laneAddr (x.extractLsb 31 2) (x.extractLsb 1 0 + 1#2) = x + 1#32 := by
    refine laneAddr_add ?_
    obtain h | h := hcase <;> rw [h] <;> decide
  have hhalf : (shiftStage 16 .ll true v).extractLsb 23 16 = v.extractLsb 7 0 ∧
      (shiftStage 16 .ll true v).extractLsb 31 24 = v.extractLsb 15 8 := by
    refine ⟨?_, ?_⟩
    all_goals
      apply BitVec.eq_of_getLsbD_eq
      intro k hk
      simp [shiftStage]
      grind
  obtain h | h := hcase
  · rw [h] at hlane0 hlane1 ⊢
    rw [show memByteSel .size16 0#2 = 0b0011#4 from rfl,
      show storeData .size16 0#2 v = v from rfl]
    rw [show 0#2 + 1#2 = 1#2 from rfl] at hlane1
    simp [busBytes, hlane0, hlane1]
  · rw [h] at hlane0 hlane1 ⊢
    rw [show memByteSel .size16 2#2 = 0b1100#4 from rfl,
      show storeData .size16 2#2 v = shiftStage 16 .ll true v from rfl]
    rw [show 2#2 + 1#2 = 3#2 from rfl] at hlane1
    simp [busBytes, hlane0, hlane1, hhalf]

theorem busBytes_word {x : Word} (hx : x.extractLsb 1 0 = 0#2) (v : Word) :
    busBytes (x.extractLsb 31 2) (memByteSel .size32 (x.extractLsb 1 0))
      (storeData .size32 (x.extractLsb 1 0) v) =
        [(x, v.extractLsb 7 0), (x + 1, v.extractLsb 15 8), (x + 2, v.extractLsb 23 16),
          (x + 3, v.extractLsb 31 24)] := by
  rw [hx, show memByteSel .size32 0#2 = 0b1111#4 from rfl,
    show storeData .size32 0#2 v = v from rfl]
  simp [busBytes, laneAddr_zero hx]

end Bus

end Core
end F32c
