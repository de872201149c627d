import Mathlib.Tactic

/-!
# Comparing strings

`strcmp` compares a word at a time where both strings are aligned.  A word that is the same in
both ends the loop where a byte of it is zero, which is seen from the borrows when one is
subtracted from each byte; the bytes of words that differ are compared in the order in which
they are stored.
-/

namespace F32c
namespace Libc
namespace Strcmp

abbrev Byte := BitVec 8
abbrev CInt := BitVec 32
abbrev Addr := BitVec 32

section Model

/-- A word of bytes, the lowest first. -/
def ofBytes (b0 b1 b2 b3 : Byte) : CInt :=
  b0.setWidth 32 ||| b1.setWidth 32 <<< 8 ||| b2.setWidth 32 <<< 16 ||| b3.setWidth 32 <<< 24

/-- The word at an address; `big` is the byte order. -/
def loadWord (big : Bool) (mem : Addr → Byte) (s : Addr) : CInt :=
  if big then ofBytes (mem (s + 3)) (mem (s + 2)) (mem (s + 1)) (mem s)
  else ofBytes (mem s) (mem (s + 1)) (mem (s + 2)) (mem (s + 3))

/-- The path for strings of which one is not aligned; `fuel` bounds the loop. -/
def bytewise (mem : Addr → Byte) : Nat → Addr → Addr → Option CInt
  | 0, _, _ => none
  | fuel + 1, s1, s2 =>
    let c1 : CInt := (mem s1).setWidth 32
    let c2 : CInt := (mem s2).setWidth 32
    if c1 ≠ 0 ∧ c1 = c2 then bytewise mem fuel (s1 + 1) (s2 + 1) else some (c1 - c2)

/-- The bytes of a word that are compared after the loop, in their order. -/
def part (big : Bool) (c : CInt) : Nat → CInt
  | 0 => if big then c.sshiftRight 24 &&& 0xff else c &&& 0xff
  | 1 => if big then c.sshiftRight 16 &&& 0xff else c &&& 0xff00
  | 2 => if big then c &&& 0xff00 else c.sshiftRight 16 &&& 0xff
  | _ => if big then c &&& 0xff else c.sshiftRight 16 &&& 0xff00

/-- What is returned for two words that differ. -/
def resolve (big : Bool) (c1 c2 : CInt) : CInt :=
  let b1 := part big c1
  let b2 := part big c2
  if b1 0 = 0 ∨ b1 0 ≠ b2 0 then b1 0 - b2 0
  else if b1 1 = 0 ∨ b1 1 ≠ b2 1 then b1 1 - b2 1
  else if b1 2 = 0 ∨ b1 2 ≠ b2 2 then b1 2 - b2 2
  else b1 3 - b2 3

/-- The path for aligned strings. -/
def wordwise (big : Bool) (mem : Addr → Byte) : Nat → Addr → Addr → Option CInt
  | 0, _, _ => none
  | fuel + 1, s1, s2 =>
    let c1 := loadWord big mem s1
    let c2 := loadWord big mem s2
    let v0 := c1 - 0x01010101#32
    if c1 ≠ c2 then some (resolve big c1 c2)
    else
      let v0 := v0 &&& 0x80808080#32
      if v0 ≠ 0 ∧ v0 &&& ~~~c1 ≠ 0 then some 0 else wordwise big mem fuel (s1 + 4) (s2 + 4)

/-- `strcmp` -/
def strcmp (big : Bool) (mem : Addr → Byte) (fuel : Nat) (s1 s2 : Addr) : Option CInt :=
  if (s1 ||| s2) &&& 3 ≠ 0 then bytewise mem fuel s1 s2 else wordwise big mem fuel s1 s2

end Model

section Words

/-- The bytes of a word in the order in which they are stored. -/
def lane (big : Bool) (c : CInt) (i : Nat) : Byte :=
  if big then (c >>> (8 * (3 - i))).setWidth 8 else (c >>> (8 * i)).setWidth 8

theorem lane_ofBytes (b : Nat → Byte) {i : Nat} (hi : i < 4) :
    lane false (ofBytes (b 0) (b 1) (b 2) (b 3)) i = b i := by
  apply BitVec.eq_of_getLsbD_eq
  intro j hj
  interval_cases i
  all_goals interval_cases j <;> simp [lane, ofBytes]

theorem lane_reverse (c : CInt) (i : Nat) : lane true c i = lane false c (3 - i) := rfl

theorem lane_loadWord (big : Bool) (mem : Addr → Byte) (s : Addr) {i : Nat} (hi : i < 4) :
    lane big (loadWord big mem s) i = mem (s + BitVec.ofNat 32 i) := by
  cases big with
  | false =>
      have hlane := lane_ofBytes (fun i => mem (s + BitVec.ofNat 32 i)) hi
      rw [BitVec.add_zero] at hlane
      exact hlane
  | true =>
      have hlane := lane_ofBytes (fun i => mem (s + BitVec.ofNat 32 (3 - i)))
        (by omega : 3 - i < 4)
      rw [show 3 - (3 - i) = i by omega, BitVec.add_zero] at hlane
      exact hlane

/-- How far up the part with a byte stays. -/
def shift (big : Bool) (i : Nat) : Nat :=
  if big then if i = 2 then 8 else 0 else if i = 1 ∨ i = 3 then 8 else 0

theorem part_eq (big : Bool) (c : CInt) {i : Nat} (hi : i < 4) :
    part big c i = (lane big c i).setWidth 32 <<< shift big i := by
  apply BitVec.eq_of_getLsbD_eq
  intro j hj
  cases big with
  | false =>
      interval_cases i
      all_goals interval_cases j <;> simp [part, lane, shift, BitVec.getElem_sshiftRight]
  | true =>
      interval_cases i
      all_goals interval_cases j <;> simp [part, lane, shift, BitVec.getElem_sshiftRight]

theorem part_toNat (big : Bool) (c : CInt) {i : Nat} (hi : i < 4) :
    (part big c i).toNat = (lane big c i).toNat * 2 ^ shift big i := by
  have hlane := (lane big c i).isLt
  have hshift : 2 ^ shift big i ≤ 256 := by
    rw [shift]
    split
    · split
      · decide
      · decide
    · split
      · decide
      · decide
  have hsmall : (lane big c i).toNat * 2 ^ shift big i ≤ 256 * 256 :=
    Nat.mul_le_mul (by omega) hshift
  rw [part_eq big c hi, BitVec.toNat_shiftLeft, BitVec.toNat_setWidth, Nat.shiftLeft_eq,
    Nat.mod_eq_of_lt (by omega : (lane big c i).toNat < 2 ^ 32), Nat.mod_eq_of_lt (by omega)]

/-- The top bits that are clear in one word and set in another. -/
theorem top_bits_eq_zero_iff (c w : CInt) :
    w &&& 0x80808080#32 &&& ~~~c = 0 ↔
      ∀ i < 4, w.getLsbD (8 * i + 7) = true → c.getLsbD (8 * i + 7) = true := by
  constructor
  · intro h i hi hw
    have hbit := congrArg (BitVec.getLsbD · (8 * i + 7)) h
    interval_cases i
    all_goals simpa [hw] using hbit
  · intro h
    apply BitVec.eq_of_getLsbD_eq
    intro j hj
    have h0 := h 0 (by omega)
    have h1 := h 1 (by omega)
    have h2 := h 2 (by omega)
    have h3 := h 3 (by omega)
    interval_cases j
    all_goals simp_all

/-- The value of a byte of a word. -/
def digit (c : CInt) (i : Nat) : Nat := (lane false c i).toNat

theorem digit_lt (c : CInt) (i : Nat) : digit c i < 256 := (lane false c i).isLt

/-- A word is made of its four bytes. -/
theorem toNat_eq_digits (c : CInt) :
    c.toNat = digit c 0 + 256 * digit c 1 + 65536 * digit c 2 + 16777216 * digit c 3 := by
  have hdigit (i : Nat) : digit c i = c.toNat / 2 ^ (8 * i) % 256 := by
    change ((c >>> (8 * i)).setWidth 8).toNat = _
    rw [BitVec.toNat_setWidth, BitVec.toNat_ushiftRight, Nat.shiftRight_eq_div_pow]
  have h0 : digit c 0 = c.toNat % 256 := (hdigit 0).trans (by rw [Nat.pow_zero, Nat.div_one])
  have h1 : digit c 1 = c.toNat / 256 % 256 := hdigit 1
  have h2 : digit c 2 = c.toNat / 65536 % 256 := hdigit 2
  have h3 : digit c 3 = c.toNat / 16777216 % 256 := hdigit 3
  have hlt := c.isLt
  omega

/-- The top bit of a byte. -/
theorem top_bit_iff (c : CInt) {i : Nat} (hi : i < 4) :
    c.getLsbD (8 * i + 7) = true ↔ 128 ≤ digit c i := by
  have hmsb : (lane false c i).msb = c.getLsbD (8 * i + 7) := by
    rw [BitVec.msb_eq_getLsbD_last]
    interval_cases i <;> simp [lane]
  rw [← hmsb, BitVec.msb_eq_decide, decide_eq_true_eq]
  rfl

/-- Subtracting one from each byte: from the lowest zero one is borrowed. -/
theorem borrow_iff {x0 x1 x2 x3 y0 y1 y2 y3 : Nat} (hx : (x0 < 256 ∧ x1 < 256) ∧ x2 < 256 ∧ x3 < 256)
    (hy : (y0 < 256 ∧ y1 < 256) ∧ y2 < 256 ∧ y3 < 256)
    (h : y0 + 256 * y1 + 65536 * y2 + 16777216 * y3 + 0x01010101 =
        x0 + 256 * x1 + 65536 * x2 + 16777216 * x3 ∨
      y0 + 256 * y1 + 65536 * y2 + 16777216 * y3 + 0x01010101 =
        x0 + 256 * x1 + 65536 * x2 + 16777216 * x3 + 2 ^ 32) :
    (((128 ≤ y0 → 128 ≤ x0) ∧ (128 ≤ y1 → 128 ≤ x1)) ∧
        (128 ≤ y2 → 128 ≤ x2) ∧ (128 ≤ y3 → 128 ≤ x3)) ↔
      (x0 ≠ 0 ∧ x1 ≠ 0) ∧ x2 ≠ 0 ∧ x3 ≠ 0 := by
  constructor
  · rintro ⟨⟨h0, h1⟩, h2, h3⟩
    have hx0 : x0 ≠ 0 := by omega
    have hy0 : y0 + 1 = x0 := by omega
    have hx1 : x1 ≠ 0 := by omega
    have hy1 : y1 + 1 = x1 := by omega
    have hx2 : x2 ≠ 0 := by omega
    have hy2 : y2 + 1 = x2 := by omega
    exact ⟨⟨hx0, hx1⟩, hx2, by omega⟩
  · rintro ⟨⟨h0, h1⟩, h2, h3⟩
    have hy0 : y0 + 1 = x0 := by omega
    have hy1 : y1 + 1 = x1 := by omega
    have hy2 : y2 + 1 = x2 := by omega
    have hy3 : y3 + 1 = x3 := by omega
    omega

/-- One is subtracted from each byte: where there is a zero, and only there, a top bit appears
that was not there before. -/
theorem has_zero_iff (big : Bool) (c : CInt) :
    (c - 0x01010101#32) &&& 0x80808080#32 &&& ~~~c ≠ 0 ↔ ∃ i < 4, lane big c i = 0 := by
  have hdigit (i : Nat) : lane false c i = 0 ↔ digit c i = 0 := by
    rw [← BitVec.toNat_inj]
    rfl
  have hborrow := @borrow_iff (digit c 0) (digit c 1) (digit c 2) (digit c 3)
    (digit (c - 0x01010101#32) 0) (digit (c - 0x01010101#32) 1) (digit (c - 0x01010101#32) 2)
    (digit (c - 0x01010101#32) 3) ⟨⟨digit_lt _ _, digit_lt _ _⟩, digit_lt _ _, digit_lt _ _⟩
    ⟨⟨digit_lt _ _, digit_lt _ _⟩, digit_lt _ _, digit_lt _ _⟩ (by
      rw [← toNat_eq_digits, ← toNat_eq_digits, BitVec.toNat_sub, BitVec.toNat_ofNat]
      have hlt := c.isLt
      omega)
  have hclear : (c - 0x01010101#32) &&& 0x80808080#32 &&& ~~~c = 0 ↔
      ∀ i < 4, lane false c i ≠ 0 := by
    rw [top_bits_eq_zero_iff]
    constructor
    · intro h
      have hbits (i : Nat) (hi : i < 4) : 128 ≤ digit (c - 0x01010101#32) i → 128 ≤ digit c i :=
        fun hy => (top_bit_iff c hi).1 (h i hi ((top_bit_iff _ hi).2 hy))
      obtain ⟨⟨h0, h1⟩, h2, h3⟩ := hborrow.1 ⟨⟨hbits 0 (by omega), hbits 1 (by omega)⟩,
        hbits 2 (by omega), hbits 3 (by omega)⟩
      intro i hi
      rw [ne_eq, hdigit]
      interval_cases i
      · exact h0
      · exact h1
      · exact h2
      · exact h3
    · intro h
      have hne (i : Nat) (hi : i < 4) : digit c i ≠ 0 := fun hzero => h i hi ((hdigit i).2 hzero)
      obtain ⟨⟨h0, h1⟩, h2, h3⟩ := hborrow.2 ⟨⟨hne 0 (by omega), hne 1 (by omega)⟩,
        hne 2 (by omega), hne 3 (by omega)⟩
      intro i hi hy
      rw [top_bit_iff _ hi] at hy ⊢
      interval_cases i
      · exact h0 hy
      · exact h1 hy
      · exact h2 hy
      · exact h3 hy
  rw [ne_eq, hclear]
  cases big with
  | false => simp
  | true =>
      constructor
      · intro h
        simp only [not_forall, not_not] at h
        obtain ⟨i, hi, hzero⟩ := h
        refine ⟨3 - i, by omega, ?_⟩
        rw [lane_reverse, show 3 - (3 - i) = i by omega, hzero]
      · rintro ⟨i, hi, hzero⟩ h
        exact h (3 - i) (by omega) hzero

theorem eq_iff_lanes (big : Bool) (c1 c2 : CInt) :
    c1 = c2 ↔ ∀ i < 4, lane big c1 i = lane big c2 i := by
  constructor
  · rintro rfl i _
    rfl
  · intro h
    have hdigit (i : Nat) (hi : i < 4) : digit c1 i = digit c2 i := by
      rw [digit, digit]
      cases big with
      | false => rw [h i hi]
      | true =>
          have hlane := h (3 - i) (by omega)
          rw [lane_reverse, lane_reverse, show 3 - (3 - i) = i by omega] at hlane
          rw [hlane]
    rw [← BitVec.toNat_inj, toNat_eq_digits, toNat_eq_digits c2, hdigit 0 (by omega),
      hdigit 1 (by omega), hdigit 2 (by omega), hdigit 3 (by omega)]

end Words

section Compare

/-- The first place where two strings differ or both end. -/
structure FirstStop (a b : Nat → Byte) (k : Nat) : Prop where
  stop : a k = 0 ∨ a k ≠ b k
  before : ∀ i < k, a i ≠ 0 ∧ a i = b i

variable {a b : Nat → Byte} {k : Nat}

theorem FirstStop.shift {n : Nat} (h : FirstStop a b (n + k)) :
    FirstStop (fun i => a (n + i)) (fun i => b (n + i)) k :=
  ⟨h.stop, fun i hi => h.before (n + i) (by omega)⟩

/-- The difference of two bytes, as numbers. -/
def diff (x y : Byte) : Int := (x.toNat : Int) - y.toNat

/-- The difference of two parts that stay as far up. -/
theorem sub_toInt {x y : Byte} {c1 c2 : CInt} {n : Nat} (hn : n ≤ 8)
    (h1 : c1.toNat = x.toNat * 2 ^ n) (h2 : c2.toNat = y.toNat * 2 ^ n) :
    (c1 - c2).toInt = diff x y * 2 ^ n := by
  have hx := x.isLt
  have hy := y.isLt
  have hpow : 2 ^ n ≤ 2 ^ 8 := Nat.pow_le_pow_right (by omega) hn
  have hx' : x.toNat * 2 ^ n ≤ 256 * 2 ^ 8 := Nat.mul_le_mul (by omega) hpow
  have hy' : y.toNat * 2 ^ n ≤ 256 * 2 ^ 8 := Nat.mul_le_mul (by omega) hpow
  rw [BitVec.toInt_sub, BitVec.toInt_eq_toNat_of_lt (by omega),
    BitVec.toInt_eq_toNat_of_lt (by omega), h1, h2, Int.bmod_eq_of_le (by omega) (by omega), diff,
    Int.sub_mul]
  push_cast
  rfl

theorem sign_diff_mul (x y : Byte) (n : Nat) : (diff x y * 2 ^ n).sign = (diff x y).sign := by
  rw [Int.sign_mul, Int.sign_eq_one_of_pos (by positivity : (0 : Int) < 2 ^ n), mul_one]

/-- The comparison of the bytes of two words ends where the strings differ. -/
theorem resolve_sign (big : Bool) {c1 c2 : CInt}
    (h : FirstStop (lane big c1) (lane big c2) k) (hk : k < 4) :
    (resolve big c1 c2).toInt.sign = (diff (lane big c1 k) (lane big c2 k)).sign := by
  have hzero (i : Nat) (hi : i < 4) : part big c1 i = 0 ↔ lane big c1 i = 0 := by
    rw [← BitVec.toNat_inj, part_toNat big c1 hi, ← BitVec.toNat_inj]
    change _ * _ = 0 ↔ _ = 0
    rw [Nat.mul_eq_zero]
    exact or_iff_left (by positivity)
  have heq (i : Nat) (hi : i < 4) :
      part big c1 i = part big c2 i ↔ lane big c1 i = lane big c2 i := by
    rw [← BitVec.toNat_inj, part_toNat big c1 hi, part_toNat big c2 hi, ← BitVec.toNat_inj]
    exact Nat.mul_left_inj (by positivity)
  have hstop (i : Nat) (hi : i < 4) : (part big c1 i = 0 ∨ part big c1 i ≠ part big c2 i) ↔
      (lane big c1 i = 0 ∨ lane big c1 i ≠ lane big c2 i) := by
    rw [hzero i hi, ne_eq, heq i hi]
  have hgo (i : Nat) (hi : i < k) : ¬(part big c1 i = 0 ∨ part big c1 i ≠ part big c2 i) := by
    rw [hstop i (by omega), not_or, not_ne_iff]
    exact h.before i hi
  have hend := (hstop k hk).2 h.stop
  have hshift : shift big k ≤ 8 := by
    rw [shift]
    split
    · split
      · decide
      · decide
    · split
      · decide
      · decide
  have hvalue : resolve big c1 c2 = part big c1 k - part big c2 k := by
    rw [resolve]
    interval_cases k
    · rw [if_pos hend]
    · rw [if_neg (hgo 0 (by omega)), if_pos hend]
    · rw [if_neg (hgo 0 (by omega)), if_neg (hgo 1 (by omega)), if_pos hend]
    · rw [if_neg (hgo 0 (by omega)), if_neg (hgo 1 (by omega)), if_neg (hgo 2 (by omega))]
  rw [hvalue, sub_toInt hshift (part_toNat big c1 hk) (part_toNat big c2 hk), sign_diff_mul]

variable {mem : Addr → Byte} {s1 s2 : Addr}

/-- The characters of a string. -/
def charAt (mem : Addr → Byte) (s : Addr) (i : Nat) : Byte := mem (s + BitVec.ofNat 32 i)

theorem charAt_add (mem : Addr → Byte) (s : Addr) (n i : Nat) :
    charAt mem (s + BitVec.ofNat 32 n) i = charAt mem s (n + i) := by
  rw [charAt, charAt, BitVec.add_assoc, ← BitVec.ofNat_add]

theorem FirstStop.skip {n : Nat} (h : FirstStop (charAt mem s1) (charAt mem s2) (n + k)) :
    FirstStop (charAt mem (s1 + BitVec.ofNat 32 n)) (charAt mem (s2 + BitVec.ofNat 32 n)) k := by
  have hshift := h.shift
  refine ⟨?_, fun i hi => ?_⟩
  · rw [charAt_add, charAt_add]
    exact hshift.stop
  · rw [charAt_add, charAt_add]
    exact hshift.before i hi

/-- The loop over bytes ends where the strings differ. -/
theorem bytewise_sign (k : Nat) : ∀ s1 s2, FirstStop (charAt mem s1) (charAt mem s2) k →
    ∃ r, (∀ fuel, k < fuel → bytewise mem fuel s1 s2 = some r) ∧
      r.toInt.sign = (diff (charAt mem s1 k) (charAt mem s2 k)).sign := by
  have hsmall (x : Byte) : (x.setWidth 32).toNat = x.toNat * 2 ^ 0 := by
    have hx := x.isLt
    rw [BitVec.toNat_setWidth, Nat.pow_zero, Nat.mul_one, Nat.mod_eq_of_lt (by omega)]
  have hzero (x : Byte) : x.setWidth 32 = 0#32 ↔ x = 0 := by
    rw [← BitVec.toNat_inj, hsmall, ← BitVec.toNat_inj, Nat.pow_zero, Nat.mul_one]
    rfl
  have heq (x y : Byte) : x.setWidth 32 = y.setWidth 32 ↔ x = y := by
    rw [← BitVec.toNat_inj, hsmall, hsmall, ← BitVec.toNat_inj, Nat.pow_zero, Nat.mul_one,
      Nat.mul_one]
  have hfirst (s : Addr) : charAt mem s 0 = mem s := by rw [charAt, BitVec.add_zero]
  induction k with
  | zero =>
      intro s1 s2 h
      refine ⟨(mem s1).setWidth 32 - (mem s2).setWidth 32, fun fuel hfuel => ?_, ?_⟩
      · obtain ⟨fuel, rfl⟩ := Nat.exists_eq_add_of_lt hfuel
        have hstop := h.stop
        rw [hfirst, hfirst] at hstop
        rw [Nat.zero_add, bytewise, if_neg]
        rintro ⟨hne, hsame⟩
        rcases hstop with h | h
        · exact hne ((hzero _).2 h)
        · exact h ((heq _ _).1 hsame)
      · rw [hfirst, hfirst, sub_toInt (by omega) (hsmall _) (hsmall _), sign_diff_mul]
  | succ k ih =>
      intro s1 s2 h
      obtain ⟨hne, hsame⟩ := h.before 0 (by omega)
      rw [hfirst, hfirst] at hsame
      rw [hfirst] at hne
      rw [Nat.add_comm] at h
      obtain ⟨r, hr, hsign⟩ := ih _ _ h.skip
      rw [charAt_add, charAt_add] at hsign
      refine ⟨r, fun fuel hfuel => ?_, by rw [hsign, Nat.add_comm]⟩
      obtain ⟨fuel, rfl⟩ : ∃ n, fuel = n + 1 := ⟨fuel - 1, by omega⟩
      rw [bytewise, if_pos ⟨fun h => hne ((hzero _).1 h), (heq _ _).2 hsame⟩]
      exact hr fuel (by omega)

/-- The loop over words ends in the word in which the strings differ or end. -/
theorem wordwise_sign (big : Bool) (k : Nat) : ∀ s1 s2,
    FirstStop (charAt mem s1) (charAt mem s2) k →
      ∃ r, (∀ fuel, k / 4 < fuel → wordwise big mem fuel s1 s2 = some r) ∧
        r.toInt.sign = (diff (charAt mem s1 k) (charAt mem s2 k)).sign := by
  induction k using Nat.strongRecOn with
  | ind k ih =>
      intro s1 s2 h
      have hlane (s : Addr) (i : Nat) (hi : i < 4) :
          lane big (loadWord big mem s) i = charAt mem s i := lane_loadWord big mem s hi
      have hwords : loadWord big mem s1 = loadWord big mem s2 ↔
          ∀ i < 4, charAt mem s1 i = charAt mem s2 i := by
        rw [eq_iff_lanes big]
        refine forall₂_congr fun i hi => ?_
        rw [hlane s1 i hi, hlane s2 i hi]
      have hzero := has_zero_iff big (loadWord big mem s1)
      by_cases hk : k < 4
      · have hlanes : FirstStop (lane big (loadWord big mem s1))
            (lane big (loadWord big mem s2)) k := by
          refine ⟨?_, fun i hi => ?_⟩
          · rw [hlane s1 k hk, hlane s2 k hk]
            exact h.stop
          · rw [hlane s1 i (by omega), hlane s2 i (by omega)]
            exact h.before i hi
        by_cases hsame : loadWord big mem s1 = loadWord big mem s2
        · have heq := hwords.1 hsame k hk
          have hend : charAt mem s1 k = 0 := by
            rcases h.stop with hnul | hne
            · exact hnul
            · exact absurd heq hne
          refine ⟨0, fun fuel hfuel => ?_, ?_⟩
          · obtain ⟨fuel, rfl⟩ : ∃ n, fuel = n + 1 := ⟨fuel - 1, by omega⟩
            have htop := hzero.2 ⟨k, hk, (hlane s1 k hk).trans hend⟩
            have hmask : (loadWord big mem s1 - 0x01010101#32) &&& 0x80808080#32 ≠ 0 := by
              intro hv
              rw [hv] at htop
              simp at htop
            rw [wordwise, if_neg (not_not.2 hsame), if_pos ⟨hmask, htop⟩]
          · rw [← heq, diff, sub_self]
            rfl
        · refine ⟨resolve big (loadWord big mem s1) (loadWord big mem s2), fun fuel hfuel => ?_, ?_⟩
          · obtain ⟨fuel, rfl⟩ : ∃ n, fuel = n + 1 := ⟨fuel - 1, by omega⟩
            rw [wordwise, if_pos hsame]
          · rw [resolve_sign big hlanes hk, hlane s1 k hk, hlane s2 k hk]
      · -- the first words are the same, and no byte of them is zero
        have hsame := hwords.2 fun i hi => (h.before i (by omega)).2
        obtain ⟨j, rfl⟩ : ∃ j, k = 4 + j := ⟨k - 4, by omega⟩
        obtain ⟨r, hr, hsign⟩ := ih j (by omega) _ _ h.skip
        rw [charAt_add, charAt_add] at hsign
        refine ⟨r, fun fuel hfuel => ?_, hsign⟩
        obtain ⟨fuel, rfl⟩ : ∃ n, fuel = n + 1 := ⟨fuel - 1, by omega⟩
        rw [wordwise, if_neg (not_not.2 hsame), if_neg fun htop => ?_]
        · exact hr fuel (by omega)
        · obtain ⟨i, hi, hnul⟩ := hzero.1 htop.2
          exact (h.before i (by omega)).1 ((hlane s1 i hi).symm.trans hnul)

end Compare

section Lexicographic

variable {a b : Nat → Byte} {n1 n2 : Nat}

/-- A string of `n` characters. -/
structure EndsAt (a : Nat → Byte) (n : Nat) : Prop where
  nul : a n = 0
  nonzero : ∀ i < n, a i ≠ 0

/-- The characters of a string as numbers. -/
def bytesTo (a : Nat → Byte) (n : Nat) : List Nat := (List.range n).map fun i => (a i).toNat

theorem bytesTo_succ (a : Nat → Byte) (n : Nat) :
    bytesTo a (n + 1) = (a 0).toNat :: bytesTo (fun i => a (1 + i)) n := by
  simp [bytesTo, List.range_succ_eq_map, Function.comp_def, Nat.add_comm]

theorem EndsAt.tail {n : Nat} (h : EndsAt a (n + 1)) : EndsAt (fun i => a (1 + i)) n := by
  refine ⟨?_, fun i hi => h.nonzero (1 + i) (by omega)⟩
  rw [Nat.add_comm]
  exact h.nul

theorem exists_firstStop (ha : EndsAt a n1) (hb : EndsAt b n2) :
    ∃ k, FirstStop a b k ∧ k ≤ min n1 n2 := by
  have hex : ∃ k, a k = 0 ∨ a k ≠ b k := ⟨n1, .inl ha.nul⟩
  refine ⟨Nat.find hex, ⟨Nat.find_spec hex, fun i hi => ?_⟩, ?_⟩
  · have hmin := Nat.find_min hex hi
    rw [not_or, not_ne_iff] at hmin
    exact hmin
  · refine Nat.le_min.2 ⟨Nat.find_min' hex (.inl ha.nul), Nat.find_min' hex ?_⟩
    by_cases hend : a n2 = 0
    · exact .inl hend
    · exact .inr (by rwa [hb.nul])

theorem FirstStop.symm {k : Nat} (h : FirstStop a b k) : FirstStop b a k := by
  refine ⟨?_, fun i hi => ?_⟩
  · rcases h.stop with h | h
    · by_cases hb : b k = 0
      · exact .inl hb
      · exact .inr (by rwa [h])
    · exact .inr h.symm
  · obtain ⟨hne, hsame⟩ := h.before i hi
    exact ⟨hsame ▸ hne, hsame.symm⟩

/-- Strings are compared where they first differ. -/
theorem lt_iff_diff (k : Nat) : ∀ (a b : Nat → Byte) (n1 n2 : Nat), EndsAt a n1 → EndsAt b n2 →
    FirstStop a b k → ((bytesTo a n1 < bytesTo b n2 ↔ diff (a k) (b k) < 0) ∧
      (bytesTo a n1 = bytesTo b n2 ↔ diff (a k) (b k) = 0)) := by
  have hpos (x : Byte) (hx : x ≠ 0) : 0 < x.toNat := by
    rw [Nat.pos_iff_ne_zero, ← BitVec.toNat_zero, BitVec.toNat_ne_iff_ne]
    exact hx
  induction k with
  | zero =>
      intro a b n1 n2 ha hb h
      rw [diff]
      cases n1 with
      | zero =>
          have hazero : (a 0).toNat = 0 := by rw [ha.nul]; rfl
          cases n2 with
          | zero =>
              have hbzero : (b 0).toNat = 0 := by rw [hb.nul]; rfl
              simp [bytesTo, hazero, hbzero]
          | succ n2 =>
              have hbpos := hpos _ (hb.nonzero 0 (by omega))
              rw [bytesTo_succ]
              simp [bytesTo, hazero]
              omega
      | succ n1 =>
          have hapos := hpos _ (ha.nonzero 0 (by omega))
          cases n2 with
          | zero =>
              have hbzero : (b 0).toNat = 0 := by rw [hb.nul]; rfl
              rw [bytesTo_succ]
              simp [bytesTo, hbzero]
              omega
          | succ n2 =>
              have hne : (a 0).toNat ≠ (b 0).toNat := by
                rcases h.stop with h | h
                · exact absurd h (ha.nonzero 0 (by omega))
                · rwa [BitVec.toNat_ne_iff_ne]
              rw [bytesTo_succ, bytesTo_succ, List.cons_lt_cons_iff, List.cons.injEq]
              refine ⟨⟨fun h => ?_, fun h => .inl (by omega)⟩, fun h => absurd h.1 hne, fun h => ?_⟩
              · rcases h with h | h
                · omega
                · exact absurd h.1 hne
              · omega
  | succ k ih =>
      intro a b n1 n2 ha hb h
      obtain ⟨hne, hsame⟩ := h.before 0 (by omega)
      cases n1 with
      | zero => exact absurd ha.nul hne
      | succ n1 =>
          cases n2 with
          | zero => exact absurd (hsame.trans hb.nul) hne
          | succ n2 =>
              rw [Nat.add_comm] at h
              have htail := ih _ _ n1 n2 ha.tail hb.tail h.shift
              rw [bytesTo_succ, bytesTo_succ, List.cons_lt_cons_iff, List.cons.injEq, hsame,
                Nat.add_comm k]
              simpa using htail

/--
Whatever the alignments and the byte order, `strcmp` returns a number with the sign of the
lexicographic comparison of the strings as bytes without a sign, as the path over bytes does.
-/
theorem strcmp_sign (big : Bool) (mem : Addr → Byte) (s1 s2 : Addr) (n1 n2 : Nat)
    (h1 : EndsAt (charAt mem s1) n1) (h2 : EndsAt (charAt mem s2) n2) :
    ∃ r r', (∀ fuel, min n1 n2 < fuel →
        strcmp big mem fuel s1 s2 = some r ∧ bytewise mem fuel s1 s2 = some r') ∧
      r.toInt.sign = r'.toInt.sign ∧
      (r.toInt < 0 ↔ bytesTo (charAt mem s1) n1 < bytesTo (charAt mem s2) n2) ∧
      (r.toInt = 0 ↔ bytesTo (charAt mem s1) n1 = bytesTo (charAt mem s2) n2) ∧
      (0 < r.toInt ↔ bytesTo (charAt mem s2) n2 < bytesTo (charAt mem s1) n1) := by
  obtain ⟨k, hk, hle⟩ := exists_firstStop h1 h2
  obtain ⟨hlt, heq⟩ := lt_iff_diff k _ _ n1 n2 h1 h2 hk
  obtain ⟨hgt, -⟩ := lt_iff_diff k _ _ n2 n1 h2 h1 hk.symm
  have hanti : diff (charAt mem s2 k) (charAt mem s1 k) =
      -diff (charAt mem s1 k) (charAt mem s2 k) := by
    rw [diff, diff, Int.neg_sub]
  obtain ⟨r', hr', hsign'⟩ := bytewise_sign k s1 s2 hk
  obtain ⟨r, hr, hsign⟩ : ∃ r, (∀ fuel, k < fuel → strcmp big mem fuel s1 s2 = some r) ∧
      r.toInt.sign = (diff (charAt mem s1 k) (charAt mem s2 k)).sign := by
    by_cases haligned : (s1 ||| s2) &&& 3 ≠ 0
    · refine ⟨r', fun fuel hfuel => ?_, hsign'⟩
      rw [strcmp, if_pos haligned]
      exact hr' fuel hfuel
    · obtain ⟨r, hr, hsign⟩ := wordwise_sign big k s1 s2 hk
      refine ⟨r, fun fuel hfuel => ?_, hsign⟩
      rw [strcmp, if_neg haligned]
      exact hr fuel (by omega)
  refine ⟨r, r', fun fuel hfuel => ⟨hr fuel (by omega), hr' fuel (by omega)⟩,
    hsign.trans hsign'.symm, ?_, ?_, ?_⟩
  · rw [hlt, ← Int.sign_eq_neg_one_iff_neg, hsign, Int.sign_eq_neg_one_iff_neg]
  · rw [heq, ← Int.sign_eq_zero_iff_zero, hsign, Int.sign_eq_zero_iff_zero]
  · rw [hgt, hanti, ← Int.sign_eq_one_iff_pos, hsign, Int.sign_eq_one_iff_pos]
    omega

/-- A memory with the strings `a` at 0 and `ab` at 4. -/
def twoStrings (s : Addr) : Byte :=
  if s = 0 ∨ s = 4 then 0x61 else if s = 5 then 0x62 else 0

theorem strcmp_twoStrings : ∃ r, strcmp false twoStrings 2 0 4 = some r ∧ r.toInt < 0 := by
  obtain ⟨r, r', hr, -, hlt, -⟩ := strcmp_sign false twoStrings 0 4 1 2
    ⟨by decide, by decide⟩ ⟨by decide, by decide⟩
  exact ⟨r, (hr 2 (by decide)).1, hlt.2 (by decide)⟩

end Lexicographic

end Strcmp
end Libc
end F32c
