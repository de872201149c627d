import F32c.Fp.Lib

/-!
# Soft-float addition and subtraction

`__addsf3` and `__adddf3`, which are one text, and `__subsf3` and `__subdf3`, which
flip a sign and add.

The significands get three more bits. The smaller operand is shifted right to the
exponent of the larger one, and the last of the three bits is a sticky bit. When
the difference of two numbers has to be shifted back to the left, the sticky bit
moves with it; that is harmless, because a shift by more than one place only
happens when nothing had been lost.
-/

namespace F32c
namespace Fp

namespace FpLib

variable (L : FpLib)

/-- Whether one of two numbers is a zero, an infinity or a NaN. -/
def addDetect (a b : ℕ) : Prop :=
  wrapSub L.typeWidth L.infRep 1 ≤ wrapSub L.typeWidth (a &&& L.absMask) 1 ∨
    wrapSub L.typeWidth L.infRep 1 ≤ wrapSub L.typeWidth (b &&& L.absMask) 1

instance (a b : ℕ) : Decidable (L.addDetect a b) := by
  unfold addDetect
  infer_instance

/-- The results that need no sum. -/
def addSpecial (a b : ℕ) : Option ℕ :=
  let aAbs := a &&& L.absMask
  let bAbs := b &&& L.absMask
  if L.infRep < aAbs then
    some (a ||| L.quietBit)
  else if L.infRep < bAbs then
    some (b ||| L.quietBit)
  else if aAbs = L.infRep then
    if a ^^^ b = L.signBit then some L.qnanRep else some a
  else if bAbs = L.infRep then
    some b
  else if aAbs = 0 then
    if bAbs = 0 then some (a &&& b) else some b
  else if bAbs = 0 then
    some a
  else
    none

/-- The significand and the exponent of an operand, a denormal one normalized. -/
def unpack (a : ℕ) : ℕ × ℤ :=
  let exponent := a >>> L.significandBits &&& L.maxExponent
  if exponent = 0 then
    L.normalize (a &&& L.significandMask)
  else
    (a &&& L.significandMask, exponent)

/-- The significand of the smaller operand at the exponent of the larger one. -/
def alignSignificand (bSignificand : ℕ) (align : ℤ) : ℕ :=
  if align ≠ 0 then
    if align < L.typeWidth then
      let sticky := bit (L.shl bSignificand ((L.typeWidth : ℤ) - align).toNat ≠ 0)
      bSignificand >>> align.toNat ||| sticky
    else
      1
  else
    bSignificand

/-- The difference of the significands, with its exponent; nothing when it is zero. -/
def subtractSignificands (aSignificand bSignificand : ℕ) (aExponent : ℤ) : Option (ℕ × ℤ) :=
  let aSignificand := wrapSub L.typeWidth aSignificand bSignificand
  if aSignificand = 0 then
    none
  else if aSignificand < L.shl L.implicitBit 3 then
    let shift : ℤ := (L.repClz aSignificand : ℤ) - L.repClz (L.shl L.implicitBit 3)
    some (L.shl aSignificand shift.toNat, aExponent - shift)
  else
    some (aSignificand, aExponent)

/-- The sum of the significands, with its exponent. -/
def addSignificands (aSignificand bSignificand : ℕ) (aExponent : ℤ) : ℕ × ℤ :=
  let aSignificand := (aSignificand + bSignificand) % 2 ^ L.typeWidth
  if aSignificand &&& L.shl L.implicitBit 4 ≠ 0 then
    let sticky := bit (aSignificand &&& 1 ≠ 0)
    (aSignificand >>> 1 ||| sticky, aExponent + 1)
  else
    (aSignificand, aExponent)

/-- From the sum's significand and exponent to the result. -/
def finishSum (resultSign aSignificand : ℕ) (aExponent : ℤ) : ℕ :=
  if (L.maxExponent : ℤ) ≤ aExponent then
    L.infRep ||| resultSign
  else
    let (aSignificand, aExponent) :=
      if aExponent ≤ 0 then
        let shift := 1 - aExponent
        let sticky := bit (L.shl aSignificand ((L.typeWidth : ℤ) - shift).toNat ≠ 0)
        (aSignificand >>> shift.toNat ||| sticky, 0)
      else
        (aSignificand, aExponent.toNat)
    let roundGuardSticky := aSignificand &&& 0x7
    let result := aSignificand >>> 3 &&& L.significandMask
    let result := result ||| L.shl aExponent L.significandBits
    let result := result ||| resultSign
    L.roundRep 0x4 roundGuardSticky result

/-- The sum of two finite numbers, the first of which is not the smaller one. -/
def addOrdered (aRep bRep : ℕ) : ℕ :=
  let (aSignificand, aExponent) := L.unpack aRep
  let (bSignificand, bExponent) := L.unpack bRep
  let resultSign := aRep &&& L.signBit
  let subtraction := (aRep ^^^ bRep) &&& L.signBit
  let aSignificand := L.shl (aSignificand ||| L.implicitBit) 3
  let bSignificand := L.shl (bSignificand ||| L.implicitBit) 3
  let bSignificand := L.alignSignificand bSignificand (aExponent - bExponent)
  if subtraction ≠ 0 then
    match L.subtractSignificands aSignificand bSignificand aExponent with
    | none => 0
    | some (aSignificand, aExponent) => L.finishSum resultSign aSignificand aExponent
  else
    let (aSignificand, aExponent) := L.addSignificands aSignificand bSignificand aExponent
    L.finishSum resultSign aSignificand aExponent

/-- The text of `__addsf3` and `__adddf3`. -/
def addXf3 (a b : ℕ) : ℕ :=
  let swapped :=
    if b &&& L.absMask > a &&& L.absMask then L.addOrdered b a else L.addOrdered a b
  if L.addDetect a b then
    match L.addSpecial a b with
    | some r => r
    | none => swapped
  else
    swapped

end FpLib

/-- `__addsf3` -/
def addsf3 (overshift : ℕ → ℕ → ℕ) (a b : ℕ) : ℕ :=
  (single overshift).addXf3 a b

/-- `__adddf3` -/
def adddf3 (overshift : ℕ → ℕ → ℕ) (a b : ℕ) : ℕ :=
  (double overshift).addXf3 a b

/-- `__subsf3` -/
def subsf3 (overshift : ℕ → ℕ → ℕ) (a b : ℕ) : ℕ :=
  addsf3 overshift a (b ^^^ (single overshift).signBit)

/-- `__subdf3` -/
def subdf3 (overshift : ℕ → ℕ → ℕ) (a b : ℕ) : ℕ :=
  adddf3 overshift a (b ^^^ (double overshift).signBit)


section Finishing

variable {L : FpLib} {n m : ℕ} {e : ℤ}

open FpLib

/-- A quotient of at least one unit is not shifted out by the denormalizing shift. -/
theorem shift_le_of_scaled (hn : 1 ≤ n) (h : Scaled 3 n 1 e m)
    (hm : m < 2 ^ (L.significandBits + 4)) (he : e ≤ 0) :
    (1 - e).toNat ≤ L.significandBits := by
  have hup : (e - 1).toNat = 0 := by omega
  rw [Scaled, hup, pow_zero, Nat.one_mul] at h
  have hbound : 2 ^ (L.significandBits + 4) = 4 * 2 ^ (L.significandBits + 2) := by
    rw [show L.significandBits + 4 = 2 + (L.significandBits + 2) by omega, pow_add,
      show (2 : ℕ) ^ 2 = 4 by decide]
  rw [hbound] at hm
  have hlt := (h.lt_iff _).2 hm
  rw [← hbound, Nat.mul_one] at hlt
  by_contra hbig
  have h1 : 2 ^ (L.significandBits + 1) ≤ 2 ^ (1 - e).toNat :=
    Nat.pow_le_pow_right (by decide) (by omega)
  have h2 : 1 * 2 ^ 3 * 2 ^ (L.significandBits + 1) ≤ n * 2 ^ 3 * 2 ^ (1 - e).toNat :=
    Nat.mul_le_mul (Nat.mul_le_mul_right _ hn) h1
  have h3 : 1 * 2 ^ 3 * 2 ^ (L.significandBits + 1) = 2 ^ (L.significandBits + 4) := by
    rw [Nat.one_mul, ← pow_add]
    congr 1
    omega
  omega

/-- From a normalized significand with three more bits to the nearest number. -/
theorem finishSum_rounds (hL : L.Lawful) (s : Bool) (hn : 1 ≤ n)
    (hlower : 2 ^ (L.significandBits + 3) ≤ m) (hupper : m < 2 ^ (L.significandBits + 4))
    (h : Scaled 3 n 1 e m) :
    ∃ r, L.finishSum (L.withSign s 0) m e = L.withSign s r ∧
      Nearest L.significandBits L.infRep n 1 r := by
  have hmax := hL.seven_le_maxExponent
  have hwidth := hL.typeWidth_eq
  have hinf := infRep_lt L
  have hseven : ∀ x : ℕ, x &&& 0x7 = x % 2 ^ 3 := fun x => Nat.and_two_pow_sub_one_eq_mod x 3
  unfold finishSum
  by_cases hover : (L.maxExponent : ℤ) ≤ e
  · refine ⟨L.infRep, ?_, ?_⟩
    · rw [if_pos hover, or_withSign s hinf]
    · rw [infRep_eq]
      apply nearest_of_overflow (by decide) (Nat.le_refl 3) (by omega) h _ hover
      rwa [← pow_add]
  rw [if_neg hover]
  by_cases hunder : e ≤ 0
  · -- the significand is moved to where the denormals are
    have hshift := shift_le_of_scaled hn h hupper hunder
    have hnearest := nearest_of_denormal (p := L.significandBits) L.maxExponent
      (by decide) (Nat.le_refl 3) (by omega) h (by rwa [Nat.add_assoc]) hunder
    rw [← infRep_eq] at hnearest
    refine ⟨_, ?_, hnearest⟩
    have hjam : jam m (1 - e).toNat < 2 ^ (L.significandBits + 2 + 1) := by
      apply jam_lt
      apply Nat.lt_of_lt_of_le hupper
      exact Nat.pow_le_pow_right (by decide) (by omega)
    have hden : jam m (1 - e).toNat / 2 ^ 3 < 2 ^ L.significandBits := by
      rw [Nat.div_lt_iff_lt_mul (by decide), ← pow_add]
      exact hjam
    have hlt : jam m (1 - e).toNat / 2 ^ 3 < L.infRep := by
      apply Nat.lt_of_lt_of_le hden
      rw [infRep_eq]
      exact Nat.le_mul_of_pos_left _ (by omega)
    have hcount : ((L.typeWidth : ℤ) - (1 - e)).toNat = L.typeWidth - (1 - e).toNat := by omega
    have hsticky := shift_sticky_eq (L := L) (k := (1 - e).toNat) (by omega) (by omega) m
    have hzero : L.shl 0 L.significandBits = 0 := by
      rw [shl_eq (by omega) (by rw [Nat.zero_mul]; exact Nat.two_pow_pos _), Nat.zero_mul]
    simp only [if_pos hunder, hcount, hsticky]
    rw [hseven, and_significandMask, Nat.shiftRight_eq_div_pow, Nat.mod_eq_of_lt hden, hzero,
      Nat.or_zero, or_withSign s (by omega)]
    exact roundRep_eq hL s (w := 3) hlt
  · obtain ⟨x, rfl⟩ : ∃ x : ℕ, e = x := ⟨e.toNat, by omega⟩
    have hsplit := Nat.div_add_mod m (2 ^ 3)
    obtain ⟨f, hf⟩ : ∃ f, m / 2 ^ 3 = 2 ^ L.significandBits + f := by
      refine ⟨m / 2 ^ 3 - 2 ^ L.significandBits, ?_⟩
      rw [pow_add] at hlower
      omega
    have hflt : f < 2 ^ L.significandBits := by
      rw [show L.significandBits + 4 = L.significandBits + 1 + 3 by omega, pow_add,
        pow_succ 2 L.significandBits] at hupper
      omega
    have hx : x < L.maxExponent := by omega
    have hlt : x * 2 ^ L.significandBits + f < L.infRep := by
      have := Nat.mul_le_mul_right (2 ^ L.significandBits) (show x + 1 ≤ L.maxExponent by omega)
      rw [Nat.add_mul] at this
      rw [infRep_eq]
      omega
    have hwide : L.infRep < 2 ^ L.typeWidth := by
      apply Nat.lt_of_lt_of_le hinf
      exact Nat.pow_le_pow_right (by decide) (by omega)
    have hmask : (2 ^ L.significandBits + f) &&& L.significandMask = f := by
      rw [and_significandMask, Nat.add_mod_left, Nat.mod_eq_of_lt hflt]
    have hpacked : f ||| L.shl x L.significandBits = x * 2 ^ L.significandBits + f := by
      rw [shl_eq (by omega) (by omega), Nat.or_comm, Nat.mul_comm,
        Nat.two_pow_add_eq_or_of_lt hflt]
    have hstring : m = (2 ^ L.significandBits + f) * 2 ^ 3 + m % 2 ^ 3 := by
      rw [← hf]
      omega
    rw [hstring] at h
    have hnearest := nearest_of_normal L.maxExponent (by decide)
      (Nat.le_refl 3) (Nat.mod_lt m (by decide)) hflt (by omega) hx h
    rw [← infRep_eq] at hnearest
    refine ⟨_, ?_, hnearest⟩
    simp only [if_neg hunder]
    rw [hseven, Nat.shiftRight_eq_div_pow, hf, hmask, Int.toNat_natCast, hpacked,
      or_withSign s (by omega)]
    exact roundRep_eq hL s (w := 3) hlt

end Finishing


section Aligning

variable {L : FpLib} {x y sa sb : ℕ} {ea eb : ℤ}

open FpLib

/-- The larger of two magnitudes does not have the smaller exponent. -/
theorem exponent_mono (hx : Unpacked L x sa ea) (hy : Unpacked L y sb eb) (hle : y ≤ x) :
    eb ≤ ea := by
  by_contra hlt
  have hmag : mag L.significandBits y ≤ mag L.significandBits x := mag_le_mag.2 hle
  have hvx := hx.value
  have hvy := hy.value
  obtain ⟨u, hu⟩ : ∃ u, (1 - ea).toNat = u := ⟨_, rfl⟩
  obtain ⟨u', hu'⟩ : ∃ u', (ea - 1).toNat = u' := ⟨_, rfl⟩
  obtain ⟨v, hv⟩ : ∃ v, (1 - eb).toNat = v := ⟨_, rfl⟩
  obtain ⟨v', hv'⟩ : ∃ v', (eb - 1).toNat = v' := ⟨_, rfl⟩
  rw [hu, hu'] at hvx
  rw [hv, hv'] at hvy
  have hexp : u' + v + 1 ≤ v' + u := by omega
  have hsmall : sa * 2 ^ (u' + v) < 2 ^ (L.significandBits + 1) * 2 ^ (u' + v) :=
    Nat.mul_lt_mul_of_pos_right hx.upper (Nat.two_pow_pos _)
  have hlarge : 2 ^ (L.significandBits + 1) * 2 ^ (u' + v)
      ≤ 2 ^ L.significandBits * 2 ^ (v' + u) := by
    rw [← pow_add, ← pow_add]
    exact Nat.pow_le_pow_right (by decide) (by omega)
  have hstring : 2 ^ L.significandBits * 2 ^ (v' + u) ≤ sb * 2 ^ (v' + u) :=
    Nat.mul_le_mul_right _ hy.lower
  have hcross : sb * 2 ^ (v' + u) ≤ sa * 2 ^ (u' + v) := by
    calc sb * 2 ^ (v' + u) = mag L.significandBits y * (2 ^ v * 2 ^ u) := by
          rw [pow_add, ← Nat.mul_assoc, ← hvy, Nat.mul_assoc]
      _ ≤ mag L.significandBits x * (2 ^ v * 2 ^ u) := Nat.mul_le_mul_right _ hmag
      _ = mag L.significandBits x * 2 ^ u * 2 ^ v := by ring
      _ = sa * 2 ^ (u' + v) := by rw [hvx, pow_add, Nat.mul_assoc]
  omega

/-- The value of the smaller operand at the exponent of the larger one. -/
theorem aligned_value (hy : Unpacked L y sb eb) {k : ℕ} (hk : eb + k = ea) :
    mag L.significandBits y * 2 ^ (1 - ea).toNat * 2 ^ k = sb * 2 ^ (ea - 1).toNat := by
  have hvy := hy.value
  obtain ⟨u, hu⟩ : ∃ u, (1 - ea).toNat = u := ⟨_, rfl⟩
  obtain ⟨u', hu'⟩ : ∃ u', (ea - 1).toNat = u' := ⟨_, rfl⟩
  obtain ⟨v, hv⟩ : ∃ v, (1 - eb).toNat = v := ⟨_, rfl⟩
  obtain ⟨v', hv'⟩ : ∃ v', (eb - 1).toNat = v' := ⟨_, rfl⟩
  rw [hv, hv'] at hvy
  rw [hu, hu']
  apply Nat.eq_of_mul_eq_mul_right (Nat.two_pow_pos v)
  calc mag L.significandBits y * 2 ^ u * 2 ^ k * 2 ^ v
      = mag L.significandBits y * 2 ^ v * 2 ^ (u + k) := by
        rw [pow_add]
        ring
    _ = sb * 2 ^ (v' + (u + k)) := by rw [hvy, pow_add 2 v', Nat.mul_assoc]
    _ = sb * 2 ^ u' * 2 ^ v := by
        rw [show v' + (u + k) = u' + v by omega, pow_add, Nat.mul_assoc]

/-- The shifted significand agrees with the exact quotient on even numbers. -/
theorem alignSignificand_agrees {b k : ℕ} (h0 : 0 < b)
    (hb : b < 2 ^ L.typeWidth) : Agrees 2 b (2 ^ k) (L.alignSignificand b k) := by
  rw [alignSignificand]
  by_cases hk0 : k = 0
  · subst hk0
    have := Agrees.exact (d := 1) (by decide) 2 b
    rw [Nat.mul_one] at this
    simpa using this
  rw [if_pos (by omega)]
  by_cases hfar : k < L.typeWidth
  · have hsticky := shift_sticky_eq (L := L) (k := k) (by omega) (by omega) b
    have hexact := Agrees.exact (d := 1) (by decide) 1 b
    rw [Nat.mul_one] at hexact
    have hjam := hexact.jam (k := k) (one_dvd _)
    rw [Nat.one_mul] at hjam
    rw [if_pos (by omega), show ((L.typeWidth : ℤ) - (k : ℤ)).toNat = L.typeWidth - k by omega,
      Int.toNat_natCast]
    simp only [hsticky]
    exact hjam
  · -- all of it is below the sticky bit
    rw [if_neg (by omega)]
    have hbig : b < 2 ^ k :=
      Nat.lt_of_lt_of_le hb (Nat.pow_le_pow_right (by decide) (by omega))
    intro c
    rcases Nat.eq_zero_or_pos c with rfl | hc
    · simp
      omega
    · have h1 : 1 * 2 ^ k ≤ 2 * c * 2 ^ k := Nat.mul_le_mul_right _ (by omega)
      omega

/-- Nothing is lost by a shift of at most one place. -/
theorem alignSignificand_exact (hL : L.Lawful) {s k : ℕ} (hk : k ≤ 1) :
    L.alignSignificand (s * 2 ^ 3) k * 2 ^ k = s * 2 ^ 3 := by
  have hthree := hL.three_le_typeWidth
  rw [alignSignificand]
  obtain rfl | rfl : k = 0 ∨ k = 1 := by omega
  · simp
  · have hsticky := shift_sticky_eq (L := L) (k := 1) (by omega) (by omega) (s * 2 ^ 3)
    rw [if_pos (by omega), if_pos (by omega),
      show ((L.typeWidth : ℤ) - ((1 : ℕ) : ℤ)).toNat = L.typeWidth - 1 by omega,
      Int.toNat_natCast]
    simp only [hsticky]
    rw [jam_eq, if_pos (by omega)]
    omega

/-- A significand that has been shifted by two places or more is less than half as large. -/
theorem alignSignificand_lt {b k c : ℕ} (hk : 2 ≤ k) (hb : b < 2 ^ (c + 1 + 2)) :
    L.alignSignificand b k < 2 ^ (c + 1) := by
  have hone : 1 < 2 ^ (c + 1) := Nat.one_lt_two_pow (by omega)
  rw [alignSignificand, if_pos (by omega)]
  split
  next hfar =>
    have hsticky := shift_sticky_eq (L := L) (k := k) (by omega) (by omega) b
    rw [show ((L.typeWidth : ℤ) - (k : ℤ)).toNat = L.typeWidth - k by omega, Int.toNat_natCast]
    simp only [hsticky]
    apply jam_lt
    apply Nat.lt_of_lt_of_le hb
    exact Nat.pow_le_pow_right (by decide) (by omega)
  next hfar =>
    exact hone

/-- The quotient of a sum at its exponent, from the exact sum of the shifted significands. -/
theorem scaled_of_agrees {n num k m : ℕ} {e : ℤ} (h : Agrees 4 num (2 ^ k) m)
    (hvalue : n * 2 ^ 3 * 2 ^ (1 - e).toNat * 2 ^ k = num * 2 ^ (e - 1).toNat) :
    Scaled 3 n 1 e m := by
  apply h.congr (Nat.two_pow_pos k) (by positivity)
  rw [Nat.one_mul, hvalue]

/-- One place to the right, and the next exponent. -/
theorem scaled_jam_one {n k num m : ℕ} {e : ℤ} (h : Agrees 2 num (2 ^ k) m)
    (hvalue : n * 2 ^ 3 * 2 ^ (1 - e).toNat * 2 ^ k = num * 2 ^ (e - 1).toNat) :
    Scaled 3 n 1 (e + 1) (jam m 1) := by
  have hjam := (h.jam (k := 1) ⟨2, by decide⟩).of_dvd (k := 4) ⟨2, by decide⟩
  rw [← pow_add] at hjam
  apply scaled_of_agrees hjam
  obtain ⟨u, hu⟩ : ∃ u, (1 - e).toNat = u := ⟨_, rfl⟩
  obtain ⟨u', hu'⟩ : ∃ u', (e - 1).toNat = u' := ⟨_, rfl⟩
  obtain ⟨v, hv⟩ : ∃ v, (1 - (e + 1)).toNat = v := ⟨_, rfl⟩
  obtain ⟨v', hv'⟩ : ∃ v', (e + 1 - 1).toNat = v' := ⟨_, rfl⟩
  rw [hu, hu'] at hvalue
  rw [hv, hv']
  apply Nat.eq_of_mul_eq_mul_right (Nat.two_pow_pos u)
  calc n * 2 ^ 3 * 2 ^ v * 2 ^ (k + 1) * 2 ^ u
      = n * 2 ^ 3 * 2 ^ u * 2 ^ k * 2 ^ (v + 1) := by
        rw [pow_add 2 k, pow_add 2 v]
        ring
    _ = num * 2 ^ (u' + (v + 1)) := by rw [hvalue, pow_add 2 u', Nat.mul_assoc]
    _ = num * 2 ^ v' * 2 ^ u := by
        rw [show u' + (v + 1) = v' + u by omega, pow_add, Nat.mul_assoc]

/-- Some places to the left, and an exponent less by as much. -/
theorem scaled_shiftLeft {n k num m t : ℕ} {e : ℤ}
    (h : Agrees 4 (num * 2 ^ t) (2 ^ k) (m * 2 ^ t))
    (hvalue : n * 2 ^ 3 * 2 ^ (1 - e).toNat * 2 ^ k = num * 2 ^ (e - 1).toNat) :
    Scaled 3 n 1 (e - t) (m * 2 ^ t) := by
  apply scaled_of_agrees h
  obtain ⟨u, hu⟩ : ∃ u, (1 - e).toNat = u := ⟨_, rfl⟩
  obtain ⟨u', hu'⟩ : ∃ u', (e - 1).toNat = u' := ⟨_, rfl⟩
  obtain ⟨v, hv⟩ : ∃ v, (1 - (e - t)).toNat = v := ⟨_, rfl⟩
  obtain ⟨v', hv'⟩ : ∃ v', (e - t - 1).toNat = v' := ⟨_, rfl⟩
  rw [hu, hu'] at hvalue
  rw [hv, hv']
  apply Nat.eq_of_mul_eq_mul_right (Nat.two_pow_pos u)
  calc n * 2 ^ 3 * 2 ^ v * 2 ^ k * 2 ^ u
      = n * 2 ^ 3 * 2 ^ u * 2 ^ k * 2 ^ v := by ring
    _ = num * 2 ^ (u' + v) := by rw [hvalue, pow_add 2 u', Nat.mul_assoc]
    _ = num * 2 ^ t * 2 ^ v' * 2 ^ u := by
        rw [show u' + v = t + v' + u by omega, pow_add, pow_add]
        ring

end Aligning


section Summing

variable {L : FpLib} {x y sa sb k : ℕ} {ea eb : ℤ}

open FpLib

/-- The significand of an operand with its three more bits. -/
theorem shl_three (hL : L.Lawful) {s : ℕ} (hs : s < 2 ^ (L.significandBits + 1)) :
    L.shl s 3 = s * 2 ^ 3 := by
  have hwidth := hL.typeWidth_eq
  have hexp := hL.four_le_exponentBits
  apply shl_eq (by omega)
  have h1 : s * 2 ^ 3 < 2 ^ (L.significandBits + 1) * 2 ^ 3 :=
    Nat.mul_lt_mul_of_pos_right hs (by decide)
  rw [← pow_add] at h1
  exact Nat.lt_of_lt_of_le h1 (Nat.pow_le_pow_right (by decide) (by omega))

/-- The aligned significand has no more bits than the one it comes from. -/
theorem alignSignificand_upper (hL : L.Lawful) (hs : sb < 2 ^ (L.significandBits + 1)) :
    L.alignSignificand (sb * 2 ^ 3) k < 2 ^ (L.significandBits + 4) := by
  have hb : sb * 2 ^ 3 < 2 ^ (L.significandBits + 4) := by
    rw [show L.significandBits + 4 = L.significandBits + 1 + 3 by omega, pow_add]
    exact Nat.mul_lt_mul_of_pos_right hs (Nat.two_pow_pos 3)
  rcases Nat.lt_or_ge k 2 with hk | hk
  · have hexact := alignSignificand_exact hL (s := sb) (show k ≤ 1 by omega)
    have := Nat.le_mul_of_pos_right (L.alignSignificand (sb * 2 ^ 3) k) (Nat.two_pow_pos k)
    omega
  · have := alignSignificand_lt (L := L) (c := L.significandBits + 1) hk (by
      rwa [show L.significandBits + 1 + 1 + 2 = L.significandBits + 4 by omega])
    apply Nat.lt_of_lt_of_le this
    exact Nat.pow_le_pow_right (by decide) (by omega)

/-- The significand of the smaller operand agrees with its value at the larger exponent. -/
theorem aligned_agrees (hL : L.Lawful) (hy : Unpacked L y sb eb) :
    Agrees 2 (sb * 2 ^ 3) (2 ^ k) (L.alignSignificand (sb * 2 ^ 3) k) := by
  have hwidth := hL.typeWidth_eq
  have hexp := hL.four_le_exponentBits
  apply alignSignificand_agrees
  · have := hy.lower
    have := Nat.two_pow_pos L.significandBits
    omega
  · have h1 : sb * 2 ^ 3 < 2 ^ (L.significandBits + 1) * 2 ^ 3 :=
      Nat.mul_lt_mul_of_pos_right hy.upper (by decide)
    rw [← pow_add] at h1
    exact Nat.lt_of_lt_of_le h1 (Nat.pow_le_pow_right (by decide) (by omega))

/-- The significand of the larger operand, with its three more bits. -/
theorem upper_lower (hx : Unpacked L x sa ea) :
    2 ^ (L.significandBits + 3) ≤ sa * 2 ^ 3 ∧ sa * 2 ^ 3 < 2 ^ (L.significandBits + 4) := by
  rw [show L.significandBits + 4 = L.significandBits + 1 + 3 by omega,
    pow_add 2 (L.significandBits + 1) 3, pow_add 2 L.significandBits 3]
  exact ⟨Nat.mul_le_mul_right _ hx.lower,
    Nat.mul_lt_mul_of_pos_right hx.upper (Nat.two_pow_pos 3)⟩

/-- The sum of two significands is the nearest number to the exact sum, once finished. -/
theorem addSignificands_rounds (hL : L.Lawful) (s : Bool) (hx : Unpacked L x sa ea)
    (hy : Unpacked L y sb eb) (hpos : 0 < x) (hk : eb + k = ea) :
    ∃ r, L.finishSum (L.withSign s 0)
        (L.addSignificands (sa * 2 ^ 3) (L.alignSignificand (sb * 2 ^ 3) k) ea).1
        (L.addSignificands (sa * 2 ^ 3) (L.alignSignificand (sb * 2 ^ 3) k) ea).2
          = L.withSign s r ∧
      Nearest L.significandBits L.infRep
        (mag L.significandBits x + mag L.significandBits y) 1 r := by
  have hwidth := hL.typeWidth_eq
  have hexp := hL.four_le_exponentBits
  have hn : 1 ≤ mag L.significandBits x + mag L.significandBits y := by
    have := (mag_pos (p := L.significandBits)).2 hpos
    omega
  have hsum := (aligned_agrees (k := k) hL hy).add (a := sa * 2 ^ 3) ⟨sa * 2 ^ 2, by ring⟩
  have hvalue : (mag L.significandBits x + mag L.significandBits y) * 2 ^ 3
      * 2 ^ (1 - ea).toNat * 2 ^ k
      = (sa * 2 ^ 3 * 2 ^ k + sb * 2 ^ 3) * 2 ^ (ea - 1).toNat := by
    have hvx := hx.value
    have hvy := aligned_value hy hk
    calc (mag L.significandBits x + mag L.significandBits y) * 2 ^ 3
          * 2 ^ (1 - ea).toNat * 2 ^ k
        = (mag L.significandBits x * 2 ^ (1 - ea).toNat) * (2 ^ 3 * 2 ^ k)
            + (mag L.significandBits y * 2 ^ (1 - ea).toNat * 2 ^ k) * 2 ^ 3 := by ring
      _ = (sa * 2 ^ 3 * 2 ^ k + sb * 2 ^ 3) * 2 ^ (ea - 1).toNat := by
          rw [hvx, hvy]
          ring
  obtain ⟨hal, hau⟩ := upper_lower hx
  have hbu := alignSignificand_upper (k := k) hL hy.upper
  generalize L.alignSignificand (sb * 2 ^ 3) k = b at *
  have hroom : sa * 2 ^ 3 + b < 2 ^ (L.significandBits + 4 + 1) := by
    rw [pow_succ]
    omega
  have hwrap : (sa * 2 ^ 3 + b) % 2 ^ L.typeWidth = sa * 2 ^ 3 + b := by
    apply Nat.mod_eq_of_lt
    exact Nat.lt_of_lt_of_le hroom (Nat.pow_le_pow_right (by decide) (by omega))
  have hbit : L.shl L.implicitBit 4 = 2 ^ (L.significandBits + 4) := by
    rw [implicitBit_eq, shl_eq (by omega), ← pow_add]
    rw [← pow_add]
    exact Nat.pow_lt_pow_right (by decide) (by omega)
  rw [addSignificands, hwrap, hbit]
  simp only
  by_cases hcarry : sa * 2 ^ 3 + b &&& 2 ^ (L.significandBits + 4) ≠ 0
  · -- the sum has one place more
    rw [if_pos hcarry]
    rw [and_two_pow_ne_zero hroom] at hcarry
    have hsticky : (sa * 2 ^ 3 + b) >>> 1 ||| bit ((sa * 2 ^ 3 + b) &&& 1 ≠ 0)
        = jam (sa * 2 ^ 3 + b) 1 := by
      rw [Nat.shiftRight_eq_div_pow, Nat.and_one_is_mod, jam, bit, pow_one]
      by_cases h0 : (sa * 2 ^ 3 + b) % 2 = 0
      · rw [if_pos h0, if_neg (by omega)]
      · rw [if_neg h0, if_pos h0]
    simp only [hsticky]
    apply finishSum_rounds hL s hn _ _ (scaled_jam_one hsum hvalue)
    · have hle : (sa * 2 ^ 3 + b) / 2 ^ 1 ≤ jam (sa * 2 ^ 3 + b) 1 := Nat.left_le_or
      apply Nat.le_trans _ hle
      rw [Nat.le_div_iff_mul_le (by decide), ← pow_add]
      exact hcarry
    · exact jam_lt (b := L.significandBits + 3) hroom
  · rw [if_neg hcarry]
    rw [and_two_pow_ne_zero hroom] at hcarry
    apply finishSum_rounds hL s hn _ (by omega)
      (scaled_of_agrees (hsum.of_dvd ⟨2, by decide⟩) hvalue)
    exact Nat.le_trans hal (Nat.le_add_right _ _)

/-- The exact difference at the exponent of the larger operand. -/
theorem difference_value (hx : Unpacked L x sa ea) (hy : Unpacked L y sb eb)
    (hk : eb + k = ea) :
    (mag L.significandBits x - mag L.significandBits y) * 2 ^ 3 * 2 ^ (1 - ea).toNat * 2 ^ k
      = (sa * 2 ^ 3 * 2 ^ k - sb * 2 ^ 3) * 2 ^ (ea - 1).toNat := by
  have hvx := hx.value
  have hvy := aligned_value hy hk
  calc (mag L.significandBits x - mag L.significandBits y) * 2 ^ 3 * 2 ^ (1 - ea).toNat * 2 ^ k
      = (mag L.significandBits x * 2 ^ (1 - ea).toNat) * (2 ^ 3 * 2 ^ k)
          - (mag L.significandBits y * 2 ^ (1 - ea).toNat * 2 ^ k) * 2 ^ 3 := by
        rw [Nat.sub_mul, Nat.sub_mul, Nat.sub_mul]
        congr 1 <;> ring
    _ = (sa * 2 ^ 3 * 2 ^ k - sb * 2 ^ 3) * 2 ^ (ea - 1).toNat := by
        rw [hvx, hvy, Nat.sub_mul]
        congr 1 <;> ring

/-- The aligned significand can be taken away from the larger one. -/
theorem difference_agrees (hL : L.Lawful) (hx : Unpacked L x sa ea) (hy : Unpacked L y sb eb)
    (hk : eb + k = ea) (hle : y ≤ x) :
    sb * 2 ^ 3 ≤ sa * 2 ^ 3 * 2 ^ k ∧ L.alignSignificand (sb * 2 ^ 3) k ≤ sa * 2 ^ 3 ∧
      Agrees 2 (sa * 2 ^ 3 * 2 ^ k - sb * 2 ^ 3) (2 ^ k)
        (sa * 2 ^ 3 - L.alignSignificand (sb * 2 ^ 3) k) := by
  have hvx := hx.value
  have hvy := aligned_value hy hk
  have hmag : mag L.significandBits y ≤ mag L.significandBits x := mag_le_mag.2 hle
  have hexact : sb * 2 ^ 3 ≤ sa * 2 ^ 3 * 2 ^ k := by
    apply Nat.le_of_mul_le_mul_right _ (Nat.two_pow_pos (ea - 1).toNat)
    calc sb * 2 ^ 3 * 2 ^ (ea - 1).toNat
        = mag L.significandBits y * (2 ^ (1 - ea).toNat * 2 ^ k * 2 ^ 3) := by
          rw [Nat.mul_right_comm, ← hvy]
          ring
      _ ≤ mag L.significandBits x * (2 ^ (1 - ea).toNat * 2 ^ k * 2 ^ 3) :=
          Nat.mul_le_mul_right _ hmag
      _ = mag L.significandBits x * 2 ^ (1 - ea).toNat * (2 ^ k * 2 ^ 3) := by ring
      _ = sa * 2 ^ 3 * 2 ^ k * 2 ^ (ea - 1).toNat := by
          rw [hvx]
          ring
  have hagrees := aligned_agrees (k := k) hL hy
  refine ⟨hexact, ?_, hagrees.sub ⟨sa * 2 ^ 2, by ring⟩ hexact⟩
  have hlt := hagrees.lt_iff (sa * 2 ^ 2)
  have h1 := (hagrees (sa * 2 ^ 2)).1
  rw [show 2 * (sa * 2 ^ 2) = sa * 2 ^ 3 by ring] at h1
  omega

/-- The subtraction does not wrap. -/
theorem subtract_wrap (hL : L.Lawful) (hx : Unpacked L x sa ea) {b : ℕ} (hb : b ≤ sa * 2 ^ 3) :
    wrapSub L.typeWidth (sa * 2 ^ 3) b = sa * 2 ^ 3 - b := by
  have hwidth := hL.typeWidth_eq
  have hexp := hL.four_le_exponentBits
  have hfit : sa * 2 ^ 3 < 2 ^ L.typeWidth :=
    Nat.lt_of_lt_of_le (upper_lower hx).2 (Nat.pow_le_pow_right (by decide) (by omega))
  rw [wrapSub, show sa * 2 ^ 3 + 2 ^ L.typeWidth - b = sa * 2 ^ 3 - b + 2 ^ L.typeWidth by omega,
    Nat.add_mod_right, Nat.mod_eq_of_lt (by omega)]

/-- Two operands of the same value leave nothing. -/
theorem subtractSignificands_none (hL : L.Lawful) (hx : Unpacked L x sa ea)
    (hy : Unpacked L y sb eb) (hk : eb + k = ea) (hle : y ≤ x)
    (h : L.subtractSignificands (sa * 2 ^ 3) (L.alignSignificand (sb * 2 ^ 3) k) ea = none) :
    x = y := by
  obtain ⟨hexact, hb, hagrees⟩ := difference_agrees hL hx hy hk hle
  have hvalue := difference_value hx hy hk
  have hwrap := subtract_wrap hL hx hb
  rw [subtractSignificands, hwrap] at h
  have hzero : sa * 2 ^ 3 - L.alignSignificand (sb * 2 ^ 3) k = 0 := by
    by_contra hne
    rw [if_neg hne] at h
    split at h <;> simp at h
  have hnum : sa * 2 ^ 3 * 2 ^ k - sb * 2 ^ 3 = 0 := by
    have := (hagrees 0).1
    omega
  rw [hnum, Nat.zero_mul] at hvalue
  have hdiff : mag L.significandBits x - mag L.significandBits y = 0 := by
    by_contra hne
    have : 0 < (mag L.significandBits x - mag L.significandBits y) * 2 ^ 3
        * 2 ^ (1 - ea).toNat * 2 ^ k := by
      have := Nat.pos_of_ne_zero hne
      positivity
    omega
  have hmag : mag L.significandBits y ≤ mag L.significandBits x := mag_le_mag.2 hle
  exact mag_inj.1 (show mag L.significandBits x = mag L.significandBits y by omega)

/-- A difference with its leading bit out of place is exact, or one place away from it. -/
theorem difference_shift (hL : L.Lawful) (hx : Unpacked L x sa ea) (hy : Unpacked L y sb eb)
    (hk : eb + k = ea) (hle : y ≤ x) {t : ℕ}
    (ht : (sa * 2 ^ 3 - L.alignSignificand (sb * 2 ^ 3) k) * 2 ^ t < 2 ^ (L.significandBits + 4)) :
    Agrees 4 ((sa * 2 ^ 3 * 2 ^ k - sb * 2 ^ 3) * 2 ^ t) (2 ^ k)
      ((sa * 2 ^ 3 - L.alignSignificand (sb * 2 ^ 3) k) * 2 ^ t) := by
  obtain ⟨hexact, hb, hagrees⟩ := difference_agrees hL hx hy hk hle
  obtain ⟨hal, hau⟩ := upper_lower hx
  rcases Nat.lt_or_ge k 2 with hk2 | hk2
  · have hshift := alignSignificand_exact hL (s := sb) (show k ≤ 1 by omega)
    have hnum : (sa * 2 ^ 3 * 2 ^ k - sb * 2 ^ 3) * 2 ^ t
        = (sa * 2 ^ 3 - L.alignSignificand (sb * 2 ^ 3) k) * 2 ^ t * 2 ^ k := by
      rw [Nat.mul_right_comm _ (2 ^ t), Nat.sub_mul _ _ (2 ^ k), hshift]
    rw [hnum]
    exact Agrees.exact (Nat.two_pow_pos k) 4 _
  · -- a shift by two places or more would need the operands to be closer
    have hsmall := alignSignificand_lt (L := L) (c := L.significandBits + 1) (b := sb * 2 ^ 3) hk2
      (upper_lower hy).2
    have hbig : 2 ^ (L.significandBits + 2) ≤ sa * 2 ^ 3 - L.alignSignificand (sb * 2 ^ 3) k := by
      have hdouble : 2 ^ (L.significandBits + 3) = 2 * 2 ^ (L.significandBits + 2) := by
        rw [show L.significandBits + 3 = L.significandBits + 2 + 1 by omega, pow_succ,
          Nat.mul_comm]
      have hsmall' : L.alignSignificand (sb * 2 ^ 3) k < 2 ^ (L.significandBits + 2) := hsmall
      omega
    have ht1 : t ≤ 1 := by
      by_contra htbig
      have h1 : 2 ^ (L.significandBits + 2) * 2 ^ 2
          ≤ (sa * 2 ^ 3 - L.alignSignificand (sb * 2 ^ 3) k) * 2 ^ t :=
        Nat.mul_le_mul hbig (Nat.pow_le_pow_right (by decide) (by omega))
      have h2 : 2 ^ (L.significandBits + 4) = 2 ^ (L.significandBits + 2) * 2 ^ 2 := by
        rw [← pow_add]
      omega
    have hmul := hagrees.mul (Nat.two_pow_pos t)
    obtain rfl | rfl : t = 0 ∨ t = 1 := by omega
    · exact hmul.of_dvd ⟨2, by decide⟩
    · exact hmul.of_dvd ⟨1, by decide⟩

/-- The difference of two significands is the nearest number to the exact one, once finished. -/
theorem subtractSignificands_rounds (hL : L.Lawful) (s : Bool) (hx : Unpacked L x sa ea)
    (hy : Unpacked L y sb eb) (hk : eb + k = ea) (hle : y ≤ x) {m : ℕ} {e : ℤ}
    (h : L.subtractSignificands (sa * 2 ^ 3) (L.alignSignificand (sb * 2 ^ 3) k) ea
      = some (m, e)) :
    y < x ∧ ∃ r, L.finishSum (L.withSign s 0) m e = L.withSign s r ∧
      Nearest L.significandBits L.infRep
        (mag L.significandBits x - mag L.significandBits y) 1 r := by
  have hwidth := hL.typeWidth_eq
  have hexp := hL.four_le_exponentBits
  obtain ⟨hexact, hb, hagrees⟩ := difference_agrees hL hx hy hk hle
  have hvalue := difference_value hx hy hk
  have hshift := fun t => difference_shift hL hx hy hk hle (t := t)
  have hwrap := subtract_wrap hL hx hb
  obtain ⟨hal, hau⟩ := upper_lower hx
  have hbit : L.shl L.implicitBit 3 = 2 ^ (L.significandBits + 3) := by
    rw [implicitBit_eq, shl_eq (by omega), ← pow_add]
    rw [← pow_add]
    exact Nat.pow_lt_pow_right (by decide) (by omega)
  rw [subtractSignificands, hwrap, hbit] at h
  generalize L.alignSignificand (sb * 2 ^ 3) k = b at *
  by_cases hzero : sa * 2 ^ 3 - b = 0
  · rw [if_pos hzero] at h
    simp at h
  rw [if_neg hzero] at h
  have hn : 1 ≤ mag L.significandBits x - mag L.significandBits y := by
    by_contra hnot
    have hdiff : mag L.significandBits x - mag L.significandBits y = 0 := by omega
    rw [hdiff, Nat.zero_mul, Nat.zero_mul, Nat.zero_mul] at hvalue
    have hnum : sa * 2 ^ 3 * 2 ^ k - sb * 2 ^ 3 = 0 := by
      rcases Nat.mul_eq_zero.1 hvalue.symm with h0 | h0
      · exact h0
      · have := Nat.two_pow_pos (ea - 1).toNat
        omega
    have := (hagrees 0).1
    omega
  refine ⟨(mag_lt_mag (p := L.significandBits)).1 (by omega), ?_⟩
  by_cases hcancel : sa * 2 ^ 3 - b < 2 ^ (L.significandBits + 3)
  · rw [if_pos hcancel] at h
    have hlog : Nat.log2 (sa * 2 ^ 3 - b) < L.significandBits + 3 := (Nat.log2_lt hzero).2 hcancel
    have hfit : sa * 2 ^ 3 - b < 2 ^ L.typeWidth :=
      Nat.lt_of_lt_of_le hcancel (Nat.pow_le_pow_right (by decide) (by omega))
    have hclz := clz_sub_clz hL (t := L.significandBits + 3) (Nat.pos_of_ne_zero hzero) hfit
      (by omega)
    obtain ⟨htl, htu⟩ := shiftLeft_to_top (Nat.pos_of_ne_zero hzero) (Nat.le_of_lt hlog)
    have hcount : (L.repClz (sa * 2 ^ 3 - b) : ℤ) - L.repClz (2 ^ (L.significandBits + 3))
        = ((L.significandBits + 3 - Nat.log2 (sa * 2 ^ 3 - b) : ℕ) : ℤ) := by
      rw [hclz]
      omega
    generalize L.significandBits + 3 - Nat.log2 (sa * 2 ^ 3 - b) = t at *
    have hnear : (sa * 2 ^ 3 - b) * 2 ^ t < 2 ^ L.typeWidth :=
      Nat.lt_of_lt_of_le htu (Nat.pow_le_pow_right (by decide) (by omega))
    have htw : t < L.typeWidth := by
      by_contra hge
      have h1 : 2 ^ L.typeWidth ≤ 2 ^ t := Nat.pow_le_pow_right (by decide) (by omega)
      have h2 := Nat.le_mul_of_pos_left (2 ^ t) (Nat.pos_of_ne_zero hzero)
      omega
    rw [hcount] at h
    simp only [Int.toNat_natCast, shl_eq htw hnear] at h
    obtain ⟨rfl, rfl⟩ := Prod.mk.inj (Option.some.inj h)
    exact finishSum_rounds hL s hn htl htu (scaled_shiftLeft (hshift t htu) hvalue)
  · rw [if_neg hcancel] at h
    obtain ⟨rfl, rfl⟩ := Prod.mk.inj (Option.some.inj h)
    exact finishSum_rounds hL s hn (Nat.le_of_not_lt hcancel) (by omega)
      (scaled_of_agrees (hagrees.of_dvd ⟨2, by decide⟩) hvalue)

end Summing


section Adding

variable {L : FpLib}

open FpLib

/--
What the sum of two numbers is: a quieted NaN operand, the default NaN for infinities of
different signs, an infinity, or the exact sum rounded. A sum of zero has the sign that
both operands have, and is positive where they differ.
-/
inductive AddSpec (L : FpLib) (a b : ℕ) : ℕ → Prop
  | nanLeft : L.IsNaN a → AddSpec L a b (a ||| L.quietBit)
  | nanRight : ¬ L.IsNaN a → L.IsNaN b → AddSpec L a b (b ||| L.quietBit)
  | invalid : L.IsInf a → L.IsInf b → L.negative a ≠ L.negative b → AddSpec L a b L.qnanRep
  | infLeft : L.IsInf a → L.IsFinite b ∨ L.IsInf b ∧ L.negative a = L.negative b →
      AddSpec L a b (L.withSign (L.negative a) L.infRep)
  | infRight : L.IsFinite a → L.IsInf b → AddSpec L a b (L.withSign (L.negative b) L.infRep)
  | zero : L.IsFinite a → L.IsFinite b → L.value a + L.value b = 0 →
      AddSpec L a b (L.withSign (L.negative a && L.negative b) 0)
  | finite {r : ℕ} : L.IsFinite a → L.IsFinite b → L.value a + L.value b ≠ 0 →
      Nearest L.significandBits L.infRep (L.value a + L.value b).natAbs 1 r →
      AddSpec L a b (L.withSign (decide (L.value a + L.value b < 0)) r)

/-- The operands can change places, except that the first NaN counts. -/
theorem AddSpec.swap {a b r : ℕ} (ha : L.IsFinite a) (hb : L.IsFinite b) (h : AddSpec L a b r) :
    AddSpec L b a r := by
  have hpa : ¬ L.IsNaN a := Nat.not_lt_of_lt ha
  have hpb : ¬ L.IsNaN b := Nat.not_lt_of_lt hb
  have hia : ¬ L.IsInf a := Nat.ne_of_lt ha
  have hib : ¬ L.IsInf b := Nat.ne_of_lt hb
  cases h with
  | nanLeft h => exact absurd h hpa
  | nanRight _ h => exact absurd h hpb
  | invalid h => exact absurd h hia
  | infLeft h => exact absurd h hia
  | infRight _ h => exact absurd h hib
  | zero _ _ h =>
      rw [Bool.and_comm]
      rw [add_comm] at h
      exact AddSpec.zero hb ha h
  | finite _ _ hne hr =>
      rw [add_comm] at hne hr ⊢
      exact AddSpec.finite hb ha hne hr

/-- The significand and the exponent of a finite number other than zero. -/
theorem unpack_spec (hL : L.Lawful) {a : ℕ} (h0 : 0 < L.magnitude a) :
    Unpacked L (L.magnitude a) ((L.unpack a).1 ||| L.implicitBit) (L.unpack a).2 := by
  rw [unpack, significand_eq, exponent_eq]
  by_cases hden : L.magnitude a < 2 ^ L.significandBits
  · rw [if_pos ((exponent_eq_zero_iff L a).2 hden)]
    exact unpacked_denormal hL h0 hden
  · rw [if_neg (by rwa [exponent_eq_zero_iff])]
    exact unpacked_normal (Nat.le_of_not_lt hden)

/-- The sum of two finite numbers other than zero, the larger one first. -/
theorem addOrdered_spec (hL : L.Lawful) {a b : ℕ} (ha0 : 0 < L.magnitude a) (ha : L.IsFinite a)
    (hb0 : 0 < L.magnitude b) (hb : L.IsFinite b) (hle : L.magnitude b ≤ L.magnitude a) :
    AddSpec L a b (L.addOrdered a b) := by
  have hx := unpack_spec hL ha0
  have hy := unpack_spec hL hb0
  have hmag : mag L.significandBits (L.magnitude b) ≤ mag L.significandBits (L.magnitude a) :=
    mag_le_mag.2 hle
  have hpos : 0 < mag L.significandBits (L.magnitude a) := mag_pos.2 ha0
  obtain ⟨k, hk⟩ : ∃ k : ℕ, (L.unpack b).2 + k = (L.unpack a).2 :=
    ⟨((L.unpack a).2 - (L.unpack b).2).toNat, by have := exponent_mono hx hy hle; omega⟩
  have halign : (L.unpack a).2 - (L.unpack b).2 = k := by omega
  have hva := value_eq L a
  have hvb := value_eq L b
  unfold addOrdered
  simp only [shl_three hL hx.upper, shl_three hL hy.upper, halign, xor_and_signBit]
  rw [and_signBit]
  by_cases hsub : L.withSign (L.negative a != L.negative b) 0 ≠ 0
  · rw [if_pos hsub]
    have hne : L.negative a ≠ L.negative b := by
      intro heq
      rw [heq] at hsub
      simp [withSign] at hsub
    split
    next hnone =>
      have heq := subtractSignificands_none hL hx hy hk hle hnone
      have hsign : (L.negative a && L.negative b) = false := by
        cases h1 : L.negative a <;> cases h2 : L.negative b <;> simp_all
      have hsum : L.value a + L.value b = 0 := by
        rw [hva, hvb, heq]
        cases h1 : L.negative a <;> cases h2 : L.negative b <;> simp_all
      have hspec := AddSpec.zero ha hb hsum
      rw [hsign] at hspec
      simpa [withSign] using hspec
    next m e hsome =>
      obtain ⟨hlt, r, hr, hnearest⟩ :=
        subtractSignificands_rounds hL (L.negative a) hx hy hk hle hsome
      have hmlt := mag_lt_mag (p := L.significandBits).2 hlt
      have hsum : L.value a + L.value b ≠ 0 ∧
          decide (L.value a + L.value b < 0) = L.negative a ∧
          (L.value a + L.value b).natAbs = mag L.significandBits (L.magnitude a)
            - mag L.significandBits (L.magnitude b) := by
        rw [hva, hvb]
        cases h1 : L.negative a <;> cases h2 : L.negative b <;> simp_all <;> omega
      obtain ⟨hne0, hsign, habs⟩ := hsum
      rw [hr, ← hsign]
      rw [← habs] at hnearest
      exact AddSpec.finite ha hb hne0 hnearest
  · rw [if_neg hsub]
    have heq : L.negative a = L.negative b := by
      by_contra hne
      apply hsub
      have : (L.negative a != L.negative b) = true := by simpa using hne
      rw [this, withSign, Bool.toNat_true, Nat.one_mul, Nat.add_zero]
      exact (Nat.two_pow_pos _).ne'
    obtain ⟨r, hr, hnearest⟩ := addSignificands_rounds hL (L.negative a) hx hy ha0 hk
    have hsum : L.value a + L.value b ≠ 0 ∧
        decide (L.value a + L.value b < 0) = L.negative a ∧
        (L.value a + L.value b).natAbs = mag L.significandBits (L.magnitude a)
          + mag L.significandBits (L.magnitude b) := by
      rw [hva, hvb, ← heq]
      cases h1 : L.negative a <;> simp_all <;> omega
    obtain ⟨hne0, hsign, habs⟩ := hsum
    rw [hr, ← hsign]
    rw [← habs] at hnearest
    exact AddSpec.finite ha hb hne0 hnearest

/-- The test for the operands that are no ordinary numbers. -/
theorem addDetect_iff (hL : L.Lawful) (a b : ℕ) :
    L.addDetect a b ↔
      (L.magnitude a = 0 ∨ L.infRep ≤ L.magnitude a) ∨
        (L.magnitude b = 0 ∨ L.infRep ≤ L.magnitude b) := by
  have hpos := infRep_pos hL
  have hinf := infRep_lt L
  have hwidth : 2 ^ L.typeWidth = 2 * 2 ^ (L.significandBits + L.exponentBits) := by
    rw [hL.typeWidth_eq, ← pow_succ']
    congr 1
    omega
  have hsub : ∀ x : ℕ, 0 < x → x < 2 ^ (L.significandBits + L.exponentBits) →
      wrapSub L.typeWidth x 1 = x - 1 := by
    intro x h0 hx
    rw [wrapSub, show x + 2 ^ L.typeWidth - 1 = x - 1 + 2 ^ L.typeWidth by omega,
      Nat.add_mod_right, Nat.mod_eq_of_lt (by omega)]
  have hend : ∀ x : ℕ, L.infRep - 1 ≤ wrapSub L.typeWidth (L.magnitude x) 1 ↔
      L.magnitude x = 0 ∨ L.infRep ≤ L.magnitude x := by
    intro x
    rcases Nat.eq_zero_or_pos (L.magnitude x) with h0 | h0
    · rw [h0, wrapSub, Nat.zero_add, Nat.mod_eq_of_lt (by omega)]
      omega
    · rw [hsub _ h0 (magnitude_lt L x)]
      omega
  rw [addDetect, and_absMask, and_absMask, hsub _ hpos hinf, hend, hend]

/-- A finite number is the nearest one to itself. -/
theorem addSpec_of_value (hL : L.Lawful) {a b c : ℕ} (hc : c < 2 ^ L.typeWidth)
    (hc0 : 0 < L.magnitude c) (ha : L.IsFinite a) (hb : L.IsFinite b) (hcf : L.IsFinite c)
    (hsum : L.value a + L.value b = L.value c) : AddSpec L a b c := by
  have hpos : 0 < mag L.significandBits (L.magnitude c) := mag_pos.2 hc0
  have hvc := value_eq L c
  have habs : (L.value c).natAbs = mag L.significandBits (L.magnitude c) := by
    rw [hvc]
    split <;> omega
  have hsign : decide (L.value c < 0) = L.negative c := by
    rw [hvc]
    cases h : L.negative c <;> simp
    omega
  have hnearest := nearest_exact (p := L.significandBits) (d := 1)
    (r := L.magnitude c) (by decide) (Nat.le_of_lt hcf)
  rw [Nat.mul_one, ← habs, ← hsum] at hnearest
  have hspec := AddSpec.finite ha hb (by rw [hsum, hvc]; split <;> omega) hnearest
  rw [hsum, hsign, withSign_negative_magnitude hL hc] at hspec
  exact hspec

/-- Two zeros are and-ed, which leaves the sign that both have. -/
theorem and_of_zeros (hL : L.Lawful) {a b : ℕ} (ha : a < 2 ^ L.typeWidth) (hb : b < 2 ^ L.typeWidth)
    (ha0 : L.magnitude a = 0) (hb0 : L.magnitude b = 0) :
    a &&& b = L.withSign (L.negative a && L.negative b) 0 := by
  conv_lhs => rw [eq_withSign hL ha ha0, eq_withSign hL hb hb0]
  cases h1 : L.negative a <;> cases h2 : L.negative b <;> simp [withSign]

/-- Bits that differ in the sign alone. -/
theorem withSign_xor_withSign (s t : Bool) {m : ℕ}
    (hm : m < 2 ^ (L.significandBits + L.exponentBits)) :
    L.withSign s m ^^^ L.withSign t m = L.withSign (s != t) 0 := by
  apply Nat.eq_of_testBit_eq
  intro i
  rw [Nat.testBit_xor, testBit_withSign s hm, testBit_withSign t hm,
    testBit_withSign _ (Nat.two_pow_pos _)]
  split
  · rw [Nat.zero_testBit, Bool.xor_self]
  · cases s <;> cases t <;> simp

theorem xor_eq_signBit_iff (hL : L.Lawful) {a b : ℕ} (ha : a < 2 ^ L.typeWidth)
    (hb : b < 2 ^ L.typeWidth) (hmag : L.magnitude a = L.magnitude b) :
    a ^^^ b = L.signBit ↔ L.negative a ≠ L.negative b := by
  have hxor := withSign_xor_withSign (L := L) (L.negative a) (L.negative b) (magnitude_lt L b)
  rw [← eq_withSign hL ha hmag, ← eq_withSign hL hb rfl] at hxor
  have hpos := Nat.two_pow_pos (L.significandBits + L.exponentBits)
  rw [hxor, signBit_eq, withSign, Nat.add_zero]
  cases h1 : L.negative a <;> cases h2 : L.negative b <;> simp [hpos.ne]

/-- Flipping the sign bit. -/
theorem xor_signBit (hL : L.Lawful) {b : ℕ} (hb : b < 2 ^ L.typeWidth) :
    b ^^^ L.signBit = L.withSign (! L.negative b) (L.magnitude b) := by
  have hxor := withSign_xor_withSign (L := L) (L.negative b) (! L.negative b) (magnitude_lt L b)
  rw [← eq_withSign hL hb rfl] at hxor
  have hsign : L.withSign (L.negative b != ! L.negative b) 0 = L.signBit := by
    have : (L.negative b != ! L.negative b) = true := by cases L.negative b <;> rfl
    rw [this, withSign, signBit_eq, Bool.toNat_true, Nat.one_mul, Nat.add_zero]
  rw [← hsign, ← hxor, ← Nat.xor_assoc, Nat.xor_self, Nat.zero_xor]

/-- The results that need no sum. -/
theorem addSpecial_some (hL : L.Lawful) {a b r : ℕ} (ha : a < 2 ^ L.typeWidth)
    (hb : b < 2 ^ L.typeWidth) (h : L.addSpecial a b = some r) : AddSpec L a b r := by
  simp only [addSpecial, and_absMask] at h
  split at h
  next han =>
    obtain rfl := Option.some.inj h
    exact AddSpec.nanLeft han
  next han =>
  split at h
  next hbn =>
    obtain rfl := Option.some.inj h
    exact AddSpec.nanRight han hbn
  next hbn =>
  split at h
  next hai =>
    split at h
    next hxor =>
      obtain rfl := Option.some.inj h
      have hbi : L.magnitude b = L.infRep := by
        -- only the sign bit may differ
        have hbits := congrArg L.magnitude hxor
        have hmagx : ∀ x y : ℕ, L.magnitude (x ^^^ y) = L.magnitude x ^^^ L.magnitude y :=
          fun x y => Nat.xor_mod_two_pow
        rw [hmagx, signBit_eq, magnitude, magnitude, magnitude, Nat.mod_self] at hbits
        exact (Nat.xor_eq_zero_iff.1 hbits).symm.trans hai
      exact AddSpec.invalid hai hbi
        ((xor_eq_signBit_iff hL ha hb (hai.trans hbi.symm)).1 hxor)
    next hxor =>
      obtain rfl := Option.some.inj h
      have hspec : L.IsFinite b ∨ L.IsInf b ∧ L.negative a = L.negative b := by
        rcases Nat.lt_or_eq_of_le (Nat.le_of_not_lt hbn) with hbf | hbi
        · exact Or.inl hbf
        · refine Or.inr ⟨hbi, ?_⟩
          by_contra hne
          exact hxor ((xor_eq_signBit_iff hL ha hb (hai.trans hbi.symm)).2 hne)
      have := AddSpec.infLeft hai hspec
      rwa [← eq_withSign hL ha hai] at this
  next hai =>
  have haf : L.IsFinite a := by
    rw [IsFinite]
    omega
  split at h
  next hbi =>
    obtain rfl := Option.some.inj h
    have := AddSpec.infRight haf hbi
    rwa [← eq_withSign hL hb hbi] at this
  next hbi =>
  have hbf : L.IsFinite b := by
    rw [IsFinite]
    omega
  split at h
  next haz =>
    split at h
    next hbz =>
      obtain rfl := Option.some.inj h
      rw [and_of_zeros hL ha hb haz hbz]
      exact AddSpec.zero haf hbf (by rw [value_of_zero haz, value_of_zero hbz, add_zero])
    next hbz =>
      obtain rfl := Option.some.inj h
      exact addSpec_of_value hL hb (Nat.pos_of_ne_zero hbz) haf hbf hbf
        (by rw [value_of_zero haz, zero_add])
  next haz =>
  split at h
  next hbz =>
    obtain rfl := Option.some.inj h
    exact addSpec_of_value hL ha (Nat.pos_of_ne_zero haz) haf hbf haf
      (by rw [value_of_zero hbz, add_zero])
  next hbz =>
    simp at h

/-- Without a special result both operands are finite and not zero. -/
theorem addSpecial_none {a b : ℕ} (h : L.addSpecial a b = none) :
    (0 < L.magnitude a ∧ L.IsFinite a) ∧ 0 < L.magnitude b ∧ L.IsFinite b := by
  simp only [addSpecial, and_absMask] at h
  split_ifs at h with ha hb hai hx hbi haz hbz hbz
  rw [IsFinite, IsFinite]
  omega

/-- The routine gives the sum of the specification, whatever the operands. -/
theorem addXf3_spec (hL : L.Lawful) {a b : ℕ} (ha : a < 2 ^ L.typeWidth)
    (hb : b < 2 ^ L.typeWidth) : AddSpec L a b (L.addXf3 a b) := by
  have hswap : (0 < L.magnitude a ∧ L.IsFinite a) ∧ 0 < L.magnitude b ∧ L.IsFinite b →
      AddSpec L a b (if b &&& L.absMask > a &&& L.absMask then L.addOrdered b a
        else L.addOrdered a b) := by
    rintro ⟨⟨ha0, haf⟩, hb0, hbf⟩
    rw [and_absMask, and_absMask]
    by_cases hgt : L.magnitude b > L.magnitude a
    · rw [if_pos hgt]
      exact (addOrdered_spec hL hb0 hbf ha0 haf (Nat.le_of_lt hgt)).swap hbf haf
    · rw [if_neg hgt]
      exact addOrdered_spec hL ha0 haf hb0 hbf (Nat.le_of_not_lt hgt)
  simp only [addXf3]
  split
  next hdetect =>
    split
    next r hr =>
      exact addSpecial_some hL ha hb hr
    next hr =>
      exact hswap (addSpecial_none hr)
  next hdetect =>
    rw [addDetect_iff hL] at hdetect
    apply hswap
    rw [IsFinite, IsFinite]
    omega

/-- Addition and subtraction at both precisions: subtracting is adding the negated number. -/
theorem addsf3_adddf3_spec (overshift : ℕ → ℕ → ℕ) {a b c d : ℕ} (ha : a < 2 ^ 32)
    (hb : b < 2 ^ 32) (hc : c < 2 ^ 64) (hd : d < 2 ^ 64) :
    AddSpec (single overshift) a b (addsf3 overshift a b) ∧
      AddSpec (single overshift) a ((single overshift).negate b) (subsf3 overshift a b) ∧
      AddSpec (double overshift) c d (adddf3 overshift c d) ∧
      AddSpec (double overshift) c ((double overshift).negate d) (subdf3 overshift c d) := by
  have hs := single_lawful overshift
  have hl := double_lawful overshift
  have hfit : ∀ {L : FpLib}, L.Lawful → ∀ x : ℕ, L.negate x < 2 ^ L.typeWidth := by
    intro L hL x
    exact withSign_lt hL _ (magnitude_lt L x)
  refine ⟨addXf3_spec hs ha hb, ?_, addXf3_spec hl hc hd, ?_⟩
  · rw [subsf3, addsf3, xor_signBit hs hb]
    exact addXf3_spec hs ha (hfit hs b)
  · rw [subdf3, adddf3, xor_signBit hl hd]
    exact addXf3_spec hl hc (hfit hl d)

/-- The largest double and one half of its last place; one and its successor at single precision. -/
theorem addsf3_adddf3_spec_instance :
    AddSpec (single fun _ _ => 0) 0x3f800000 0x33800000
      (addsf3 (fun _ _ => 0) 0x3f800000 0x33800000) ∧
    AddSpec (single fun _ _ => 0) 0x3f800000 ((single fun _ _ => 0).negate 0x33800000)
      (subsf3 (fun _ _ => 0) 0x3f800000 0x33800000) ∧
    AddSpec (double fun _ _ => 0) 0x7fefffffffffffff 0x7c90000000000000
      (adddf3 (fun _ _ => 0) 0x7fefffffffffffff 0x7c90000000000000) ∧
    AddSpec (double fun _ _ => 0) 0x7fefffffffffffff ((double fun _ _ => 0).negate 0x7c90000000000000)
      (subdf3 (fun _ _ => 0) 0x7fefffffffffffff 0x7c90000000000000) :=
  addsf3_adddf3_spec (fun _ _ => 0) (by decide) (by decide) (by decide) (by decide)

/-- One plus half of its last place is a tie and stays; the largest number plus half goes up. -/
example : addsf3 (fun _ _ => 0) 0x3f800000 0x33800000 = 0x3f800000 ∧
    adddf3 (fun _ _ => 0) 0x7fefffffffffffff 0x7c90000000000000 = 0x7ff0000000000000 := by
  decide +kernel

end Adding

end Fp
end F32c
