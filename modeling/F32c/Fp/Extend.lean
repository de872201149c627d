import F32c.Fp.Convert

/-!
# Soft-float conversions between the two precisions

`__extendsfdf2`: every single-precision number is a double-precision one, a denormal number
a normal one.
-/

namespace F32c
namespace Fp

namespace FpLib

/-- The magnitude of the wider number. -/
def extendAbs (S D : FpLib) (aAbs : ℕ) : ℕ :=
  let srcMinNormal := S.implicitBit
  let srcNaNCode := S.quietBit - 1
  if wrapSub S.typeWidth aAbs srcMinNormal < wrapSub S.typeWidth S.infRep srcMinNormal then
    (D.shl aAbs (D.significandBits - S.significandBits)
      + D.shl (D.exponentBias - S.exponentBias) D.significandBits) % 2 ^ D.typeWidth
  else if S.infRep ≤ aAbs then
    D.shl D.maxExponent D.significandBits
      ||| D.shl (aAbs &&& S.quietBit) (D.significandBits - S.significandBits)
      ||| aAbs &&& srcNaNCode
  else if aAbs ≠ 0 then
    let scale : ℤ := (S.repClz aAbs : ℤ) - S.repClz srcMinNormal
    let absResult :=
      D.shl aAbs ((D.significandBits : ℤ) - S.significandBits + scale).toNat ^^^ D.implicitBit
    let resultExponent : ℤ := (D.exponentBias : ℤ) - S.exponentBias - scale + 1
    absResult ||| D.shl resultExponent.toNat D.significandBits
  else
    0

/-- The text of `__extendsfdf2`, from the format `S` to the format `D`. -/
def extend (S D : FpLib) (a : ℕ) : ℕ :=
  let aAbs := a &&& S.absMask
  let sign := a &&& S.signBit
  extendAbs S D aAbs ||| D.shl sign (D.typeWidth - S.typeWidth)

/-- `D` stores `t` bits more than `S`, and its bias is `b` more. -/
structure Wider (S D : FpLib) (t b : ℕ) : Prop where
  source : S.Lawful
  target : D.Lawful
  significandBits_eq : D.significandBits = S.significandBits + t
  exponentBias_eq : D.exponentBias = S.exponentBias + b
  room : S.maxExponent + b < D.maxExponent
  exponentBits_le : S.exponentBits ≤ D.exponentBits
  below : S.significandBits ≤ b

/-- The number of the wider format that has the same value. -/
structure WidensSpec (S D : FpLib) (a r : ℕ) : Prop where
  negative : D.negative r = S.negative a
  nan : S.IsNaN a → D.IsNaN r
  inf : S.IsInf a → D.IsInf r
  finite : S.IsFinite a →
    D.IsFinite r ∧ D.value r * S.units S.oneRep = S.value a * D.units D.oneRep

end FpLib

/-- `__extendsfdf2` -/
def extendsfdf2 (overshift : ℕ → ℕ → ℕ) (a : ℕ) : ℕ :=
  FpLib.extend (single overshift) (double overshift) a


section Widening

variable {S D : FpLib} {t b x p : ℕ}

open FpLib

/-- A normal number with more stored bits and a larger bias. -/
theorem mag_widen_normal (hx : 2 ^ p ≤ x) (t b : ℕ) :
    mag (p + t) (x * 2 ^ t + b * 2 ^ (p + t)) = mag p x * 2 ^ (t + b) := by
  have hpos := Nat.two_pow_pos p
  have hmod := Nat.mod_lt x hpos
  have he : 1 ≤ x / 2 ^ p := (Nat.one_le_div_iff hpos).2 hx
  have hfield : x % 2 ^ p * 2 ^ t < 2 ^ (p + t) := by
    rw [pow_add]
    exact Nat.mul_lt_mul_of_pos_right hmod (Nat.two_pow_pos t)
  have hval := mag_normal he hmod
  rw [← eq_exponent_add] at hval
  have hsplit : x * 2 ^ t + b * 2 ^ (p + t)
      = (x / 2 ^ p + b) * 2 ^ (p + t) + x % 2 ^ p * 2 ^ t := by
    conv_lhs => rw [eq_exponent_add p x]
    rw [pow_add]
    ring
  obtain ⟨e, he'⟩ : ∃ e, x / 2 ^ p = e + 1 := ⟨x / 2 ^ p - 1, by omega⟩
  rw [hsplit, mag_normal (by omega) hfield, hval, he', Nat.add_sub_cancel,
    show e + 1 + b - 1 = e + b by omega, pow_add, pow_add, pow_add]
  ring

/-- A denormal number becomes a normal one. -/
theorem mag_widen_denormal {k : ℕ} (hk : k ≤ b) (hlower : 2 ^ p ≤ x * 2 ^ k)
    (hupper : x * 2 ^ k < 2 ^ (p + 1)) (t : ℕ) :
    mag (p + t) ((b - k + 1) * 2 ^ (p + t) + (x * 2 ^ (t + k) - 2 ^ (p + t)))
      = x * 2 ^ (t + b) := by
  have hpos := Nat.two_pow_pos t
  have hscale : x * 2 ^ (t + k) = x * 2 ^ k * 2 ^ t := by
    rw [pow_add]
    ring
  have hlow := Nat.mul_le_mul_right (2 ^ t) hlower
  have hup := Nat.mul_lt_mul_of_pos_right hupper hpos
  rw [pow_succ] at hup
  rw [pow_add 2 p t, hscale]
  rw [← pow_add 2 p t] at hlow ⊢
  have hdouble : 2 ^ p * 2 * 2 ^ t = 2 ^ (p + t) * 2 := by
    rw [pow_add]
    ring
  rw [mag_normal (by omega) (by omega), Nat.add_sub_cancel' hlow, Nat.add_sub_cancel, ← hscale,
    Nat.mul_assoc, ← pow_add]
  congr 2
  omega

theorem quietBit_eq (hS : S.Lawful) : S.quietBit = 2 ^ (S.significandBits - 1) := by
  obtain ⟨q, hq⟩ : ∃ q, S.significandBits = q + 1 :=
    ⟨S.significandBits - 1, by have := hS.two_le_significandBits; omega⟩
  rw [quietBit, implicitBit_eq, hq, Nat.shiftRight_eq_div_pow, pow_succ, pow_one,
    Nat.mul_div_cancel _ (by decide), Nat.add_sub_cancel]

theorem two_pow_le_infRep (hS : S.Lawful) : 2 ^ S.significandBits ≤ S.infRep := by
  rw [infRep_eq]
  exact Nat.le_mul_of_pos_left _ (by have := hS.seven_le_maxExponent; omega)

theorem shl_maxExponent (hS : S.Lawful) : S.shl S.maxExponent S.significandBits = S.infRep := by
  have hwidth := hS.typeWidth_eq
  have hexp := hS.four_le_exponentBits
  have hlt : S.infRep < 2 ^ S.typeWidth :=
    Nat.lt_of_lt_of_le (infRep_lt S) (Nat.pow_le_pow_right (by decide) (by omega))
  rw [infRep_eq] at hlt ⊢
  exact shl_eq (by omega) hlt

/-- The one test for normal numbers. -/
theorem wrapSub_lt_iff (hS : S.Lawful) (hx : x < 2 ^ (S.significandBits + S.exponentBits)) :
    wrapSub S.typeWidth x S.implicitBit < wrapSub S.typeWidth S.infRep S.implicitBit ↔
      2 ^ S.significandBits ≤ x ∧ x < S.infRep := by
  have hinf := infRep_lt S
  have hwidth : S.typeWidth = S.significandBits + S.exponentBits + 1 := by
    rw [hS.typeWidth_eq]
    omega
  have hle := two_pow_le_infRep hS
  have hpos := Nat.two_pow_pos S.significandBits
  rw [wrapSub, wrapSub, implicitBit_eq, hwidth, pow_succ]
  generalize 2 ^ S.significandBits = m at *
  generalize 2 ^ (S.significandBits + S.exponentBits) = w at *
  have hword : ∀ y, m ≤ y → y < w → (y + w * 2 - m) % (w * 2) = y - m := by
    intro y hm hy
    rw [show y + w * 2 - m = w * 2 + (y - m) by omega, Nat.add_mod_left, Nat.mod_eq_of_lt]
    omega
  rw [hword S.infRep hle hinf]
  rcases Nat.lt_or_ge x m with hlt | hge
  · rw [Nat.mod_eq_of_lt (by omega)]
    omega
  · rw [hword x hge hx]
    omega

theorem infRep_wider (h : Wider S D t b) (hx : x < S.infRep) :
    x * 2 ^ t + b * 2 ^ D.significandBits < D.infRep := by
  have hmul : x * 2 ^ t < S.maxExponent * 2 ^ D.significandBits := by
    rw [infRep_eq] at hx
    rw [h.significandBits_eq, pow_add, ← Nat.mul_assoc]
    exact Nat.mul_lt_mul_of_pos_right hx (Nat.two_pow_pos t)
  have hroom := Nat.mul_le_mul_right (2 ^ D.significandBits) (Nat.le_of_lt h.room)
  rw [Nat.add_mul] at hroom
  rw [infRep_eq D]
  omega

/-- Every finite magnitude of the wider format fits its word. -/
theorem lt_word_of_lt_infRep (hD : D.Lawful) (hx : x < D.infRep) : x < 2 ^ D.typeWidth := by
  have hinf := infRep_lt D
  have htop : 2 ^ (D.significandBits + D.exponentBits) ≤ 2 ^ D.typeWidth :=
    Nat.pow_le_pow_right (by decide) (by have := hD.typeWidth_eq; omega)
  omega

theorem extendAbs_normal (h : Wider S D t b) (hlower : 2 ^ S.significandBits ≤ x)
    (hx : x < S.infRep) :
    extendAbs S D x = x * 2 ^ t + b * 2 ^ D.significandBits := by
  have hfit := lt_word_of_lt_infRep h.target (infRep_wider h hx)
  have hwidth := h.target.typeWidth_eq
  have hexp := h.target.four_le_exponentBits
  have hbits := h.significandBits_eq
  have htest := (wrapSub_lt_iff h.source (Nat.lt_trans hx (infRep_lt S))).2 ⟨hlower, hx⟩
  have hshift : D.significandBits - S.significandBits = t := by omega
  have hrebias : D.exponentBias - S.exponentBias = b := by
    have := h.exponentBias_eq
    omega
  simp only [extendAbs, if_pos htest, hshift, hrebias]
  rw [shl_eq (by omega) (by omega), shl_eq (by omega) (by omega), Nat.mod_eq_of_lt hfit]

theorem extendAbs_denormal (h : Wider S D t b) (h0 : 0 < x) (hx : x < 2 ^ S.significandBits) :
    extendAbs S D x
      = (b - (S.significandBits - Nat.log2 x) + 1) * 2 ^ D.significandBits
        + (x * 2 ^ (t + (S.significandBits - Nat.log2 x)) - 2 ^ D.significandBits) := by
  have hwidth := h.target.typeWidth_eq
  have hexp := h.target.four_le_exponentBits
  have hbits := h.significandBits_eq
  have hbelow := h.below
  have hlog : Nat.log2 x < S.significandBits := (Nat.log2_lt (by omega)).2 hx
  have hsource := h.source.typeWidth_eq
  have hinf : S.infRep < 2 ^ (S.significandBits + S.exponentBits) := infRep_lt S
  have hle := two_pow_le_infRep h.source
  have htest : ¬ wrapSub S.typeWidth x S.implicitBit < wrapSub S.typeWidth S.infRep S.implicitBit := by
    rw [wrapSub_lt_iff h.source (by omega)]
    omega
  have hscale := clz_sub_clz h.source h0
    (Nat.lt_of_lt_of_le hx (Nat.pow_le_pow_right (by decide) (by omega)))
    (show S.significandBits < S.typeWidth by omega)
  rw [← implicitBit_eq] at hscale
  generalize hk : S.significandBits - Nat.log2 x = k
  have hshift : ((D.significandBits : ℤ) - S.significandBits
      + ((S.significandBits : ℤ) - Nat.log2 x)).toNat = D.significandBits - Nat.log2 x := by omega
  have hexponent : ((D.exponentBias : ℤ) - S.exponentBias - ((S.significandBits : ℤ) - Nat.log2 x)
      + 1).toNat = b - k + 1 := by
    have := h.exponentBias_eq
    omega
  have htk : t + k = D.significandBits - Nat.log2 x := by omega
  obtain ⟨hlower, hupper⟩ := shiftLeft_to_top h0 (t := D.significandBits) (by omega)
  have hfit : x * 2 ^ (D.significandBits - Nat.log2 x) < 2 ^ D.typeWidth :=
    Nat.lt_of_lt_of_le hupper (Nat.pow_le_pow_right (by decide) (by omega))
  have hfield : x * 2 ^ (D.significandBits - Nat.log2 x) - 2 ^ D.significandBits
      < 2 ^ D.significandBits := by
    rw [pow_succ] at hupper
    omega
  have hroom : (b - k + 1) * 2 ^ D.significandBits < 2 ^ D.typeWidth := by
    apply lt_word_of_lt_infRep h.target
    rw [infRep_eq]
    apply Nat.mul_lt_mul_of_pos_right _ (Nat.two_pow_pos _)
    have := h.room
    have := h.source.seven_le_maxExponent
    omega
  simp only [extendAbs, if_neg htest, if_neg (show ¬ S.infRep ≤ x by omega), if_pos h0.ne', hscale,
    hshift, hexponent]
  rw [shl_eq (by omega) hfit, shl_eq (by omega) hroom, xor_implicitBit hlower hupper, htk,
    Nat.or_comm, Nat.mul_comm (b - k + 1), Nat.two_pow_add_eq_or_of_lt hfield]

/-- Infinity keeps no stored bits, a NaN at least one. -/
theorem extendAbs_special (h : Wider S D t b) (hinf : S.infRep ≤ x)
    (hx : x < 2 ^ (S.significandBits + S.exponentBits)) :
    ∃ y, y < 2 ^ D.significandBits ∧ (y = 0 ↔ x = S.infRep) ∧ extendAbs S D x = D.infRep + y := by
  have hbits := h.significandBits_eq
  have hwidth := h.target.typeWidth_eq
  have hexp := h.target.four_le_exponentBits
  obtain ⟨q, hq⟩ : ∃ q, S.significandBits = q + 1 :=
    ⟨S.significandBits - 1, by have := h.source.two_le_significandBits; omega⟩
  have hquiet : S.quietBit = 2 ^ q := by
    rw [quietBit_eq h.source, hq, Nat.add_sub_cancel]
  have hlow : x &&& (S.quietBit - 1) = x % 2 ^ q := by
    rw [hquiet, Nat.and_two_pow_sub_one_eq_mod]
  have hshift : D.significandBits - S.significandBits = t := by omega
  have hword : ∀ y, y < 2 ^ D.significandBits → y < 2 ^ D.typeWidth := fun y hy =>
    Nat.lt_of_lt_of_le hy (Nat.pow_le_pow_right (by decide) (by omega))
  have hbit : (x.testBit q).toNat * 2 ^ q * 2 ^ t < 2 ^ D.significandBits := by
    have hle : (x.testBit q).toNat * 2 ^ q * 2 ^ t ≤ 1 * 2 ^ q * 2 ^ t := by
      gcongr
      exact Bool.toNat_le _
    rw [Nat.one_mul] at hle
    rw [hbits, hq, Nat.add_right_comm, pow_succ, pow_add]
    have := Nat.mul_pos (Nat.two_pow_pos q) (Nat.two_pow_pos t)
    omega
  have hhigh : D.shl (x &&& S.quietBit) t = (x.testBit q).toNat * 2 ^ q * 2 ^ t := by
    rw [hquiet, Nat.and_two_pow, shl_eq (by omega) (hword _ hbit)]
  have hmod : x % 2 ^ q < 2 ^ D.significandBits :=
    Nat.lt_of_lt_of_le (Nat.mod_lt _ (Nat.two_pow_pos q))
      (Nat.pow_le_pow_right (by decide) (by omega))
  have htop := shl_maxExponent h.target
  have hle := two_pow_le_infRep h.source
  have htest : ¬ wrapSub S.typeWidth x S.implicitBit < wrapSub S.typeWidth S.infRep S.implicitBit := by
    rw [wrapSub_lt_iff h.source hx]
    omega
  refine ⟨(x.testBit q).toNat * 2 ^ q * 2 ^ t ||| x % 2 ^ q, Nat.or_lt_two_pow hbit hmod, ?_, ?_⟩
  · have hexponent : x / 2 ^ S.significandBits = S.maxExponent := by
      have h1 := (exponent_eq_max_iff S x).2 (by rwa [magnitude, Nat.mod_eq_of_lt hx])
      rwa [magnitude, Nat.mod_eq_of_lt hx] at h1
    have hsplit := eq_exponent_add S.significandBits x
    have hpart := Nat.mod_pow_succ (x := x) (b := 2) (k := q)
    rw [hexponent, ← infRep_eq, hq, hpart] at hsplit
    have hone := Nat.testBit_eq_decide_div_mod_eq (x := x) (i := q)
    have hpos := Nat.two_pow_pos q
    have htpos := Nat.two_pow_pos t
    rw [Nat.or_eq_zero_iff]
    rcases Nat.mod_two_eq_zero_or_one (x / 2 ^ q) with hzero | hset
    · rw [hzero] at hone hsplit
      rw [hone]
      simp only [Nat.zero_ne_one, decide_false, Bool.toNat_false, Nat.zero_mul, true_and]
      omega
    · rw [hset] at hone hsplit
      rw [hone]
      simp only [decide_true, Bool.toNat_true, Nat.one_mul, Nat.mul_eq_zero]
      omega
  · simp only [extendAbs, if_neg htest, if_pos hinf, hshift, hlow, hhigh, htop]
    rw [Nat.or_assoc, infRep_eq, Nat.mul_comm,
      Nat.two_pow_add_eq_or_of_lt (Nat.or_lt_two_pow hbit hmod)]

/-- A finite magnitude keeps its value, at the scale of the wider format. -/
theorem extendAbs_finite (h : Wider S D t b) (hx : x < S.infRep) :
    extendAbs S D x < D.infRep ∧
      mag D.significandBits (extendAbs S D x) = mag S.significandBits x * 2 ^ (t + b) := by
  rcases Nat.lt_or_ge x (2 ^ S.significandBits) with hsmall | hnormal
  · rcases Nat.eq_zero_or_pos x with rfl | h0
    · have hzero : extendAbs S D 0 = 0 := by
        have htest : ¬ wrapSub S.typeWidth 0 S.implicitBit
            < wrapSub S.typeWidth S.infRep S.implicitBit := by
          rw [wrapSub_lt_iff h.source (Nat.two_pow_pos _)]
          omega
        simp only [extendAbs, if_neg htest, if_neg (show ¬ S.infRep ≤ 0 by omega), ne_eq,
          not_true_eq_false, if_false]
      rw [hzero, mag_zero, mag_zero, Nat.zero_mul]
      exact ⟨infRep_pos h.target, rfl⟩
    · have hlog : Nat.log2 x < S.significandBits := (Nat.log2_lt (by omega)).2 hsmall
      obtain ⟨hlower, hupper⟩ := shiftLeft_to_top h0 (Nat.le_of_lt hlog)
      have hbelow := h.below
      have hval := mag_widen_denormal (b := b) (by omega) hlower hupper t
      rw [extendAbs_denormal h h0 hsmall, mag_of_lt hsmall, h.significandBits_eq, hval]
      refine ⟨?_, rfl⟩
      have hmul := Nat.mul_le_mul_right (2 ^ (S.significandBits + t))
        (show b - (S.significandBits - Nat.log2 x) + 1 + 1 ≤ D.maxExponent by
          have := h.room
          have := h.source.seven_le_maxExponent
          omega)
      have hscale : x * 2 ^ (t + (S.significandBits - Nat.log2 x))
          < 2 * 2 ^ (S.significandBits + t) := by
        have := Nat.mul_lt_mul_of_pos_right hupper (Nat.two_pow_pos t)
        calc x * 2 ^ (t + (S.significandBits - Nat.log2 x))
            = x * 2 ^ (S.significandBits - Nat.log2 x) * 2 ^ t := by
              rw [pow_add]
              ring
          _ < 2 ^ (S.significandBits + 1) * 2 ^ t := this
          _ = 2 * 2 ^ (S.significandBits + t) := by
              rw [pow_add, pow_add]
              ring
      rw [Nat.succ_mul] at hmul
      rw [infRep_eq, h.significandBits_eq]
      have := Nat.two_pow_pos (S.significandBits + t)
      omega
  · rw [extendAbs_normal h hnormal hx]
    refine ⟨infRep_wider h hx, ?_⟩
    rw [h.significandBits_eq, mag_widen_normal hnormal]

/-- The sign is shifted to the top of the wider word. -/
theorem shl_sign (h : Wider S D t b) (s : Bool) :
    D.shl (S.withSign s 0) (D.typeWidth - S.typeWidth) = D.withSign s 0 := by
  have hsource := h.source.typeWidth_eq
  have htarget := h.target.typeWidth_eq
  have hbits := h.significandBits_eq
  have hexp := h.exponentBits_le
  have heq : S.withSign s 0 * 2 ^ (D.typeWidth - S.typeWidth) = D.withSign s 0 := by
    rw [withSign, withSign, Nat.add_zero, Nat.add_zero, Nat.mul_assoc, ← pow_add]
    congr 2
    omega
  have hlt := withSign_lt h.target s (Nat.two_pow_pos _)
  rw [shl_eq (by omega) (by rwa [heq]), heq]

theorem extend_eq (h : Wider S D t b) {a m : ℕ} (hm : extendAbs S D (S.magnitude a) = m)
    (hlt : m < 2 ^ (D.significandBits + D.exponentBits)) :
    FpLib.extend S D a = D.withSign (S.negative a) m := by
  simp only [FpLib.extend, and_absMask, and_signBit, hm, shl_sign h]
  exact or_withSign _ hlt

/-- Infinity with stored bits leaves the sign alone. -/
theorem infRep_add_lt (D : FpLib) {y : ℕ} (hy : y < 2 ^ D.significandBits) :
    D.infRep + y < 2 ^ (D.significandBits + D.exponentBits) := by
  have hmax := maxExponent_eq D
  have hpos := Nat.two_pow_pos D.exponentBits
  rw [infRep_eq, pow_add, Nat.mul_comm (2 ^ D.significandBits),
    show 2 ^ D.exponentBits = D.maxExponent + 1 by omega, Nat.succ_mul]
  omega

/-- The least denormals in one, in both formats. -/
theorem FpLib.Wider.units_oneRep (h : Wider S D t b) :
    D.units D.oneRep = S.units S.oneRep * 2 ^ (t + b) := by
  have hbias := h.source.one_le_exponentBias
  rw [Fp.units_oneRep h.target, Fp.units_oneRep h.source, mag_oneRep h.target, mag_oneRep h.source,
    h.significandBits_eq, h.exponentBias_eq,
    show S.exponentBias + b - 1 = S.exponentBias - 1 + b by omega]
  simp only [pow_add]
  ring

/-- The wider number has the same kind, the same sign and the same value. -/
theorem extend_spec (h : Wider S D t b) (a : ℕ) : WidensSpec S D a (FpLib.extend S D a) := by
  have hmag := magnitude_lt S a
  rcases Nat.lt_or_ge (S.magnitude a) S.infRep with hfin | hinf
  · obtain ⟨hlt, hval⟩ := extendAbs_finite h hfin
    generalize hm : extendAbs S D (S.magnitude a) = m at hlt hval
    have hroom := Nat.lt_trans hlt (infRep_lt D)
    rw [extend_eq h hm hroom]
    refine ⟨negative_withSign _ hroom, fun hnan => absurd hfin (Nat.not_lt_of_gt hnan),
      fun hi => absurd hi (Nat.ne_of_lt hfin), fun _ => ?_⟩
    refine ⟨by rwa [IsFinite, magnitude_withSign _ hroom], ?_⟩
    rw [value_eq, value_eq, negative_withSign _ hroom, magnitude_withSign _ hroom, hval,
      h.units_oneRep]
    cases S.negative a with
    | false =>
        simp only [Bool.false_eq_true, if_false]
        push_cast
        ring
    | true =>
        simp only [if_true]
        push_cast
        ring
  · obtain ⟨y, hy, hzero, heq⟩ := extendAbs_special h hinf hmag
    have hroom := infRep_add_lt D hy
    rw [extend_eq h heq hroom]
    refine ⟨negative_withSign _ hroom, ?_, ?_, fun hfin => absurd hinf (Nat.not_le_of_gt hfin)⟩
    · intro hnan
      have hne : S.magnitude a ≠ S.infRep := Nat.ne_of_gt hnan
      rw [IsNaN, magnitude_withSign _ hroom]
      have hy0 : y ≠ 0 := fun h0 => hne (hzero.1 h0)
      omega
    · intro hi
      rw [IsInf, magnitude_withSign _ hroom, hzero.2 hi, Nat.add_zero]

theorem single_double_wider (overshift : ℕ → ℕ → ℕ) :
    Wider (single overshift) (double overshift) 29 896 where
  source := single_lawful overshift
  target := double_lawful overshift
  significandBits_eq := rfl
  exponentBias_eq := by rw [single_exponentBias, double_exponentBias]
  room := by
    rw [single_maxExponent, double_maxExponent]
    decide
  exponentBits_le := by simp
  below := show 23 ≤ 896 by decide

/-- Every single-precision number becomes the double-precision number of the same value. -/
theorem extendsfdf2_spec (overshift : ℕ → ℕ → ℕ) (a : ℕ) :
    WidensSpec (single overshift) (double overshift) a (extendsfdf2 overshift a) :=
  extend_spec (single_double_wider overshift) a

end Widening

end Fp
end F32c
