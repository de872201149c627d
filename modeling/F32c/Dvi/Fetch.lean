import F32c.Dvi.Unpack

/-!
# The addresses of the words

The counters move with each word that is delivered.  This module says in closed form where
they are after a number of words, and which word of the framebuffer the address register
points at.
-/

namespace F32c
namespace Dvi

namespace Mode

variable (m : Mode)

/-- The step of the line counter, which is also the number of fields. -/
def fields : Nat := if m.interlace then 2 else 1

/-- The lines after which the line counter reaches its end; with an odd number of lines an
interlaced field has no end. -/
def fieldLines : Nat :=
  if m.interlace && m.vdisp.toNat % 2 == 0 then m.vdisp.toNat / 2 else m.vdisp.toNat

/-- The line of the framebuffer that is fetched as the `k`-th line of a frame. -/
def fetchedLine (k : Nat) : Nat :=
  if m.interlace then
    if m.doublepix then k % m.fieldLines else 2 * (k % m.fieldLines) + k / m.fieldLines
  else if m.doublepix then k / 2 else k

/-- The place in the framebuffer that the address register has when `n` words have come. -/
def fetchedWord (n : Nat) : Nat := m.fetchedLine (n / m.lineWords) * m.lineWords + n % m.lineWords

/-- The words of a frame. -/
def frameWords : Nat := m.lineWords * m.vdisp.toNat

variable {m}

theorem lineWords_pos {n : Nat} (hn : n < m.frameWords) : 0 < m.lineWords := by
  rw [Nat.pos_iff_ne_zero]
  intro hzero
  rw [frameWords, hzero, Nat.zero_mul] at hn
  omega

theorem hlim_toNat (hh : m.hdisp.toNat < 2048) : m.hlim.toNat = m.lineWords := by
  obtain ⟨hd, vd, il, bpp, dp, base⟩ := m
  dsimp only at hh
  have hwidth : ∀ a b : Nat, (BitVec.extractLsb' a b hd).toNat = hd.toNat / 2 ^ a % 2 ^ b := by
    intro a b
    rw [BitVec.extractLsb'_toNat, Nat.shiftRight_eq_div_pow]
  cases dp with
  | false =>
      cases bpp <;>
        simp only [Mode.hlim, Mode.lineWords, Mode.scale, Bpp.bits, BitVec.toNat_setWidth, hwidth,
          Bool.false_eq_true, if_false] <;> omega
  | true =>
      cases bpp <;>
        simp only [Mode.hlim, Mode.lineWords, Mode.scale, Bpp.bits, BitVec.toNat_setWidth, hwidth,
          BitVec.extractLsb'_toNat, Nat.shiftRight_eq_div_pow, if_true] <;> omega

/-- Counting on within a row of `d`, or to the next row. -/
theorem succ_div_mod {n d : Nat} (hd : 0 < d) :
    n % d + 1 < d ∧ (n + 1) % d = n % d + 1 ∧ (n + 1) / d = n / d ∨
      n % d + 1 = d ∧ (n + 1) % d = 0 ∧ (n + 1) / d = n / d + 1 := by
  have hlt := Nat.mod_lt n hd
  have hdiv := Nat.div_add_mod n d
  rcases Nat.lt_or_ge (n % d + 1) d with h | h
  · left
    have hn : n + 1 = d * (n / d) + (n % d + 1) := by omega
    refine ⟨h, ?_, ?_⟩
    · rw [hn, Nat.mul_add_mod, Nat.mod_eq_of_lt h]
    · rw [hn, Nat.mul_add_div hd, Nat.div_eq_of_lt h, Nat.add_zero]
  · right
    have hn : n + 1 = d * (n / d + 1) := by
      rw [Nat.mul_add, Nat.mul_one]
      omega
    refine ⟨by omega, ?_, ?_⟩
    · rw [hn, Nat.mul_mod_right]
    · rw [hn, Nat.mul_div_cancel_left _ hd]

theorem fieldLines_cases (m : Mode) :
    m.fieldLines = m.vdisp.toNat ∨
      m.interlace = true ∧ m.vdisp.toNat = 2 * m.fieldLines ∧ m.vdisp.toNat % 2 = 0 := by
  rw [fieldLines]
  split
  · rename_i h
    simp only [Bool.and_eq_true, beq_iff_eq] at h
    exact .inr ⟨h.1, by omega, h.2⟩
  · exact .inl rfl

theorem fieldLines_pos {k : Nat} (hk : k < m.vdisp.toNat) : 0 < m.fieldLines := by
  rcases m.fieldLines_cases with h | ⟨-, h, -⟩ <;> omega

/-- Behind a line there is the next line of its field, or the first one of the second field. -/
theorem next_line {k : Nat} (hk : k + 1 < m.vdisp.toNat) :
    k % m.fieldLines + 1 < m.fieldLines ∧ (k + 1) % m.fieldLines = k % m.fieldLines + 1 ∧
        (k + 1) / m.fieldLines = k / m.fieldLines ∨
      (m.interlace = true ∧ m.vdisp.toNat = 2 * (k % m.fieldLines + 1)) ∧ k / m.fieldLines = 0 ∧
        (k + 1) % m.fieldLines = 0 ∧ (k + 1) / m.fieldLines = 1 := by
  have hpos := @fieldLines_pos m k (by omega)
  rcases @succ_div_mod k m.fieldLines hpos with h | ⟨hlast, hmod, hdiv⟩
  · exact .inl h
  · right
    have hk1 : k + 1 = m.fieldLines * (k / m.fieldLines + 1) := by
      rw [← hdiv, Nat.mul_div_cancel' (Nat.dvd_of_mod_eq_zero hmod)]
    have hfirst : k / m.fieldLines = 0 := by
      by_contra hne
      have hge : m.fieldLines * 2 ≤ m.fieldLines * (k / m.fieldLines + 1) :=
        Nat.mul_le_mul_left _ (Nat.succ_le_succ (Nat.pos_of_ne_zero hne))
      rcases m.fieldLines_cases with h | ⟨-, h, -⟩ <;> omega
    rw [hfirst] at hk1 hdiv
    rcases m.fieldLines_cases with h | ⟨hil, h, -⟩
    · omega
    · exact ⟨⟨hil, by omega⟩, hfirst, hmod, hdiv⟩

end Mode

open Mode

variable {m : Mode} {s : Scan} {n : Nat}

/-- The counters when `n` words have come. -/
structure Fetching (m : Mode) (s : Scan) (n : Nat) : Prop where
  hlim : s.dmaHlim = m.hlim
  cur : s.dmaCur = m.dmaBase + BitVec.ofNat 30 (m.fetchedWord n)
  hcnt : s.dmaHcnt = BitVec.ofNat 11 (n % m.lineWords)
  vcnt : s.dmaVcnt = BitVec.ofNat 11 (m.fields * (n / m.lineWords % m.fieldLines))
  field : s.dmaFieldCnt = BitVec.ofNat 2 (m.fields - n / m.lineWords / m.fieldLines)
  repeatLine : s.repeatLine = (m.doublepix && n / m.lineWords % 2 == 0)

theorem ofNat_eq_iff {w a : Nat} (ha : a < 2 ^ w) {x : BitVec w} :
    BitVec.ofNat w a = x ↔ a = x.toNat := by
  constructor
  · intro h
    rw [← h, BitVec.toNat_ofNat, Nat.mod_eq_of_lt ha]
  · rintro rfl
    rw [BitVec.ofNat_toNat, BitVec.setWidth_eq]

theorem base_add (base : Addr) (a b : Nat) :
    base + BitVec.ofNat 30 a + BitVec.ofNat 30 b = base + BitVec.ofNat 30 (a + b) := by
  rw [BitVec.add_assoc, BitVec.ofNat_add]

theorem base_succ (base : Addr) (a : Nat) :
    base + BitVec.ofNat 30 a + 1 = base + BitVec.ofNat 30 (a + 1) :=
  base_add base a 1

theorem base_sub (base : Addr) {a b : Nat} (h : b ≤ a) :
    base + BitVec.ofNat 30 a - BitVec.ofNat 30 b = base + BitVec.ofNat 30 (a - b) := by
  obtain ⟨d, rfl⟩ := Nat.exists_eq_add_of_le h
  rw [Nat.add_sub_cancel_left, Nat.add_comm b d, BitVec.ofNat_add, ← BitVec.add_assoc,
    BitVec.add_sub_cancel]

section Step

variable (hL : m.hlim.toNat = m.lineWords) (hpos : 0 < m.lineWords)

include hL in
theorem hlim_setWidth : m.hlim.setWidth 30 = BitVec.ofNat 30 m.lineWords := by
  rw [← hL, BitVec.ofNat_toNat]

include hL in
/-- The test for the end of a line. -/
theorem Fetching.lineEnd_iff (hf : Fetching m s n) (hpos : 0 < m.lineWords) :
    s.dmaHcnt + 1 = s.dmaHlim ↔ n % m.lineWords + 1 = m.lineWords := by
  have hlt := Nat.mod_lt n hpos
  have hlim := m.hlim.isLt
  rw [hf.hcnt, hf.hlim, ofNat_succ, ofNat_eq_iff (by omega), hL]

include hL hpos in
/-- A word that does not end its line. -/
theorem Fetching.within (hf : Fetching m s n) (hin : n % m.lineWords + 1 < m.lineWords) :
    Fetching m (s.moveOn m) (n + 1) := by
  have hno : ¬s.dmaHcnt + 1 = s.dmaHlim := by
    rw [hf.lineEnd_iff hL hpos]
    omega
  rcases @succ_div_mod n m.lineWords hpos with ⟨-, hmod, hdiv⟩ | ⟨hlast, -⟩
  · rw [Scan.moveOn, if_neg hno]
    refine ⟨hf.hlim, ?_, ?_, ?_, ?_, ?_⟩
    · dsimp only
      rw [hf.cur, base_succ, fetchedWord, fetchedWord, hmod, hdiv, ← Nat.add_assoc]
    · dsimp only
      rw [hf.hcnt, hmod, ofNat_succ]
    · rw [hdiv]
      exact hf.vcnt
    · rw [hdiv]
      exact hf.field
    · rw [hdiv]
      exact hf.repeatLine
  · omega

/-- The counter of the lines at its end. -/
theorem Fetching.fieldEnd_iff (hf : Fetching m s n) (hk : n / m.lineWords + 1 < m.vdisp.toNat) :
    s.dmaVcnt + BitVec.ofNat 11 m.fields = m.vdisp ↔
      m.interlace = true ∧ m.vdisp.toNat = 2 * (n / m.lineWords % m.fieldLines + 1) := by
  have hpos := @fieldLines_pos m (n / m.lineWords) (by omega)
  have hlt := Nat.mod_lt (n / m.lineWords) hpos
  have hle := Nat.mod_le (n / m.lineWords) m.fieldLines
  have hv := m.vdisp.isLt
  have hvcnt := hf.vcnt
  generalize n / m.lineWords % m.fieldLines = j at *
  have hsum : s.dmaVcnt + BitVec.ofNat 11 m.fields = BitVec.ofNat 11 (m.fields * (j + 1)) := by
    rw [hvcnt, ← BitVec.ofNat_add, Nat.mul_add, Nat.mul_one]
  rw [hsum, fields]
  cases hil : m.interlace with
  | false =>
      rw [if_neg (by simp), ofNat_eq_iff (by omega)]
      simp only [Bool.false_eq_true, false_and, iff_false]
      omega
  | true =>
      rw [if_pos rfl]
      have heq : BitVec.ofNat 11 (2 * (j + 1)) = m.vdisp ↔
          2 * (j + 1) % 2 ^ 11 = m.vdisp.toNat := by
        rw [← BitVec.toNat_inj, BitVec.toNat_ofNat]
      rw [heq]
      simp only [true_and]
      rw [fieldLines, hil, Bool.true_and] at hlt
      split at hlt
      · rename_i heven
        rw [beq_iff_eq] at heven
        omega
      · rename_i hodd
        rw [beq_iff_eq] at hodd
        omega

include hL hpos in
/-- The last word of a line that is not the last one. -/
theorem Fetching.lineEnd (hf : Fetching m s n) (hlast : n % m.lineWords + 1 = m.lineWords)
    (hk : n / m.lineWords + 1 < m.vdisp.toNat) : Fetching m (s.moveOn m) (n + 1) := by
  have hend := hf.fieldEnd_iff hk
  have hline := @next_line m (n / m.lineWords) hk
  have hwidth := hlim_setWidth hL
  have hrow : (n + 1) % m.lineWords = 0 ∧ (n + 1) / m.lineWords = n / m.lineWords + 1 := by
    rcases @succ_div_mod n m.lineWords hpos with ⟨hin, -⟩ | ⟨-, h⟩
    · omega
    · exact h
  have hcur : s.dmaCur + 1 =
      m.dmaBase + BitVec.ofNat 30 ((m.fetchedLine (n / m.lineWords) + 1) * m.lineWords) := by
    rw [hf.cur, base_succ, fetchedWord, Nat.add_assoc, hlast, Nat.add_mul, Nat.one_mul]
  have hnext : m.fetchedWord (n + 1) = m.fetchedLine (n / m.lineWords + 1) * m.lineWords := by
    rw [fetchedWord, hrow.1, hrow.2, Nat.add_zero]
  have hrep : (s.repeatLine ^^ m.doublepix) =
      (m.doublepix && (n / m.lineWords + 1) % 2 == 0) := by
    rw [hf.repeatLine]
    cases m.doublepix with
    | false => rfl
    | true =>
        have hpar : (n / m.lineWords + 1) % 2 = 1 - n / m.lineWords % 2 := by omega
        rcases Nat.mod_two_eq_zero_or_one (n / m.lineWords) with h | h <;> simp [h, hpar]
  have hmake : ∀ s' : Scan, s'.dmaHlim = s.dmaHlim → s'.dmaHcnt = 0 →
      s'.repeatLine = (s.repeatLine ^^ m.doublepix) →
      s'.dmaCur = m.dmaBase +
        BitVec.ofNat 30 (m.fetchedLine (n / m.lineWords + 1) * m.lineWords) →
      s'.dmaVcnt = BitVec.ofNat 11 (m.fields * ((n / m.lineWords + 1) % m.fieldLines)) →
      s'.dmaFieldCnt = BitVec.ofNat 2 (m.fields - (n / m.lineWords + 1) / m.fieldLines) →
      Fetching m s' (n + 1) := by
    intro s' h1 h2 h3 h4 h5 h6
    refine ⟨h1.trans hf.hlim, ?_, ?_, ?_, ?_, ?_⟩
    · rw [hnext, h4]
    · rw [hrow.1, h2]
      rfl
    · rw [hrow.2, h5]
    · rw [hrow.2, h6]
    · rw [hrow.2, h3, hrep]
  have hvcnt := hf.vcnt
  have hfield := hf.field
  have hrepeat := hf.repeatLine
  have hlim : s.dmaHlim.setWidth 30 = BitVec.ofNat 30 m.lineWords := by rw [hf.hlim, hwidth]
  rw [Scan.moveOn, if_pos ((hf.lineEnd_iff hL hpos).2 hlast)]
  generalize n / m.lineWords = k at *
  rcases hline with ⟨hin, hmod, hdiv⟩ | ⟨hswitch, hzero, hmod, hdiv⟩
  · have hgo : ¬s.dmaVcnt + BitVec.ofNat 11 m.fields = m.vdisp := by
      rw [hend]
      rintro ⟨hil, heq⟩
      rw [fieldLines, hil, Bool.true_and, if_pos (by rw [beq_iff_eq]; omega)] at hin
      rw [fieldLines, hil, Bool.true_and, if_pos (by rw [beq_iff_eq]; omega)] at heq
      omega
    have hv : BitVec.ofNat 11 (m.fields * ((k + 1) % m.fieldLines)) =
        s.dmaVcnt + BitVec.ofNat 11 m.fields := by
      rw [hvcnt, hmod, ← BitVec.ofNat_add, Nat.mul_add, Nat.mul_one]
    cases hil : m.interlace with
    | true =>
        have hfields : m.fields = 2 := by rw [fields, hil, if_pos rfl]
        rw [hfields] at hgo hv
        change ¬s.dmaVcnt + 2 = m.vdisp at hgo
        rw [Scan.lineEnd, if_pos hil, if_neg hgo]
        refine hmake _ rfl rfl rfl ?_ (by rw [hfields]; exact hv.symm) ?_
        · dsimp only
          rw [hcur, hlim, base_add, fetchedLine, fetchedLine, if_pos hil, if_pos hil, hmod, hdiv]
          split
          · rfl
          · rw [show (2 * (k % m.fieldLines) + k / m.fieldLines + 1) * m.lineWords + m.lineWords =
              (2 * (k % m.fieldLines + 1) + k / m.fieldLines) * m.lineWords by ring]
        · rw [hdiv]
          exact hfield
    | false =>
        have hfields : m.fields = 1 := by rw [fields, hil, if_neg (by simp)]
        rw [hfields] at hgo hv
        change ¬s.dmaVcnt + 1 = m.vdisp at hgo
        rw [Scan.lineEnd, if_neg (by simp [hil])]
        dsimp only
        rw [if_neg hgo]
        refine hmake _ rfl rfl rfl ?_ (by rw [hfields]; exact hv.symm) ?_
        · dsimp only
          have hline' : ∀ k, m.fetchedLine k = if m.doublepix then k / 2 else k := by
            intro k
            rw [fetchedLine, if_neg (by simp [hil])]
          rw [hcur, hlim, hrepeat, hline', hline']
          cases hdp : m.doublepix with
          | false => rfl
          | true =>
              rw [if_pos rfl, if_pos rfl, Bool.true_and]
              rcases Nat.mod_two_eq_zero_or_one k with heven | hodd
              · have hle : m.lineWords ≤ (k / 2 + 1) * m.lineWords :=
                  Nat.le_mul_of_pos_left _ (Nat.succ_pos _)
                rw [if_pos (by simp [heven]), base_sub _ hle, Nat.add_mul, Nat.one_mul,
                  Nat.add_sub_cancel, show (k + 1) / 2 = k / 2 by omega]
              · rw [if_neg (by simp [hodd]), show (k + 1) / 2 = k / 2 + 1 by omega]
        · rw [hdiv]
          exact hfield
  · obtain ⟨hil, hlines⟩ := hswitch
    have hfields : m.fields = 2 := by rw [fields, hil, if_pos rfl]
    have hgo := hend.2 ⟨hil, hlines⟩
    rw [hfields] at hgo
    change s.dmaVcnt + 2 = m.vdisp at hgo
    rw [Scan.lineEnd, if_pos hil, if_pos hgo]
    refine hmake _ rfl rfl rfl ?_ ?_ ?_
    · dsimp only
      rw [hlim, fetchedLine, if_pos hil, hmod, hdiv]
      split
      · simp
      · simp
    · rw [hmod]
      rfl
    · dsimp only
      rw [hfield, hdiv, hzero, hfields]
      rfl

include hL hpos in
/-- The counters move on as long as the frame has words. -/
theorem Fetching.moveOn (hf : Fetching m s n) (hn : n + 1 < m.frameWords) :
    Fetching m (s.moveOn m) (n + 1) := by
  rcases @succ_div_mod n m.lineWords hpos with ⟨hin, -⟩ | ⟨hlast, -, hdiv⟩
  · exact hf.within hL hpos hin
  · refine hf.lineEnd hL hpos hlast ?_
    rw [← hdiv, Nat.div_lt_iff_lt_mul hpos, Nat.mul_comm]
    exact hn

/-- The second field is the last one. -/
theorem Fetching.field_ne_zero (hf : Fetching m s n) (hpos : 0 < m.lineWords)
    (hn : n < m.frameWords) : s.dmaFieldCnt ≠ 0 := by
  have hk : n / m.lineWords < m.vdisp.toNat := by
    rw [Nat.div_lt_iff_lt_mul hpos, Nat.mul_comm]
    exact hn
  have hF := fieldLines_pos hk
  have hlt : n / m.lineWords / m.fieldLines < m.fields := by
    rw [Nat.div_lt_iff_lt_mul hF, fields]
    rcases m.fieldLines_cases with h | ⟨hil, h, -⟩
    · split <;> omega
    · rw [if_pos hil]
      omega
  have hfields : m.fields ≤ 2 := by
    rw [fields]
    split <;> omega
  rw [hf.field]
  generalize n / m.lineWords / m.fieldLines = f at *
  intro heq
  have hval := congrArg BitVec.toNat heq
  rw [BitVec.toNat_ofNat, Nat.mod_eq_of_lt (by omega)] at hval
  change m.fields - f = 0 at hval
  omega

end Step

end Dvi
end F32c
