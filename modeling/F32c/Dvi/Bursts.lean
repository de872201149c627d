import F32c.Dvi.Scanout

/-!
# Bursts and lines

A burst delivers the words that are to be shown if the address register moves on word by
word while it is under way.  Whether it does depends on the number of words in a line: where
lines are repeated or skipped, a line has to end together with a burst.
-/

namespace F32c
namespace Dvi

namespace Mode

variable {m : Mode} {n k : Nat}

/-- Bursts end where the address register jumps. -/
def BurstsFit (m : Mode) : Prop :=
  m.lineWords = 0 ∨
    match m.interlace, m.doublepix with
    | false, false => True
    | false, true => m.vdisp.toNat ≤ 1 ∨ burstWords ∣ m.lineWords
    | true, false => m.vdisp.toNat ≤ 2 ∨ m.vdisp.toNat % 2 = 0 ∧ burstWords ∣ m.lineWords
    | true, true =>
      m.vdisp.toNat ≤ 1 ∨
        m.vdisp.toNat % 2 = 0 ∧ burstWords ∣ m.lineWords * (m.vdisp.toNat / 2)

/-- A burst lies within a row of whole bursts. -/
theorem burst_row {d : Nat} (hdvd : burstWords ∣ d) (n : Nat) :
    burstWords * (n / burstWords) / d = n / d ∧
      burstWords * (n / burstWords) % d + n % burstWords = n % d := by
  obtain ⟨e, rfl⟩ := hdvd
  have hpos : 0 < burstWords := by decide
  have hdiv : burstWords * (n / burstWords) / (burstWords * e) = n / (burstWords * e) := by
    rw [Nat.mul_div_mul_left _ _ hpos, Nat.div_div_eq_div_mul]
  refine ⟨hdiv, ?_⟩
  rw [Nat.mul_mod_mul_left, Nat.mod_mul, Nat.add_comm]

theorem fieldLines_even (hil : m.interlace = true) (heven : m.vdisp.toNat % 2 = 0) :
    m.fieldLines = m.vdisp.toNat / 2 := by
  rw [fieldLines, hil, if_pos (by simp [heven])]

theorem fieldLines_odd (hil : m.interlace = true) (hodd : m.vdisp.toNat % 2 = 1) :
    m.fieldLines = m.vdisp.toNat := by
  rw [fieldLines, hil, if_neg (by simp [hodd])]

/-- In a mode with two whole fields the lines are fetched in the order of display. -/
theorem fetchedLine_even (hil : m.interlace = true) (heven : m.vdisp.toNat % 2 = 0)
    (hk : k < m.vdisp.toNat) : m.fetchedLine k = m.displayLine k := by
  have hF := fieldLines_even hil heven
  have hE : m.firstField = m.vdisp.toNat / 2 := by
    rw [firstField]
    omega
  rw [fetchedLine, displayLine, if_pos hil, if_pos hil, hF, hE]
  have hv : m.vdisp.toNat = 2 * (m.vdisp.toNat / 2) := by omega
  generalize m.vdisp.toNat / 2 = f at *
  by_cases hfirst : k < f
  · simp only [if_pos hfirst, Nat.mod_eq_of_lt hfirst, Nat.div_eq_of_lt hfirst, Nat.add_zero]
  · have hmod : k % f = k - f := by
      rw [Nat.mod_eq_sub_mod (by omega), Nat.mod_eq_of_lt (by omega)]
    have hdiv : k / f = 1 :=
      Nat.div_eq_of_lt_le (by omega) (by omega)
    simp only [if_neg hfirst, hmod, hdiv]

/-- The lines of a single field one after the other. -/
theorem fetchedLine_odd (hil : m.interlace = true) (hodd : m.vdisp.toNat % 2 = 1)
    (hk : k < m.vdisp.toNat) : m.fetchedLine k = if m.doublepix then k else 2 * k := by
  rw [fetchedLine, if_pos hil, fieldLines_odd hil hodd, Nat.mod_eq_of_lt hk, Nat.div_eq_of_lt hk]
  rfl

theorem fetchedLine_progressive (hil : m.interlace = false) (k : Nat) :
    m.fetchedLine k = m.displayLine k := by
  rw [fetchedLine, displayLine, hil]
  rfl

theorem line_lt (hn : n < m.frameWords) : n / m.lineWords < m.vdisp.toNat := by
  rw [Nat.div_lt_iff_lt_mul (lineWords_pos hn), Nat.mul_comm]
  exact hn

theorem line_mul_lt (hpos : 0 < m.lineWords) (hk : k < m.vdisp.toNat) :
    k * m.lineWords < m.frameWords := by
  rw [frameWords, Nat.mul_comm]
  exact Nat.mul_lt_mul_of_pos_left hk hpos

/-- The word at the beginning of a line. -/
theorem displayWord_line (hpos : 0 < m.lineWords) (k : Nat) :
    m.displayWord (k * m.lineWords) = m.displayLine k * m.lineWords := by
  rw [displayWord, Nat.mul_div_cancel _ hpos, Nat.mul_mod_left, Nat.add_zero]

/-- The first line of the second field. -/
theorem displayLine_firstField (hil : m.interlace = true) :
    m.displayLine m.firstField = if m.doublepix then 0 else 1 := by
  rw [displayLine, if_pos hil]
  simp only [if_neg (Nat.lt_irrefl m.firstField), Nat.sub_self, Nat.mul_zero, Nat.zero_add]

/-- With lines of whole bursts every burst stays in its line. -/
theorem burstWord_of_dvd (hdvd : burstWords ∣ m.lineWords) (n : Nat) :
    m.burstWord n = m.fetchedWord n := by
  obtain ⟨hdiv, hmod⟩ := burst_row hdvd n
  rw [burstWord, fetchedWord, fetchedWord, hdiv, Nat.add_assoc, hmod]

/-- Where lines lie one behind the other, so do the words of a burst. -/
theorem burstWord_of_lines (hline : ∀ k, k ≤ n / m.lineWords → m.fetchedLine k = k) :
    m.burstWord n = n := by
  have hle : burstWords * (n / burstWords) ≤ n := Nat.mul_div_le n burstWords
  have hword : m.fetchedWord (burstWords * (n / burstWords)) = burstWords * (n / burstWords) := by
    rw [fetchedWord, hline _ (Nat.div_le_div_right hle), Nat.mul_comm, Nat.div_add_mod]
  rw [burstWord, hword, Nat.div_add_mod]

theorem displayWord_of_line (hline : m.displayLine (n / m.lineWords) = n / m.lineWords) :
    m.displayWord n = n := by
  rw [displayWord, hline, Nat.mul_comm, Nat.div_add_mod]

/-- In an interlaced mode with double pixels the fields are a row each. -/
theorem fetchedWord_field (hil : m.interlace = true) (hdp : m.doublepix = true) (n : Nat) :
    m.fetchedWord n = n % (m.lineWords * m.fieldLines) := by
  rw [fetchedWord, fetchedLine, if_pos hil, if_pos hdp, Nat.mod_mul, Nat.add_comm, Nat.mul_comm]

/-- With fields of whole bursts every burst stays in its field. -/
theorem burstWord_field (hil : m.interlace = true) (hdp : m.doublepix = true)
    (hdvd : burstWords ∣ m.lineWords * m.fieldLines) (n : Nat) :
    m.burstWord n = m.fetchedWord n := by
  obtain ⟨-, hmod⟩ := burst_row hdvd n
  rw [burstWord, fetchedWord_field hil hdp, fetchedWord_field hil hdp, hmod]

/-- Modes with the lines in order. -/
theorem lines_in_order (hshort : m.interlace = false ∧ m.doublepix = false ∨ m.vdisp.toNat ≤ 1 ∨
    m.interlace = true ∧ m.doublepix = false ∧ m.vdisp.toNat ≤ 2) (hk : k < m.vdisp.toNat) :
    m.fetchedLine k = k ∧ m.displayLine k = k := by
  rcases hshort with ⟨hil, hdp⟩ | hone | ⟨hil, hdp, htwo⟩
  · rw [fetchedLine_progressive hil, displayLine, hil, hdp]
    exact ⟨rfl, rfl⟩
  · have hzero : k = 0 := by omega
    subst hzero
    have hfirst : 0 < m.firstField := by
      rw [firstField]
      omega
    constructor
    · simp [fetchedLine]
    · simp [displayLine, hfirst]
  · have heven : m.vdisp.toNat = 2 ∨ m.vdisp.toNat = 1 := by omega
    rw [fetchedLine, displayLine, firstField, fieldLines, hil, hdp]
    rcases heven with h | h
    · have hk' : k = 0 ∨ k = 1 := by omega
      rw [h]
      rcases hk' with rfl | rfl <;> exact ⟨rfl, rfl⟩
    · have hk' : k = 0 := by omega
      rw [h, hk']
      exact ⟨rfl, rfl⟩

/-- Bursts that fit deliver the words in the order of display. -/
theorem BurstsFit.burstWord_eq (hfit : m.BurstsFit) (hn : n < m.frameWords) :
    m.burstWord n = m.displayWord n := by
  have hpos := lineWords_pos hn
  have hk := line_lt hn
  have hfit' := hfit.resolve_left (by omega)
  have hinOrder : (m.interlace = false ∧ m.doublepix = false ∨ m.vdisp.toNat ≤ 1 ∨
      m.interlace = true ∧ m.doublepix = false ∧ m.vdisp.toNat ≤ 2) →
      m.burstWord n = m.displayWord n := by
    intro hshort
    rw [burstWord_of_lines fun k hle => (lines_in_order hshort (by omega)).1,
      displayWord_of_line (lines_in_order hshort hk).2]
  have hdvd : burstWords ∣ m.lineWords →
      m.fetchedLine (n / m.lineWords) = m.displayLine (n / m.lineWords) →
      m.burstWord n = m.displayWord n := by
    intro hdvd hline
    rw [burstWord_of_dvd hdvd, fetchedWord, displayWord, hline]
  cases hil : m.interlace with
  | false =>
      cases hdp : m.doublepix with
      | false => exact hinOrder (.inl ⟨hil, hdp⟩)
      | true =>
          rw [hil, hdp] at hfit'
          rcases hfit' with hone | hwhole
          · exact hinOrder (.inr (.inl hone))
          · exact hdvd hwhole (fetchedLine_progressive hil _)
  | true =>
      cases hdp : m.doublepix with
      | false =>
          rw [hil, hdp] at hfit'
          rcases hfit' with htwo | ⟨heven, hwhole⟩
          · exact hinOrder (.inr (.inr ⟨hil, hdp, htwo⟩))
          · exact hdvd hwhole (fetchedLine_even hil heven hk)
      | true =>
          rw [hil, hdp] at hfit'
          rcases hfit' with hone | ⟨heven, hwhole⟩
          · exact hinOrder (.inr (.inl hone))
          · rw [← fieldLines_even hil heven] at hwhole
            rw [burstWord_field hil hdp hwhole, fetchedWord, displayWord,
              fetchedLine_even hil heven hk]

/-- A word that is not at the beginning of a burst is not the first word. -/
theorem burstWord_ge (n : Nat) : n % burstWords ≤ m.burstWord n :=
  Nat.le_add_left _ _

/-- Otherwise some word is not the one to be shown. -/
theorem exists_burstWord_ne (hfit : ¬m.BurstsFit) :
    ∃ n, n < m.frameWords ∧ m.burstWord n ≠ m.displayWord n := by
  rw [BurstsFit, not_or] at hfit
  obtain ⟨hne, hfit⟩ := hfit
  have hpos : 0 < m.lineWords := Nat.pos_of_ne_zero hne
  have hlast : ∀ n, ¬burstWords ∣ n → m.displayWord n = 0 → m.burstWord n ≠ m.displayWord n := by
    intro n hndvd hzero
    have hmod := mt Nat.dvd_of_mod_eq_zero hndvd
    have hge := @burstWord_ge m n
    omega
  cases hil : m.interlace with
  | false =>
      cases hdp : m.doublepix with
      | false =>
          rw [hil, hdp] at hfit
          exact absurd trivial hfit
      | true =>
          -- the second line shows the first one again
          rw [hil, hdp] at hfit
          obtain ⟨hv, hndvd⟩ := not_or.1 hfit
          have hline := @displayWord_line m hpos 1
          rw [displayLine, hil, hdp] at hline
          have hlt := @line_mul_lt m 1 hpos (by omega)
          rw [Nat.one_mul] at hline hlt
          exact ⟨m.lineWords, hlt, hlast _ hndvd (hline.trans (Nat.zero_mul _))⟩
  | true =>
      have hsecond := displayLine_firstField hil
      have hline := @displayWord_line m hpos m.firstField
      rw [hsecond] at hline
      cases hdp : m.doublepix with
      | false =>
          rw [hil, hdp] at hfit
          rw [hdp] at hline
          obtain ⟨hv, hfit⟩ := not_or.1 hfit
          rcases Nat.mod_two_eq_zero_or_one m.vdisp.toNat with heven | hodd
          · -- the second line of the first field is two lines on
            have hndvd : ¬burstWords ∣ m.lineWords := fun h => hfit ⟨heven, h⟩
            have hmod := mt Nat.dvd_of_mod_eq_zero hndvd
            have hdisplay := @displayWord_line m hpos 1
            have hbelow : 1 < m.firstField := by
              rw [firstField]
              omega
            rw [displayLine, hil, hdp, if_pos rfl, if_neg (by simp), if_pos hbelow,
              if_pos hbelow, Nat.one_mul] at hdisplay
            have hdiv := Nat.div_add_mod m.lineWords burstWords
            have hin : burstWords * (m.lineWords / burstWords) < m.lineWords := by omega
            have hburst : m.burstWord m.lineWords = m.lineWords := by
              rw [burstWord, fetchedWord, Nat.div_eq_of_lt hin, Nat.mod_eq_of_lt hin]
              simp only [fetchedLine, hil, hdp, Nat.zero_mod, Nat.zero_div]
              simpa using hdiv
            refine ⟨m.lineWords, ?_, ?_⟩
            · have hlt := @line_mul_lt m 1 hpos (by omega)
              rwa [Nat.one_mul] at hlt
            · rw [hburst, hdisplay]
              omega
          · -- the lines with odd numbers are never fetched
            have hE : m.firstField < m.vdisp.toNat ∧ 2 ≤ m.firstField := by
              rw [firstField]
              omega
            refine ⟨m.firstField * m.lineWords, line_mul_lt hpos hE.1, ?_⟩
            rw [hline, if_neg (by simp), Nat.one_mul]
            have hge : m.firstField * m.lineWords ≤ m.burstWord (m.firstField * m.lineWords) := by
              have hle := Nat.mul_div_le (m.firstField * m.lineWords) burstWords
              have hrest := Nat.div_add_mod (m.firstField * m.lineWords) burstWords
              rw [burstWord]
              generalize burstWords * (m.firstField * m.lineWords / burstWords) = q at *
              have hq : q / m.lineWords < m.vdisp.toNat :=
                Nat.lt_of_le_of_lt (Nat.div_le_div_right hle)
                  (by rw [Nat.mul_div_cancel _ hpos]; exact hE.1)
              have hword : q ≤ m.fetchedWord q := by
                rw [fetchedWord, fetchedLine_odd hil hodd hq, hdp, if_neg (by simp), Nat.mul_assoc]
                have hself := Nat.div_add_mod q m.lineWords
                rw [Nat.mul_comm] at hself
                omega
              omega
            have htwo : 2 * m.lineWords ≤ m.firstField * m.lineWords :=
              Nat.mul_le_mul_right _ hE.2
            omega
      | true =>
          -- the second field shows the lines of the first one again
          rw [hil, hdp] at hfit
          rw [hdp, if_pos rfl, Nat.zero_mul] at hline
          obtain ⟨hv, hfit⟩ := not_or.1 hfit
          have hE : m.firstField < m.vdisp.toNat ∧ 0 < m.firstField := by
            rw [firstField]
            omega
          refine ⟨m.firstField * m.lineWords, line_mul_lt hpos hE.1, ?_⟩
          rcases Nat.mod_two_eq_zero_or_one m.vdisp.toNat with heven | hodd
          · refine hlast _ (fun h => hfit ⟨heven, ?_⟩) hline
            have hhalf : m.firstField = m.vdisp.toNat / 2 := by
              rw [firstField]
              omega
            rw [← hhalf, Nat.mul_comm]
            exact h
          · have hburst : m.burstWord (m.firstField * m.lineWords) =
                m.firstField * m.lineWords := by
              apply burstWord_of_lines
              intro k hle
              rw [Nat.mul_div_cancel _ hpos] at hle
              rw [fetchedLine_odd hil hodd (by omega), if_pos hdp]
            rw [hburst, hline]
            exact Nat.mul_ne_zero (by omega) hne

end Mode

end Dvi
end F32c
