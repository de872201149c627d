import F32c.Dvi.Framebuffer

/-!
# The order of display

The lines of a framebuffer lie one behind the other, without a gap.  In the order of
display a double pixel is shown twice, and so is its line unless the mode is interlaced;
in an interlaced mode the lines with even numbers come first.  This is said here without
reference to the hardware, for the lines and pixels as they are numbered on the display.
-/

namespace F32c
namespace Dvi

/-- The bits of a pixel. -/
def Bpp.bits : Bpp → Nat
  | .bpp1 => 1
  | .bpp2 => 2
  | .bpp4 => 4
  | .bpp16 => 16
  | .bpp24 => 32
  | _ => 8

namespace Mode

variable (m : Mode)

/-- How often a pixel is shown. -/
def scale : Nat := if m.doublepix then 2 else 1

/-- The words of a line of the framebuffer. -/
def lineWords : Nat := m.hdisp.toNat * m.bpp.bits / (32 * m.scale)

/-- The lines of the framebuffer take a whole number of words. -/
def WholeWords : Prop := 32 * m.scale ∣ m.hdisp.toNat * m.bpp.bits

/-- The number of pixels shown from a word. -/
def wordPixels : Nat := 32 / m.bpp.bits * m.scale

/-- The number of pixels of a frame. -/
def framePixels : Nat := m.hdisp.toNat * m.vdisp.toNat

/-- The lines of the first field of an interlaced mode. -/
def firstField : Nat := (m.vdisp.toNat + 1) / 2

/-- The line of the framebuffer that is shown as the `k`-th line of a frame. -/
def displayLine (k : Nat) : Nat :=
  if m.interlace then
    let j := if k < m.firstField then k else k - m.firstField
    if m.doublepix then j else if k < m.firstField then 2 * j else 2 * j + 1
  else if m.doublepix then k / 2 else k

/-- The colour of the pixel `x` of a line of the framebuffer. -/
def pixelAt (mem : Addr → Word) (line x : Nat) : Rgb :=
  rgb m.bpp
    (mem (m.dmaBase + BitVec.ofNat 30 (line * m.lineWords + x * m.bpp.bits / 32)) >>>
      (x * m.bpp.bits % 32))

/-- The pixels of a frame in the order of display. -/
def frame (mem : Addr → Word) : List Rgb :=
  (List.range m.framePixels).map fun p =>
    m.pixelAt mem (m.displayLine (p / m.hdisp.toNat)) (p % m.hdisp.toNat / m.scale)

/-- The place in the framebuffer of the `n`-th word that is shown. -/
def displayWord (n : Nat) : Nat := m.displayLine (n / m.lineWords) * m.lineWords + n % m.lineWords

/-- The bit of a word at which the `p`-th pixel of a frame begins. -/
def bitpos (p : Nat) : Nat := p % m.wordPixels / m.scale * m.bpp.bits

/-- The colour of the `p`-th pixel, from the words in the order of display. -/
def colorOf (word : Nat → Word) (p : Nat) : Rgb :=
  rgb m.bpp (word (p / m.wordPixels) >>> m.bitpos p)

theorem scale_pos : 0 < m.scale := by
  rw [scale]
  split <;> omega

theorem bits_mul (bpp : Bpp) : bpp.bits * (32 / bpp.bits) = 32 := by
  cases bpp <;> rfl

theorem bits_pos (bpp : Bpp) : 0 < bpp.bits := by
  cases bpp <;> decide

theorem wordPixels_pos : 0 < m.wordPixels := by
  rw [wordPixels]
  refine Nat.mul_pos ?_ m.scale_pos
  cases m.bpp <;> decide

theorem bitpos_lt (p : Nat) : m.bitpos p < 32 := by
  have hlt : p % m.wordPixels < 32 / m.bpp.bits * m.scale := Nat.mod_lt _ m.wordPixels_pos
  have hdiv : p % m.wordPixels / m.scale < 32 / m.bpp.bits :=
    (Nat.div_lt_iff_lt_mul m.scale_pos).2 hlt
  have hmul : (p % m.wordPixels / m.scale + 1) * m.bpp.bits ≤ 32 / m.bpp.bits * m.bpp.bits :=
    Nat.mul_le_mul_right _ hdiv
  have h32 := bits_mul m.bpp
  have hpos := bits_pos m.bpp
  rw [Nat.mul_comm] at h32
  rw [h32, Nat.add_mul, Nat.one_mul] at hmul
  rw [bitpos]
  omega

variable {m}

/-- The pixels of a line come from its words. -/
theorem hdisp_eq (hwhole : m.WholeWords) : m.hdisp.toNat = m.wordPixels * m.lineWords := by
  have hline : 32 * m.scale * m.lineWords = m.hdisp.toNat * m.bpp.bits :=
    Nat.mul_div_cancel' hwhole
  have h32 := bits_mul m.bpp
  apply Nat.eq_of_mul_eq_mul_left (bits_pos m.bpp)
  calc m.bpp.bits * m.hdisp.toNat
      = 32 * m.scale * m.lineWords := by rw [hline, Nat.mul_comm]
    _ = m.bpp.bits * (32 / m.bpp.bits) * m.scale * m.lineWords := by rw [h32]
    _ = m.bpp.bits * (m.wordPixels * m.lineWords) := by rw [wordPixels]; ring

theorem framePixels_eq (hwhole : m.WholeWords) :
    m.framePixels = m.wordPixels * (m.lineWords * m.vdisp.toNat) := by
  rw [framePixels, hdisp_eq hwhole, Nat.mul_assoc]

/-- The bits of the pixel `x` of a line. -/
theorem bits_of_pixel (x : Nat) :
    x * m.bpp.bits / 32 = x / (32 / m.bpp.bits) ∧
      x * m.bpp.bits % 32 = x % (32 / m.bpp.bits) * m.bpp.bits := by
  cases m.bpp <;> simp only [Bpp.bits] <;> omega

/-- A pixel of the frame as a part of a word in the order of display. -/
theorem frame_pixel (hwhole : m.WholeWords) (mem : Addr → Word) (p : Nat) :
    m.pixelAt mem (m.displayLine (p / m.hdisp.toNat)) (p % m.hdisp.toNat / m.scale) =
      m.colorOf (fun n => mem (m.dmaBase + BitVec.ofNat 30 (m.displayWord n))) p := by
  have hh := hdisp_eq hwhole
  obtain ⟨hword, hbit⟩ := @bits_of_pixel m (p % m.hdisp.toNat / m.scale)
  have hline : p / m.hdisp.toNat = p / m.wordPixels / m.lineWords := by
    rw [hh, Nat.div_div_eq_div_mul]
  have hword' : p % m.hdisp.toNat / m.scale / (32 / m.bpp.bits) =
      p / m.wordPixels % m.lineWords := by
    rw [Nat.div_div_eq_div_mul, Nat.mul_comm m.scale, ← wordPixels, hh,
      Nat.mod_mul_right_div_self]
  have hbit' : p % m.hdisp.toNat / m.scale % (32 / m.bpp.bits) = p % m.wordPixels / m.scale := by
    have hdvd : m.wordPixels ∣ m.hdisp.toNat := ⟨m.lineWords, hh⟩
    rw [← Nat.mod_mul_right_div_self, Nat.mul_comm m.scale, ← wordPixels,
      Nat.mod_mod_of_dvd _ hdvd]
  rw [pixelAt, colorOf, displayWord, bitpos, hword, hbit, hline, hword', hbit']

theorem frame_eq (hwhole : m.WholeWords) (mem : Addr → Word) :
    m.frame mem = (List.range m.framePixels).map
      (m.colorOf fun n => mem (m.dmaBase + BitVec.ofNat 30 (m.displayWord n))) := by
  rw [frame]
  exact List.map_congr_left fun p _ => frame_pixel hwhole mem p

end Mode

end Dvi
end F32c
