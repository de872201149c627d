import F32c.Fb.Blit

/-!
# Images as sprites

What `spr_load` makes of the pixels that a decoder delivers.  A JPEG image comes in
rectangles, in any order; a PNG image comes as a whole.  The colours are packed here once
more, with masks of their own, and this module says for which colours the result is that of
`fb_rgb2pal`, and from which pixel of a rectangle each pixel of the sprite is taken.
-/

namespace F32c
namespace Fb

section Colors

variable {fb : Screen}

/-- A number is put together from three fields of bits. -/
def Fields (u : CInt) (f : Nat → Nat → Bool) (a b c : Nat) : Prop :=
  a + b + c ≤ 32 ∧ ∀ i < 32, u.getLsbD i =
    if i < a then f 0 i else if i < a + b then f 1 (i - a)
    else if i < a + b + c then f 2 (i - a - b) else false

variable {u v : CInt} {f g : Nat → Nat → Bool} {a b c : Nat}

theorem Fields.eq_iff (hu : Fields u f a b c) (hv : Fields v g a b c) :
    u = v ↔ (∀ i < a, f 0 i = g 0 i) ∧ (∀ i < b, f 1 i = g 1 i) ∧ ∀ i < c, f 2 i = g 2 i := by
  have hbits := fun i hi => (hu.2 i hi).symm
  have hbits' := hv.2
  have habc := hu.1
  constructor
  · rintro rfl
    refine ⟨fun i hi => ?_, fun i hi => ?_, fun i hi => ?_⟩
    · have h := (hbits i (by omega)).trans (hbits' i (by omega))
      rwa [if_pos hi, if_pos hi] at h
    · have h := (hbits (a + i) (by omega)).trans (hbits' (a + i) (by omega))
      rwa [if_neg (by omega), if_pos (by omega), if_neg (by omega), if_pos (by omega),
        Nat.add_sub_cancel_left] at h
    · have h := (hbits (a + b + i) (by omega)).trans (hbits' (a + b + i) (by omega))
      rwa [if_neg (by omega), if_neg (by omega), if_pos (by omega), if_neg (by omega),
        if_neg (by omega), if_pos (by omega), show a + b + i - a - b = i by omega] at h
  · rintro ⟨h0, h1, h2⟩
    apply BitVec.eq_of_getLsbD_eq
    intro i hi
    rw [← hbits i hi, hbits' i hi]
    by_cases hia : i < a
    · rw [if_pos hia, if_pos hia, h0 i hia]
    · rw [if_neg hia, if_neg hia]
      by_cases hib : i < a + b
      · rw [if_pos hib, if_pos hib, h1 _ (by omega)]
      · rw [if_neg hib, if_neg hib]
        by_cases hic : i < a + b + c
        · rw [if_pos hic, if_pos hic, h2 _ (by omega)]
        · rw [if_neg hic, if_neg hic]

theorem Fields.toNat_lt (hu : Fields u f a b c) : u.toNat < 2 ^ (a + b + c) := by
  apply Nat.lt_pow_two_of_testBit
  intro i hi
  rw [← BitVec.getLsbD]
  by_cases h : i < 32
  · rw [hu.2 i h, if_neg (by omega), if_neg (by omega), if_neg (by omega)]
  · exact BitVec.getLsbD_of_ge _ _ (by omega)

/-- The fields of a colour at 16 bits, as `fb_rgb2pal` makes them. -/
def fields16 (c : Rgb) : Nat → Nat → Bool
  | 0, i => c.getLsbD (3 + i)
  | 1, i => c.getLsbD (10 + i)
  | _, i => c.getLsbD (19 + i)

/-- The fields of a colour at 8 bits. -/
def fields8 (c : Rgb) : Nat → Nat → Bool
  | 0, i => c.getLsbD (6 + i)
  | 1, i => c.getLsbD (13 + i)
  | _, i => c.getLsbD (21 + i)

theorem rgb2pal_fields16 (h : fb.bpp = 16) (c : Rgb) :
    Fields (fbRgb2pal fb c) (fields16 c) 5 6 5 := by
  refine ⟨by omega, fun i hi => ?_⟩
  rw [fbRgb2pal, h]
  interval_cases i <;> simp [fields16]

theorem rgb2pal_fields8 (h : fb.bpp = 8) (c : Rgb) :
    Fields (fbRgb2pal fb c) (fields8 c) 2 3 3 := by
  refine ⟨by omega, fun i hi => ?_⟩
  rw [fbRgb2pal, h]
  interval_cases i <;> simp [fields8]

/-- The fields at 16 bits as `jpeg_dump_decoded` makes them. -/
def jpegFields16 (c : Rgb) : Nat → Nat → Bool
  | 0, i => decide (3 ≤ i) && c.getLsbD (8 + i) || c.getLsbD (3 + i)
  | 1, i => decide (i < 3) && c.getLsbD (13 + i) || c.getLsbD (10 + i)
  | _, _ => false

def jpegFields8 (c : Rgb) : Nat → Nat → Bool
  | 0, i => decide (i = 1) && c.getLsbD 17 || c.getLsbD (6 + i)
  | 1, i => decide (i < 2) && c.getLsbD (18 + i) || c.getLsbD (13 + i)
  | _, _ => false

theorem jpeg_fields16 (h : fb.bpp = 16) (c : Rgb) :
    Fields (jpegColor fb c) (jpegFields16 c) 5 6 5 := by
  refine ⟨by omega, fun i hi => ?_⟩
  rw [jpegColor, if_pos h]
  interval_cases i <;> simp [jpegFields16]

theorem jpeg_fields8 (h : fb.bpp = 8) (c : Rgb) :
    Fields (jpegColor fb c) (jpegFields8 c) 2 3 3 := by
  refine ⟨by omega, fun i hi => ?_⟩
  rw [jpegColor, if_neg (by omega)]
  interval_cases i <;> simp [jpegFields8]

/-- Two colours with the same pixel: what `jpeg_dump_decoded` makes of `c'`, and `fb_rgb2pal`
of `c`.  At 16 bits it drops the red bits and puts bits of the green ones over others; at 8 bits
it takes low bits of red for high ones. -/
def JpegAlike (fb : Screen) (c' c : Rgb) : Prop :=
  if fb.bpp = 16 then
    (∀ i < 5, (decide (3 ≤ i) && c'.getLsbD (8 + i) || c'.getLsbD (3 + i)) = c.getLsbD (3 + i)) ∧
      (∀ i < 6,
        (decide (i < 3) && c'.getLsbD (13 + i) || c'.getLsbD (10 + i)) = c.getLsbD (10 + i)) ∧
      ∀ i < 5, false = c.getLsbD (19 + i)
  else
    (∀ i < 2, (decide (i = 1) && c'.getLsbD 17 || c'.getLsbD (6 + i)) = c.getLsbD (6 + i)) ∧
      (∀ i < 3,
        (decide (i < 2) && c'.getLsbD (18 + i) || c'.getLsbD (13 + i)) = c.getLsbD (13 + i)) ∧
      ∀ i < 3, false = c.getLsbD (21 + i)

theorem jpegColor_eq_iff (hbpp : fb.bpp = 8 ∨ fb.bpp = 16) (c' c : Rgb) :
    jpegColor fb c' = fbRgb2pal fb c ↔ JpegAlike fb c' c := by
  rw [JpegAlike]
  rcases hbpp with h | h
  · rw [if_neg (by omega)]
    exact (jpeg_fields8 h c').eq_iff (rgb2pal_fields8 h c)
  · rw [if_pos h]
    exact (jpeg_fields16 h c').eq_iff (rgb2pal_fields16 h c)

/-- Two colours with the same pixel: what the loop for PNG images makes of `c`, which takes the
low bits of blue, and `fb_rgb2pal`. -/
def PngAlike (fb : Screen) (c : Rgb) : Prop :=
  if fb.bpp = 8 then ∀ i < 2, c.getLsbD i = c.getLsbD (6 + i)
  else ∀ i < 5, c.getLsbD i = c.getLsbD (3 + i)

/-- The three bytes of a colour. -/
def rgbOf (r g b : Byte) : Rgb := r.setWidth 32 <<< 16 ||| g.setWidth 32 <<< 8 ||| b.setWidth 32

/-- The fields as the loop for PNG images makes them. -/
def pngFields16 (c : Rgb) : Nat → Nat → Bool
  | 0, i => c.getLsbD i
  | n, i => fields16 c n i

def pngFields8 (c : Rgb) : Nat → Nat → Bool
  | 0, i => c.getLsbD i
  | n, i => fields8 c n i

theorem png_fields16 (h : fb.bpp = 16) (r g b : Byte) :
    Fields (pngColor fb r g b) (pngFields16 (rgbOf r g b)) 5 6 5 := by
  refine ⟨by omega, fun i hi => ?_⟩
  rw [pngColor, if_neg (by omega)]
  interval_cases i <;> simp [pngFields16, fields16, rgbOf]

theorem png_fields8 (h : fb.bpp = 8) (r g b : Byte) :
    Fields (pngColor fb r g b) (pngFields8 (rgbOf r g b)) 2 3 3 := by
  refine ⟨by omega, fun i hi => ?_⟩
  rw [pngColor, if_pos h]
  interval_cases i <;> simp [pngFields8, fields8, rgbOf]

theorem pngColor_eq_iff (hbpp : fb.bpp = 8 ∨ fb.bpp = 16) (r g b : Byte) :
    pngColor fb r g b = fbRgb2pal fb (rgbOf r g b) ↔ PngAlike fb (rgbOf r g b) := by
  rw [PngAlike]
  rcases hbpp with h | h
  · rw [if_pos h, (png_fields8 h r g b).eq_iff (rgb2pal_fields8 h (rgbOf r g b))]
    exact and_iff_left ⟨fun _ _ => rfl, fun _ _ => rfl⟩
  · rw [if_neg (by omega), (png_fields16 h r g b).eq_iff (rgb2pal_fields16 h (rgbOf r g b))]
    exact and_iff_left ⟨fun _ _ => rfl, fun _ _ => rfl⟩

/-- The colours fit their pixels. -/
theorem colors_lt (hbpp : fb.bpp = 8 ∨ fb.bpp = 16) :
    (∀ c, (fbRgb2pal fb c).toNat < 2 ^ fb.bpp) ∧ (∀ c, (jpegColor fb c).toNat < 2 ^ fb.bpp) ∧
      ∀ r g b, (pngColor fb r g b).toNat < 2 ^ fb.bpp := by
  rcases hbpp with h | h
  · rw [h]
    exact ⟨fun c => (rgb2pal_fields8 h c).toNat_lt, fun c => (jpeg_fields8 h c).toNat_lt,
      fun r g b => (png_fields8 h r g b).toNat_lt⟩
  · rw [h]
    exact ⟨fun c => (rgb2pal_fields16 h c).toNat_lt, fun c => (jpeg_fields16 h c).toNat_lt,
      fun r g b => (png_fields16 h r g b).toNat_lt⟩

end Colors

section Dump

variable {fb : Screen} {sp : Sprite} {rect : JpegRect} {s : Dump}

theorem jpegAccess_eq (hbpp : fb.bpp = 8 ∨ fb.bpp = 16) : jpegAccess fb = pixelAccess fb := by
  rw [jpegAccess, pixelAccess]
  rcases hbpp with h | h
  · rw [if_neg (by omega), if_pos h]
  · rw [if_pos h, if_neg (by omega)]

/-- The colour that is kept is the one of the pixel before. -/
def Dump.Kept (fb : Screen) (s : Dump) : Prop := s.color = jpegColor fb s.prevRgb

theorem dumpPixel_spec (hs : s.Kept fb) (bitmap : Nat → Rgb) (dst : Nat) :
    (dumpPixel fb bitmap s dst).Kept fb ∧ (dumpPixel fb bitmap s dst).src = s.src + 1 ∧
      (dumpPixel fb bitmap s dst).data =
        (jpegAccess fb).write s.data dst (jpegColor fb (bitmap s.src)) := by
  have hcolor : (if bitmap s.src ≠ s.prevRgb then jpegColor fb (bitmap s.src) else s.color) =
      jpegColor fb (bitmap s.src) := by
    split
    · rfl
    · rename_i h
      rw [hs, not_ne_iff.1 h]
  refine ⟨hcolor, rfl, ?_⟩
  rw [dumpPixel]
  dsimp only
  rw [hcolor]

variable (hbpp : fb.bpp = 8 ∨ fb.bpp = 16)

include hbpp in
theorem read_dumpPixel (hs : s.Kept fb) (bitmap : Nat → Rgb) (dst : Nat) (i : Int) :
    (pixelAccess fb).read (dumpPixel fb bitmap s dst).data i =
      if (dst : Int) = i then (jpegColor fb (bitmap s.src)).toNat
      else (pixelAccess fb).read s.data i := by
  obtain ⟨hlawful, hwidth⟩ := pixelAccess_lawful hbpp
  rw [(dumpPixel_spec hs bitmap dst).2.2, jpegAccess_eq hbpp]
  split
  · rename_i h
    rw [← h, hlawful.read_write, hwidth, Nat.mod_eq_of_lt ((colors_lt hbpp).2.1 _)]
  · rename_i h
    exact hlawful.read_write_ne _ _ _ _ h

include hbpp in
/-- A row of pixels. -/
theorem read_dumpPixels (hs : s.Kept fb) (bitmap : Nat → Rgb) (base n : Nat) :
    let t := (List.range n).foldl (fun s k => dumpPixel fb bitmap s (base + k)) s
    t.Kept fb ∧ t.src = s.src + n ∧ ∀ i : Int, (pixelAccess fb).read t.data i =
      if (base : Int) ≤ i ∧ i < base + n then
        (jpegColor fb (bitmap (s.src + (i - base).toNat))).toNat
      else (pixelAccess fb).read s.data i := by
  induction n with
  | zero => exact ⟨hs, rfl, fun i => by rw [if_neg (by omega)]; rfl⟩
  | succ n ih =>
      obtain ⟨hkept, hsrc, hread⟩ := ih
      rw [List.range_succ, List.foldl_append, List.foldl_cons, List.foldl_nil]
      obtain ⟨hkept', hsrc', -⟩ := dumpPixel_spec hkept bitmap (base + n)
      refine ⟨hkept', by rw [hsrc', hsrc]; rfl, fun i => ?_⟩
      rw [read_dumpPixel hbpp hkept, hread, hsrc]
      by_cases hlast : ((base + n : Nat) : Int) = i
      · rw [if_pos hlast, if_pos (by omega), show (i - base).toNat = n by omega]
      · rw [if_neg hlast]
        by_cases hin : (base : Int) ≤ i ∧ i < base + n
        · rw [if_pos hin, if_pos (by omega)]
        · rw [if_neg hin, if_neg (by omega)]

/-- The number of pixels of a rectangle that are stored from a row. -/
def JpegRect.shown (rect : JpegRect) (w : Nat) : Nat := min rect.right (w - 1) + 1 - rect.left

/-- The number of pixels from one row of a rectangle to the next, as they are counted: where a
rectangle reaches over the right edge, it is one less than its width. -/
def JpegRect.stride (rect : JpegRect) (w : Nat) : Nat :=
  if rect.right < w then rect.right + 1 - rect.left else rect.right - rect.left

include hbpp in
theorem read_dumpRow (hs : s.Kept fb) (hleft : rect.left ≤ rect.right)
    (hin : rect.left < sp.sizeX.toNat) (y : Nat) :
    (dumpRow fb sp rect s y).Kept fb ∧
      (dumpRow fb sp rect s y).src = s.src + rect.stride sp.sizeX.toNat ∧
      ∀ i : Int, (pixelAccess fb).read (dumpRow fb sp rect s y).data i =
        if ((y * sp.sizeX.toNat + rect.left : Nat) : Int) ≤ i ∧
            i < (y * sp.sizeX.toNat + rect.left : Nat) + (rect.shown sp.sizeX.toNat : Nat) then
          (jpegColor fb (rect.bitmap
            (s.src + (i - (y * sp.sizeX.toNat + rect.left : Nat)).toNat))).toNat
        else (pixelAccess fb).read s.data i := by
  obtain ⟨hkept, hsrc, hread⟩ := read_dumpPixels hbpp hs rect.bitmap
    (y * sp.sizeX.toNat + rect.left) (rect.shown sp.sizeX.toNat)
  have hshown : dumpLimit rect.right sp.sizeX + 1 - rect.left = rect.shown sp.sizeX.toNat := rfl
  have hstride : rect.stride sp.sizeX.toNat = rect.shown sp.sizeX.toNat +
      (rect.right - (rect.left + rect.shown sp.sizeX.toNat)) := by
    rw [JpegRect.stride, JpegRect.shown]
    split <;> omega
  rw [dumpRow]
  simp only [hshown]
  generalize (List.range (rect.shown sp.sizeX.toNat)).foldl _ s = t at *
  split
  · refine ⟨hkept, ?_, hread⟩
    dsimp only
    rw [hstride, ← Nat.add_assoc, hsrc]
  · refine ⟨hkept, ?_, hread⟩
    rw [hsrc, hstride]
    omega

/-- A place in a row. -/
theorem in_row_iff {w x y y' l n : Nat} (hx : x < w) (hn : l + n ≤ w) :
    (((y' * w + l : Nat) : Int) ≤ (y * w + x : Nat) ∧
      ((y * w + x : Nat) : Int) < (y' * w + l : Nat) + (n : Nat)) ↔
      y = y' ∧ l ≤ x ∧ x < l + n := by
  constructor
  · rintro ⟨h1, h2⟩
    have hle : y ≤ y' := by
      by_contra hgt
      have hmul : (y' + 1) * w ≤ y * w := Nat.mul_le_mul_right w (by omega)
      rw [Nat.add_mul] at hmul
      omega
    have hge : y' ≤ y := by
      by_contra hlt
      have hmul : (y + 1) * w ≤ y' * w := Nat.mul_le_mul_right w (by omega)
      rw [Nat.add_mul] at hmul
      omega
    have heq := Nat.le_antisymm hle hge
    subst heq
    exact ⟨rfl, by omega, by omega⟩
  · rintro ⟨rfl, h1, h2⟩
    omega

/-- The pixels of the image that a rectangle has. -/
def JpegRect.Covers (rect : JpegRect) (x y : Nat) : Prop :=
  (rect.left ≤ x ∧ x ≤ rect.right) ∧ rect.top ≤ y ∧ y ≤ rect.bottom

instance (rect : JpegRect) (x y : Nat) : Decidable (rect.Covers x y) :=
  inferInstanceAs (Decidable (_ ∧ _))

/-- The place in a rectangle from which the pixel `(x, y)` is taken. -/
def JpegRect.place (rect : JpegRect) (w x y : Nat) : Nat :=
  (y - rect.top) * rect.stride w + (x - rect.left)

include hbpp in
/-- The rows of a rectangle. -/
theorem read_dumpRows (hs : s.Kept fb) (hleft : rect.left ≤ rect.right)
    (hin : rect.left < sp.sizeX.toNat) (n : Nat) :
    let t := ((List.range n).map fun k => rect.top + k).foldl (dumpRow fb sp rect) s
    t.Kept fb ∧ t.src = s.src + n * rect.stride sp.sizeX.toNat ∧
      ∀ x y : Nat, x < sp.sizeX.toNat → (pixelAccess fb).read t.data (y * sp.sizeX.toNat + x : Nat) =
        if (rect.left ≤ x ∧ x ≤ rect.right) ∧ rect.top ≤ y ∧ y < rect.top + n then
          (jpegColor fb (rect.bitmap (s.src + rect.place sp.sizeX.toNat x y))).toNat
        else (pixelAccess fb).read s.data (y * sp.sizeX.toNat + x : Nat) := by
  have hshown : rect.left + rect.shown sp.sizeX.toNat ≤ sp.sizeX.toNat := by
    rw [JpegRect.shown]
    omega
  induction n with
  | zero => exact ⟨hs, by simp, fun x y _ => by rw [if_neg (by omega)]; rfl⟩
  | succ n ih =>
      obtain ⟨hkept, hsrc, hread⟩ := ih
      rw [List.range_succ, List.map_append, List.foldl_append, List.map_cons, List.map_nil,
        List.foldl_cons, List.foldl_nil]
      obtain ⟨hkept', hsrc', hread'⟩ := read_dumpRow hbpp hkept hleft hin (rect.top + n)
      refine ⟨hkept', by rw [hsrc', hsrc, Nat.add_mul, Nat.one_mul, Nat.add_assoc], ?_⟩
      intro x y hx
      have hx' : x < rect.left + rect.shown sp.sizeX.toNat ↔ x ≤ rect.right := by
        rw [JpegRect.shown]
        omega
      rw [hread', hread x y hx, hsrc]
      simp only [in_row_iff hx hshown]
      by_cases hrow : y = rect.top + n ∧ rect.left ≤ x ∧
          x < rect.left + rect.shown sp.sizeX.toNat
      · obtain ⟨rfl, hl, hr⟩ := hrow
        rw [if_pos ⟨rfl, hl, hr⟩, if_pos ⟨⟨hl, hx'.1 hr⟩, by omega, by omega⟩, JpegRect.place]
        congr 3
        rw [Nat.add_sub_cancel_left, Nat.add_assoc]
        congr 2
        omega
      · rw [if_neg hrow]
        by_cases hbefore : (rect.left ≤ x ∧ x ≤ rect.right) ∧ rect.top ≤ y ∧ y < rect.top + n
        · rw [if_pos hbefore, if_pos ⟨hbefore.1, hbefore.2.1, by omega⟩]
        · rw [if_neg hbefore, if_neg fun h => ?_]
          obtain ⟨hcol, htop, hbottom⟩ := h
          by_cases hlast : y = rect.top + n
          · exact hrow ⟨hlast, hcol.1, hx'.2 hcol.2⟩
          · exact hbefore ⟨hcol, htop, by omega⟩

include hbpp in
/-- A rectangle leaves its pixels in the sprite. -/
theorem read_jpegDumpDecoded (hleft : rect.left ≤ rect.right) (hin : rect.left < sp.sizeX.toNat)
    {x y : Nat} (hx : x < sp.sizeX.toNat) (hy : y < sp.sizeY.toNat) :
    (pixelAccess fb).read (jpegDumpDecoded fb sp rect).data (y * sp.sizeX.toNat + x : Nat) =
      if rect.Covers x y then
        (jpegColor fb (rect.bitmap (rect.place sp.sizeX.toNat x y))).toNat
      else (pixelAccess fb).read sp.data (y * sp.sizeX.toNat + x : Nat) := by
  have hkept : Dump.Kept fb { data := sp.data, src := 0, prevRgb := 0, color := 0 } := by
    rw [Dump.Kept, jpegColor]
    dsimp only
    split
    · decide
    · decide
  obtain ⟨-, -, hread⟩ := read_dumpRows hbpp hkept hleft hin
    (dumpLimit rect.bottom sp.sizeY + 1 - rect.top)
  have hpixel := hread x y hx
  rw [Nat.zero_add] at hpixel
  refine hpixel.trans (if_congr ?_ rfl rfl)
  rw [JpegRect.Covers, dumpLimit]
  omega

end Dump

section Load

variable {fb : Screen} {sp : Sprite} {w h : Nat} {img : Nat → Nat → Rgb}

/-- The sprite is the image, in a buffer that has room for it. -/
structure ShowsImage (fb : Screen) (sp : Sprite) (w h : Nat) (img : Nat → Nat → Rgb) : Prop where
  width : sp.sizeX.toNat = w
  height : sp.sizeY.toNat = h
  room : ((w * h * fb.bpp / 8 : Nat) : Int) ≤ sp.bufsize.toInt
  pixels : ∀ x y, x < w → y < h → sp.colorAt fb 0 0 x y = (fbRgb2pal fb (img x y)).toNat

theorem colorAt_eq (fb : Screen) (sp : Sprite) (x y : Nat) :
    sp.colorAt fb 0 0 x y = (pixelAccess fb).read sp.data (y * sp.sizeX.toNat + x : Nat) := by
  rw [Sprite.colorAt, Int.sub_zero, Int.sub_zero]
  push_cast
  rfl

/-- The rectangles that a decoder delivers for an image, in any order. -/
structure DeliversRects (rects : List JpegRect) (w h : Nat) (img : Nat → Nat → Rgb) : Prop where
  corner : ∀ rect ∈ rects, (rect.left ≤ rect.right ∧ rect.left < w) ∧
    rect.top ≤ rect.bottom ∧ rect.top < h
  content : ∀ rect ∈ rects, ∀ x y, rect.Covers x y → x < w → y < h →
    rect.bitmap ((y - rect.top) * (rect.right + 1 - rect.left) + (x - rect.left)) = img x y
  cover : ∀ x y, x < w → y < h → ∃ rect ∈ rects, rect.Covers x y

/-- The rectangle that is the last one to have a pixel. -/
def lastRect (rects : List JpegRect) (x y : Nat) : Option JpegRect :=
  rects.reverse.find? fun rect => decide (rect.Covers x y)

theorem lastRect_isSome {rects : List JpegRect} {x y : Nat}
    (hcover : ∃ rect ∈ rects, rect.Covers x y) : ∃ rect, lastRect rects x y = some rect := by
  rw [← Option.isSome_iff_exists, lastRect, List.find?_isSome]
  obtain ⟨rect, hmem, hcovers⟩ := hcover
  exact ⟨rect, List.mem_reverse.2 hmem, decide_eq_true hcovers⟩

/-- What all rectangles leave. -/
theorem read_rects (hbpp : fb.bpp = 8 ∨ fb.bpp = 16) {rects : List JpegRect}
    (hcorner : ∀ rect ∈ rects, rect.left ≤ rect.right ∧ rect.left < sp.sizeX.toNat) :
    let sp' := rects.foldl (jpegDumpDecoded fb) sp
    (sp'.sizeX = sp.sizeX ∧ sp'.sizeY = sp.sizeY ∧ sp'.bufsize = sp.bufsize) ∧
      ∀ x y, x < sp.sizeX.toNat → y < sp.sizeY.toNat → ∀ rect, lastRect rects x y = some rect →
        (pixelAccess fb).read sp'.data (y * sp.sizeX.toNat + x : Nat) =
          (jpegColor fb (rect.bitmap (rect.place sp.sizeX.toNat x y))).toNat := by
  induction rects using List.reverseRecOn with
  | nil =>
      refine ⟨⟨rfl, rfl, rfl⟩, fun x y _ _ rect h => ?_⟩
      simp [lastRect] at h
  | append_singleton rects last ih =>
      obtain ⟨⟨hx, hy, hbuf⟩, hread⟩ :=
        ih fun rect hrect => hcorner rect (List.mem_append_left _ hrect)
      obtain ⟨hleft, hin⟩ := hcorner last (List.mem_append_right _ List.mem_cons_self)
      rw [List.foldl_append, List.foldl_cons, List.foldl_nil]
      obtain ⟨sp', hsp'⟩ : ∃ sp', rects.foldl (jpegDumpDecoded fb) sp = sp' := ⟨_, rfl⟩
      rw [hsp'] at hx hy hbuf hread ⊢
      refine ⟨⟨hx, hy, hbuf⟩, fun x y hxw hyh rect hlast => ?_⟩
      have hpixel := @read_jpegDumpDecoded fb sp' last hbpp hleft (by rw [hx]; exact hin) x y
        (by rw [hx]; exact hxw) (by rw [hy]; exact hyh)
      rw [hx] at hpixel
      rw [hpixel]
      rw [lastRect, List.reverse_append, List.reverse_singleton, List.singleton_append,
        List.find?_cons] at hlast
      by_cases hcovers : last.Covers x y
      · rw [decide_eq_true hcovers] at hlast
        rw [if_pos hcovers, Option.some.inj hlast]
      · rw [decide_eq_false hcovers] at hlast
        rw [if_neg hcovers]
        exact hread x y hxw hyh rect hlast

/-- When a JPEG image is loaded as it is: its size has 16 bits, the size of the buffer does not
lose the bits it needs, and each pixel is alike to the one that is taken for it. -/
structure JpegFaithful (fb : Screen) (width height descale : Nat) (rects : List JpegRect)
    (img : Nat → Nat → Rgb) : Prop where
  size : width >>> descale < 2 ^ 16 ∧ height >>> descale < 2 ^ 16
  room : (width >>> descale) * (height >>> descale) * fb.bpp / 8 ≤
    (width * height * fb.bpp) % 2 ^ 32 / 8 / 2 ^ (descale * 2)
  alike : ∀ x y, x < width >>> descale → y < height >>> descale → ∀ rect,
    lastRect rects x y = some rect →
      JpegAlike fb (rect.bitmap (rect.place (width >>> descale) x y)) (img x y)

/-- The size that is asked for. -/
theorem jpegSize_toInt (fb : Screen) (width height descale : Nat) :
    (jpegSize fb width height descale).toInt =
      ((width * height * fb.bpp) % 2 ^ 32 / 8 / 2 ^ (descale * 2) : Nat) := by
  have hval : (jpegSize fb width height descale).toNat =
      (width * height * fb.bpp) % 2 ^ 32 / 8 / 2 ^ (descale * 2) := by
    rw [jpegSize, BitVec.toNat_ushiftRight, BitVec.toNat_udiv, ← BitVec.ofNat_mul,
      ← BitVec.ofNat_mul, BitVec.toNat_ofNat, Nat.shiftRight_eq_div_pow]
    rfl
  have hsmall : (jpegSize fb width height descale).toNat < 2 ^ 29 := by
    rw [hval]
    have hle := Nat.div_le_self ((width * height * fb.bpp) % 2 ^ 32 / 8) (2 ^ (descale * 2))
    omega
  rw [BitVec.toInt_eq_toNat_of_lt (by omega), hval]

theorem toNat_inj_of_lt (hbpp : fb.bpp = 8 ∨ fb.bpp = 16) (c' c : Rgb) :
    (jpegColor fb c').toNat = (fbRgb2pal fb c).toNat ↔ JpegAlike fb c' c := by
  rw [BitVec.toNat_inj, jpegColor_eq_iff hbpp]

theorem jpegSprite_shows_iff (hbpp : fb.bpp = 8 ∨ fb.bpp = 16) {width height descale : Nat}
    {rects : List JpegRect} (id : CInt) (b : Block)
    (hdel : DeliversRects rects (width >>> descale) (height >>> descale) img) :
    ShowsImage fb (jpegSprite fb width height descale rects
        (newSprite id (jpegSize fb width height descale) b))
      (width >>> descale) (height >>> descale) img ↔
      JpegFaithful fb width height descale rects img := by
  obtain ⟨sp, hsp⟩ : ∃ sp : Sprite, { newSprite id (jpegSize fb width height descale) b with
      sizeX := BitVec.ofNat 16 (width >>> descale)
      sizeY := BitVec.ofNat 16 (height >>> descale) } = sp := ⟨_, rfl⟩
  have hX : sp.sizeX.toNat = (width >>> descale) % 2 ^ 16 := by
    rw [← hsp, BitVec.toNat_ofNat]
  have hY : sp.sizeY.toNat = (height >>> descale) % 2 ^ 16 := by
    rw [← hsp, BitVec.toNat_ofNat]
  have hbuf : sp.bufsize.toInt =
      ((width * height * fb.bpp) % 2 ^ 32 / 8 / 2 ^ (descale * 2) : Nat) := by
    rw [← hsp]
    exact jpegSize_toInt fb width height descale
  have hload : jpegSprite fb width height descale rects
      (newSprite id (jpegSize fb width height descale) b) =
        rects.foldl (jpegDumpDecoded fb) sp := by
    rw [jpegSprite, hsp]
  have hsizes : (rects.foldl (jpegDumpDecoded fb) sp).sizeX = sp.sizeX ∧
      (rects.foldl (jpegDumpDecoded fb) sp).sizeY = sp.sizeY ∧
      (rects.foldl (jpegDumpDecoded fb) sp).bufsize = sp.bufsize := by
    clear hdel hload
    induction rects using List.reverseRecOn with
    | nil => exact ⟨rfl, rfl, rfl⟩
    | append_singleton rects last ih =>
        rw [List.foldl_append, List.foldl_cons, List.foldl_nil]
        exact ih
  -- where the size has 16 bits, the rectangles that are delivered lie in the sprite
  have hread (hW : width >>> descale < 2 ^ 16) (hH : height >>> descale < 2 ^ 16) {x y : Nat}
      (hx : x < width >>> descale) (hy : y < height >>> descale) {rect : JpegRect}
      (hrect : lastRect rects x y = some rect) :
      (rects.foldl (jpegDumpDecoded fb) sp).colorAt fb 0 0 x y =
        (jpegColor fb (rect.bitmap (rect.place (width >>> descale) x y))).toNat := by
    have hXW : sp.sizeX.toNat = width >>> descale := by rw [hX, Nat.mod_eq_of_lt hW]
    have hYH : sp.sizeY.toNat = height >>> descale := by rw [hY, Nat.mod_eq_of_lt hH]
    have hpixels := (@read_rects fb sp hbpp rects fun rect hrect => by
      rw [hXW]
      exact (hdel.corner rect hrect).1).2
    rw [colorAt_eq, hsizes.1]
    rw [hXW, hYH] at hpixels
    rw [hXW]
    exact hpixels x y hx hy rect hrect
  rw [hload]
  constructor
  · intro hshows
    have hW : width >>> descale < 2 ^ 16 := by
      have hwidth := hshows.width
      rw [hsizes.1, hX] at hwidth
      omega
    have hH : height >>> descale < 2 ^ 16 := by
      have hheight := hshows.height
      rw [hsizes.2.1, hY] at hheight
      omega
    refine ⟨⟨hW, hH⟩, ?_, fun x y hx hy rect hrect => ?_⟩
    · have hroom := hshows.room
      rw [hsizes.2.2, hbuf] at hroom
      exact Int.ofNat_le.1 hroom
    · have hpixel := hshows.pixels x y hx hy
      rw [hread hW hH hx hy hrect] at hpixel
      exact (toNat_inj_of_lt hbpp _ _).1 hpixel
  · rintro ⟨⟨hW, hH⟩, hroom, halike⟩
    refine ⟨?_, ?_, ?_, fun x y hx hy => ?_⟩
    · rw [hsizes.1, hX, Nat.mod_eq_of_lt hW]
    · rw [hsizes.2.1, hY, Nat.mod_eq_of_lt hH]
    · rw [hsizes.2.2, hbuf]
      exact Int.ofNat_le.2 hroom
    · obtain ⟨rect, hrect⟩ := lastRect_isSome (hdel.cover x y hx hy)
      rw [hread hW hH hx hy hrect]
      exact (toNat_inj_of_lt hbpp _ _).2 (halike x y hx hy rect hrect)

/-- The pixels that a decoder delivers for an image, four bytes each. -/
def DeliversPixels (buffer : Nat → Byte) (w h : Nat) (img : Nat → Nat → Rgb) : Prop :=
  ∀ x y, x < w → y < h →
    rgbOf (buffer (4 * (y * w + x))) (buffer (4 * (y * w + x) + 1))
      (buffer (4 * (y * w + x) + 2)) = img x y

/-- When a PNG image is loaded as it is: it is as wide as it is high, and has colours whose
blue is the same where it is taken from the low bits. -/
structure PngFaithful (fb : Screen) (width height : Nat) (img : Nat → Nat → Rgb) : Prop where
  square : width = height
  size : width < 2 ^ 16
  room : width * height * fb.bpp < 2 ^ 31
  alike : ∀ x y, x < width → y < height → PngAlike fb (img x y)

theorem pngSize_eq (fb : Screen) (width height : Nat) :
    pngSize fb width height = (BitVec.ofNat 32 (width * height * fb.bpp)).sdiv 8 := by
  rw [pngSize, ← BitVec.ofNat_mul, ← BitVec.ofNat_mul, Nat.mul_comm height]

/-- The buffer has room for the pixels as long as their size is no negative number. -/
theorem le_pngSize_iff (fb : Screen) (width height : Nat) :
    ((width * height * fb.bpp / 8 : Nat) : Int) ≤ (pngSize fb width height).toInt ↔
      width * height * fb.bpp < 2 ^ 31 := by
  rw [pngSize_eq]
  obtain ⟨n, hn⟩ : ∃ n, width * height * fb.bpp = n := ⟨_, rfl⟩
  rw [hn]
  have hsize : ((BitVec.ofNat 32 n).sdiv 8).toInt = ((BitVec.ofNat 32 n).toInt.tdiv 8) := by
    rw [BitVec.toInt_sdiv_of_ne_or_ne _ _ (Or.inr (by decide))]
    rfl
  have hlo := BitVec.le_toInt (BitVec.ofNat 32 n)
  have hhi := @BitVec.toInt_lt 32 (BitVec.ofNat 32 n)
  rw [hsize]
  constructor
  · intro hle
    by_contra hbig
    have hquot : (BitVec.ofNat 32 n).toInt.tdiv 8 < 2 ^ 28 := by
      have hle := @Int.tdiv_le_tdiv (BitVec.ofNat 32 n).toInt (2 ^ 31 - 1) 8 (by omega) (by omega)
      rw [show (2 ^ 31 - 1 : Int).tdiv 8 = 2 ^ 28 - 1 by decide] at hle
      omega
    omega
  · intro hsmall
    rw [BitVec.toInt_eq_toNat_of_lt (by rw [BitVec.toNat_ofNat]; omega), BitVec.toNat_ofNat,
      Nat.mod_eq_of_lt (by omega), Int.tdiv_eq_ediv_of_nonneg (by omega)]
    omega

/-- The pixels of a PNG image that lie in the sprite. -/
theorem read_pngSprite (hbpp : fb.bpp = 8 ∨ fb.bpp = 16) {width height x y : Nat}
    (buffer : Nat → Byte) (hx : x < width) (hy : y < height) :
    (pixelAccess fb).read (pngSprite fb width height buffer sp).data (y * width + x : Nat) =
      (pngColor fb (buffer (4 * (y * width + x))) (buffer (4 * (y * width + x) + 1))
        (buffer (4 * (y * width + x) + 2))).toNat := by
  have hk : y * width + x < width * height := by
    have hmul : (y + 1) * width ≤ height * width := Nat.mul_le_mul_right width (by omega)
    rw [Nat.add_mul, Nat.mul_comm height] at hmul
    omega
  have hget : (pngPixels fb (width * height) buffer)[y * width + x]? =
      some (pngColor fb (buffer (4 * (y * width + x))) (buffer (4 * (y * width + x) + 1))
        (buffer (4 * (y * width + x) + 2))).toNat := by
    rw [pngPixels, List.getElem?_map, List.getElem?_range hk]
    rfl
  obtain ⟨hlawful, hwidth⟩ := pixelAccess_lawful hbpp
  refine (read_storePixels hlawful sp.data hget).trans ?_
  rw [hwidth, BitVec.ofNat_toNat, BitVec.setWidth_eq,
    Nat.mod_eq_of_lt ((colors_lt hbpp).2.2 _ _ _)]

theorem pngSprite_shows_iff (hbpp : fb.bpp = 8 ∨ fb.bpp = 16) {width height : Nat}
    {buffer : Nat → Byte} (id : CInt) (b : Block) (hdel : DeliversPixels buffer width height img) :
    ShowsImage fb (pngSprite fb width height buffer (newSprite id (pngSize fb width height) b))
      width height img ↔ PngFaithful fb width height img := by
  obtain ⟨sp, hsp⟩ : ∃ sp : Sprite, newSprite id (pngSize fb width height) b = sp := ⟨_, rfl⟩
  have hbuf : sp.bufsize = pngSize fb width height := by
    rw [← hsp]
    rfl
  rw [hsp]
  have hX : (pngSprite fb width height buffer sp).sizeX.toNat = height % 2 ^ 16 :=
    BitVec.toNat_ofNat _ _
  have hY : (pngSprite fb width height buffer sp).sizeY.toNat = width % 2 ^ 16 :=
    BitVec.toNat_ofNat _ _
  have hroom : (pngSprite fb width height buffer sp).bufsize = pngSize fb width height := hbuf
  -- in a square image the pixels of a row lie where they are looked for
  have hcolor (hsize : height % 2 ^ 16 = width) {x y : Nat} (hx : x < width) (hy : y < height) :
      (pngSprite fb width height buffer sp).colorAt fb 0 0 x y = (fbRgb2pal fb (img x y)).toNat ↔
        PngAlike fb (img x y) := by
    rw [colorAt_eq, hX, hsize, read_pngSprite hbpp buffer hx hy, BitVec.toNat_inj,
      ← hdel x y hx hy, pngColor_eq_iff hbpp]
  constructor
  · intro hshows
    have hwidth := hshows.width
    have hheight := hshows.height
    rw [hX] at hwidth
    rw [hY] at hheight
    refine ⟨by omega, by omega, ?_, fun x y hx hy => ?_⟩
    · have hle := hshows.room
      rw [hroom] at hle
      exact (le_pngSize_iff fb width height).1 hle
    · exact (hcolor hwidth hx hy).1 (hshows.pixels x y hx hy)
  · rintro ⟨hsquare, hsize, hsmall, halike⟩
    refine ⟨?_, ?_, ?_, fun x y hx hy => ?_⟩
    · rw [hX]
      omega
    · rw [hY]
      omega
    · rw [hroom]
      exact (le_pngSize_iff fb width height).2 hsmall
    · exact (hcolor (by omega) hx hy).2 (halike x y hx hy)

/-- A JPEG file becomes a sprite that is its image. -/
def JpegLoads (fb : Screen) (id : CInt) (block : Option Block) (reg : Registry)
    (width height descale : Nat) (rects : List JpegRect) (img : Nat → Nat → Rgb) : Prop :=
  ∃ sp rest, sprLoad fb id (.jpeg width height rects true) descale block reg =
      some (0, sp :: rest) ∧
    ShowsImage fb sp (width >>> descale) (height >>> descale) img

/-- A PNG file becomes a sprite that is its image. -/
def PngLoads (fb : Screen) (id : CInt) (block : Option Block) (reg : Registry)
    (width height descale : Nat) (buffer : Nat → Byte) (img : Nat → Nat → Rgb) : Prop :=
  ∃ sp rest, sprLoad fb id (.png width height buffer) descale block reg = some (0, sp :: rest) ∧
    ShowsImage fb sp width height img

theorem jpegLoads_iff (hbpp : fb.bpp = 8 ∨ fb.bpp = 16) (id : CInt) (block : Option Block)
    (reg : Registry) {width height descale : Nat} {rects : List JpegRect}
    (hdel : DeliversRects rects (width >>> descale) (height >>> descale) img) :
    JpegLoads fb id block reg width height descale rects img ↔
      block.isSome = true ∧ JpegFaithful fb width height descale rects img := by
  have hgo : ¬fb.bpp = 0 := by omega
  cases block with
  | none =>
      refine ⟨?_, fun h => absurd h.1 (by decide)⟩
      rintro ⟨sp, rest, hload, -⟩
      simp [sprLoad, hgo, sprAlloc, enomem] at hload
  | some b =>
      rw [← jpegSprite_shows_iff hbpp id b hdel]
      constructor
      · rintro ⟨sp, rest, hload, hshows⟩
        simp only [sprLoad, if_neg hgo, sprAlloc, List.modifyHead_cons, if_true,
          Option.some.injEq, Prod.mk.injEq, true_and, List.cons.injEq] at hload
        rw [hload.1]
        exact ⟨rfl, hshows⟩
      · rintro ⟨-, hshows⟩
        exact ⟨_, (sprFree id reg).2, by simp [sprLoad, hgo, sprAlloc], hshows⟩

theorem pngLoads_iff (hbpp : fb.bpp = 8 ∨ fb.bpp = 16) (id : CInt) (block : Option Block)
    (reg : Registry) {width height : Nat} (descale : Nat) {buffer : Nat → Byte}
    (hdel : DeliversPixels buffer width height img) :
    PngLoads fb id block reg width height descale buffer img ↔
      block.isSome = true ∧ PngFaithful fb width height img := by
  have hgo : ¬fb.bpp = 0 := by omega
  cases block with
  | none =>
      refine ⟨?_, fun h => absurd h.1 (by decide)⟩
      rintro ⟨sp, rest, hload, -⟩
      simp [sprLoad, hgo, sprAlloc] at hload
  | some b =>
      rw [← pngSprite_shows_iff hbpp id b hdel]
      constructor
      · rintro ⟨sp, rest, hload, hshows⟩
        simp only [sprLoad, if_neg hgo, sprAlloc, List.modifyHead_cons, Option.some.injEq,
          Prod.mk.injEq, true_and, List.cons.injEq] at hload
        rw [hload.1]
        exact ⟨rfl, hshows⟩
      · rintro ⟨-, hshows⟩
        exact ⟨_, (sprFree id reg).2, by simp [sprLoad, hgo, sprAlloc], hshows⟩

/-- An image of one pixel, in one rectangle. -/
def onePixel (c : Rgb) : JpegRect := ⟨0, 0, 0, 0, fun _ => c⟩

theorem onePixel_delivers (c : Rgb) : DeliversRects [onePixel c] 1 1 fun _ _ => c := by
  refine ⟨?_, fun rect hrect x y _ _ _ => ?_, fun x y hx hy => ?_⟩
  · simp [onePixel]
  · rw [List.mem_singleton.1 hrect]
    rfl
  · refine ⟨onePixel c, List.mem_singleton.2 rfl, ?_⟩
    change (0 ≤ x ∧ x ≤ 0) ∧ 0 ≤ y ∧ y ≤ 0
    omega

theorem black_alike : JpegAlike twoPixels 0 0 ∧ PngAlike twoPixels 0 := by
  rw [JpegAlike, PngAlike]
  decide

theorem black_delivers (w h : Nat) : DeliversPixels (fun _ => 0) w h fun _ _ => 0 := by
  have hblack : rgbOf 0 0 0 = 0 := by decide
  exact fun _ _ _ _ => hblack

end Load

end Fb
end F32c
