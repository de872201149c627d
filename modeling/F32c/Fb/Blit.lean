import F32c.Fb.Registry

/-!
# Sprites on the screen

A sprite is put on the screen pixel by pixel, cut to the screen on four sides.  Each store is
at a pixel of the screen, and the pixel of the sprite at the same distance from its corner is
what it stores.  With the stores at hand, grabbing a rectangle and putting it is a copy.
-/

namespace F32c
namespace Fb

section Stores

variable {acc : Access}

/-- Pixels stored one after the other, where all stores at a place agree. -/
theorem read_foldl_write (hacc : acc.Lawful) (l : List (Int × CInt)) (m : Memory) (i : Int) :
    ((∀ p ∈ l, p.1 ≠ i) →
        acc.read (l.foldl (fun m p => acc.write m p.1 p.2) m) i = acc.read m i) ∧
      ∀ v, (∃ p ∈ l, p.1 = i) → (∀ p ∈ l, p.1 = i → p.2.toNat % 2 ^ acc.width = v) →
        acc.read (l.foldl (fun m p => acc.write m p.1 p.2) m) i = v := by
  induction l using List.reverseRecOn with
  | nil =>
      refine ⟨fun _ => rfl, ?_⟩
      rintro v ⟨p, hp, -⟩
      simp at hp
  | append_singleton l p ih =>
      rw [List.foldl_append, List.foldl_cons, List.foldl_nil]
      by_cases hp : p.1 = i
      · refine ⟨fun h => absurd hp (h p (by simp)), fun v _ hagree => ?_⟩
        rw [← hagree p (by simp) hp, hp]
        exact hacc.read_write _ _ _
      · rw [hacc.read_write_ne _ _ _ _ hp]
        refine ⟨fun h => ih.1 fun q hq => h q (List.mem_append_left _ hq), fun v hsome hagree => ?_⟩
        refine ih.2 v ?_ fun q hq => hagree q (List.mem_append_left _ hq)
        obtain ⟨q, hq, hqi⟩ := hsome
        rcases List.mem_append.1 hq with hq | hq
        · exact ⟨q, hq, hqi⟩
        · obtain rfl := List.mem_singleton.1 hq
          exact absurd hqi hp

theorem mem_below {lo hi v : Int} : v ∈ below lo hi ↔ lo ≤ v ∧ v < hi := by
  rw [below, List.mem_map]
  constructor
  · rintro ⟨k, hk, rfl⟩
    rw [List.mem_range] at hk
    omega
  · rintro ⟨hlo, hhi⟩
    exact ⟨(v - lo).toNat, List.mem_range.2 (by omega), by omega⟩

end Stores

section Put

variable {fb : Screen} {sp : Sprite} {x0 y0 : CInt} {m : Memory}

theorem pixelAccess_lawful (hbpp : fb.bpp = 8 ∨ fb.bpp = 16) :
    (pixelAccess fb).Lawful ∧ (pixelAccess fb).width = fb.bpp := by
  rw [pixelAccess]
  rcases hbpp with h | h
  · rw [if_pos h, h]
    exact ⟨access8_lawful, rfl⟩
  · rw [if_neg (by omega), h]
    exact ⟨access16_lawful, rfl⟩

/-- A pixel has the bits of its type. -/
theorem read_lt (fb : Screen) (m : Memory) (i : Int) :
    (pixelAccess fb).read m i < 2 ^ (pixelAccess fb).width ∧ (pixelAccess fb).width ≤ 16 := by
  rw [pixelAccess]
  split
  · exact ⟨(m i).isLt, by decide⟩
  · exact ⟨(m (2 * i + 1) ++ m (2 * i)).isLt, by decide⟩

theorem ofNat_read (fb : Screen) (m : Memory) (i : Int) :
    (BitVec.ofNat 32 ((pixelAccess fb).read m i)).toNat % 2 ^ (pixelAccess fb).width =
      (pixelAccess fb).read m i := by
  obtain ⟨hlt, hwidth⟩ := read_lt fb m i
  have hpow : 2 ^ (pixelAccess fb).width ≤ 2 ^ 16 := Nat.pow_le_pow_right (by omega) hwidth
  rw [BitVec.toNat_ofNat, Nat.mod_eq_of_lt (a := (pixelAccess fb).read m i) (by omega),
    Nat.mod_eq_of_lt hlt]

/-- The pixel of a sprite that lies at `(x, y)` of the screen when the sprite is at `(x0, y0)`. -/
def Sprite.colorAt (fb : Screen) (sp : Sprite) (x0 y0 x y : Int) : Nat :=
  (pixelAccess fb).read sp.data ((y - y0) * sp.sizeX.toNat + (x - x0))

/-- The pixels a sprite covers. -/
def Sprite.Covers (sp : Sprite) (x0 y0 x y : Int) : Prop :=
  (x0 ≤ x ∧ x < x0 + sp.sizeX.toNat) ∧ y0 ≤ y ∧ y < y0 + sp.sizeY.toNat

instance (sp : Sprite) (x0 y0 x y : Int) : Decidable (sp.Covers x0 y0 x y) :=
  inferInstanceAs (Decidable (_ ∧ _))

/-- The sum of a coordinate and a size. -/
theorem toInt_end {v : CInt} {size : BitVec 16} (h : v.toInt + size.toNat < 2 ^ 31) :
    (v + size.setWidth 32).toInt = v.toInt + size.toNat := by
  have hlt := size.isLt
  have hbounds := cInt_bounds v
  have hsize : (size.setWidth 32).toInt = size.toNat := by
    rw [BitVec.toInt_eq_toNat_of_lt (by rw [BitVec.toNat_setWidth]; omega), BitVec.toNat_setWidth,
      Nat.mod_eq_of_lt (by omega)]
  rw [toInt_add_small (by omega) (by omega), hsize]

/-- A limit of the screen. -/
theorem toInt_limit {w : CInt} (v : CInt) :
    (if w.slt v then w else v).toInt = min w.toInt v.toInt := by
  rw [BitVec.slt_eq_decide]
  by_cases h : w.toInt < v.toInt
  · rw [decide_eq_true h, if_pos rfl]
    omega
  · rw [decide_eq_false h, if_neg Bool.false_ne_true]
    omega

/-- The stores of `spr_put`. -/
theorem mem_putPixels (hx : x0.toInt + sp.sizeX.toNat < 2 ^ 31)
    (hy : y0.toInt + sp.sizeY.toNat < 2 ^ 31) {p : Int × CInt} :
    p ∈ putPixels fb sp x0 y0 ↔
      ∃ x y, OnScreen fb x y ∧ sp.Covers x0.toInt y0.toInt x y ∧
        (sp.colorAt fb x0.toInt y0.toInt x y : Int) ≠ sp.transColor.toInt ∧
        p = (y * fb.ml.hdisp + x, BitVec.ofNat 32 (sp.colorAt fb x0.toInt y0.toInt x y)) := by
  have hsrc : ∀ x y : Int, ∀ v : Int, (y - y0.toInt) * sp.sizeX.toNat + (v - x0.toInt) + (x - v) =
      (y - y0.toInt) * sp.sizeX.toNat + (x - x0.toInt) := by
    intro x y v
    ring
  have hdst : ∀ x y v : Int, y * (fb.ml.hdisp : Int) + v + (x - v) = y * fb.ml.hdisp + x := by
    intro x y v
    ring
  have hcolor : ∀ x y : Int,
      (pixelAccess fb).read sp.data ((y - y0.toInt) * sp.sizeX.toNat + (x - x0.toInt)) =
        sp.colorAt fb x0.toInt y0.toInt x y := fun _ _ => rfl
  rw [putPixels]
  dsimp only
  rw [toInt_limit, toInt_limit, toInt_clampLow, toInt_clampLow, toInt_end hx, toInt_end hy,
    toInt_hdisp, toInt_vdisp]
  simp only [hsrc, hdst, hcolor, List.mem_flatMap, List.mem_filterMap, mem_below,
    Option.ite_none_left_eq_some, Option.some.injEq]
  constructor
  · rintro ⟨y, hyr, x, hxr, hne, rfl⟩
    exact ⟨x, y, ⟨by omega, by omega, by omega, by omega⟩,
      ⟨⟨by omega, by omega⟩, by omega, by omega⟩, hne, rfl⟩
  · rintro ⟨x, y, ⟨h1, h2, h3, h4⟩, ⟨⟨h5, h6⟩, h7, h8⟩, hne, rfl⟩
    exact ⟨y, by omega, x, by omega, hne, rfl⟩

/-- The place of a pixel says where it is. -/
theorem place_inj {x y x' y' : Int} (h : OnScreen fb x y) (h' : OnScreen fb x' y')
    (heq : y * fb.ml.hdisp + x = y' * fb.ml.hdisp + x') : x = x' ∧ y = y' := by
  obtain ⟨hx, hx', -, -⟩ := h
  obtain ⟨kx, kx', -, -⟩ := h'
  have hy : y = y' := by
    have hdiv : ∀ a b : Int, 0 ≤ b → b < fb.ml.hdisp → (a * fb.ml.hdisp + b) / fb.ml.hdisp = a := by
      intro a b hb hb'
      rw [Int.add_comm, Int.add_mul_ediv_right _ _ (by omega), Int.ediv_eq_zero_of_lt hb hb',
        Int.zero_add]
    rw [← hdiv y x hx hx', heq, hdiv y' x' kx kx']
  subst hy
  exact ⟨by omega, rfl⟩

/-- A memory after a sprite was put: the pixels of the screen, and all others. -/
structure Blits (fb : Screen) (sp : Sprite) (x0 y0 : Int) (m m' : Memory) : Prop where
  on : ∀ x y, OnScreen fb x y →
    pixel (pixelAccess fb) fb m' x y =
      if sp.Covers x0 y0 x y ∧ (sp.colorAt fb x0 y0 x y : Int) ≠ sp.transColor.toInt then
        sp.colorAt fb x0 y0 x y
      else pixel (pixelAccess fb) fb m x y
  off : ∀ i, (∀ x y, OnScreen fb x y → i ≠ y * fb.ml.hdisp + x) →
    (pixelAccess fb).read m' i = (pixelAccess fb).read m i

theorem putSprite_blits (hbpp : fb.bpp = 8 ∨ fb.bpp = 16)
    (hx : x0.toInt + sp.sizeX.toNat < 2 ^ 31) (hy : y0.toInt + sp.sizeY.toNat < 2 ^ 31)
    (m : Memory) : Blits fb sp x0.toInt y0.toInt m (putSprite fb sp x0 y0 m) := by
  have hmem := fun {p} => @mem_putPixels fb sp x0 y0 hx hy p
  have hread := read_foldl_write (pixelAccess_lawful hbpp).1 (putPixels fb sp x0 y0) m
  refine ⟨fun x y hon => ?_, fun i hoff => ?_⟩
  · rw [pixel, putSprite]
    split
    · rename_i h
      refine (hread _).2 _ ⟨_, hmem.2 ⟨x, y, hon, h.1, h.2, rfl⟩, rfl⟩ fun p hp hplace => ?_
      obtain ⟨x', y', hon', -, -, rfl⟩ := hmem.1 hp
      obtain ⟨rfl, rfl⟩ := place_inj hon' hon hplace
      exact ofNat_read fb _ _
    · rename_i h
      refine (hread _).1 fun p hp hplace => h ?_
      obtain ⟨x', y', hon', hcovers, hne, rfl⟩ := hmem.1 hp
      obtain ⟨rfl, rfl⟩ := place_inj hon' hon hplace
      exact ⟨hcovers, hne⟩
  · refine (hread i).1 fun p hp hplace => ?_
    obtain ⟨x, y, hon, -, -, rfl⟩ := hmem.1 hp
    exact hoff x y hon hplace.symm

end Put

section Grab

variable {fb : Screen}

/-- A place in rows of one length that lie one behind the other. -/
theorem getElem?_rows {α β : Type} {f : α → List β} {w : Nat} (l : List α)
    (hrow : ∀ a, (f a).length = w) (r : Nat) {c : Nat} (hc : c < w) :
    (l.flatMap f)[r * w + c]? = l[r]?.bind fun a => (f a)[c]? := by
  induction l generalizing r with
  | nil => simp
  | cons a l ih =>
      rw [List.flatMap_cons]
      cases r with
      | zero =>
          rw [Nat.zero_mul, Nat.zero_add, List.getElem?_append_left (by rw [hrow]; exact hc)]
          rfl
      | succ r =>
          rw [List.getElem?_append_right (by rw [hrow, Nat.add_mul]; omega), hrow,
            List.getElem?_cons_succ, ← ih r]
          congr 1
          rw [Nat.add_mul]
          omega

theorem getElem?_below {lo hi : Int} {k : Nat} (h : k < (hi - lo).toNat) :
    (below lo hi)[k]? = some (lo + k) := by
  rw [below, List.getElem?_map, List.getElem?_range h]
  rfl

theorem length_below (lo hi : Int) : (below lo hi).length = (hi - lo).toNat := by
  rw [below, List.length_map, List.length_range]

/-- The pixels of a rectangle of the screen, row by row. -/
theorem getElem?_grabbed (m : Memory) {x0 y0 x1 y1 : Int} {r c : Nat}
    (hr : r < (y1 + 1 - y0).toNat) (hc : c < (x1 + 1 - x0).toNat) :
    (grabbed fb m x0 y0 x1 y1)[r * (x1 + 1 - x0).toNat + c]? =
      some (pixel (pixelAccess fb) fb m (x0 + c) (y0 + r)) := by
  rw [grabbed, getElem?_rows _ (fun y => by rw [List.length_map, length_below]) r hc,
    getElem?_below hr, Option.bind_some, List.getElem?_map, getElem?_below hc, Option.map_some,
    pixel, show (y0 + r) * (fb.ml.hdisp : Int) + x0 + (x0 + c - x0) =
      (y0 + r) * fb.ml.hdisp + (x0 + c) by ring]

/-- What stores one behind the other leave. -/
theorem read_storePixels {acc : Access} (hacc : acc.Lawful) (data : Memory) {pixels : List Nat}
    {k v : Nat} (hk : pixels[k]? = some v) :
    acc.read (storePixels acc data pixels) k = (BitVec.ofNat 32 v).toNat % 2 ^ acc.width := by
  have hfold : storePixels acc data pixels =
      (pixels.zipIdx.map fun p => ((p.2 : Int), BitVec.ofNat 32 p.1)).foldl
        (fun d p => acc.write d p.1 p.2) data := by
    rw [storePixels, List.foldl_map]
  rw [hfold]
  refine (read_foldl_write hacc _ data k).2 _ ?_ fun p hp hplace => ?_
  · exact ⟨((k : Int), BitVec.ofNat 32 v),
      List.mem_map.2 ⟨(v, k), List.mem_zipIdx_iff_getElem?.2 hk, rfl⟩, rfl⟩
  · obtain ⟨q, hq, rfl⟩ := List.mem_map.1 hp
    have hplace' : q.2 = k := Int.ofNat_inj.1 hplace
    rw [List.mem_zipIdx_iff_getElem?, hplace', hk] at hq
    rw [Option.some.inj hq]

/-- A rectangle of the screen. -/
structure RectOnScreen (fb : Screen) (x0 y0 x1 y1 : CInt) : Prop where
  left : 0 ≤ x0.toInt
  right : x1.toInt < fb.ml.hdisp
  width : x0.toInt ≤ x1.toInt
  top : 0 ≤ y0.toInt
  bottom : y1.toInt < fb.ml.vdisp
  height : y0.toInt ≤ y1.toInt

theorem grabRefused_eq_false {id x0 y0 x1 y1 : CInt} :
    grabRefused fb id x0 y0 x1 y1 = false ↔
      RectOnScreen fb x0 y0 x1 y1 ∧ 0 ≤ id.toInt ∧ fb.bpp ≠ 0 := by
  have hzero : (0 : CInt).toInt = 0 := rfl
  simp only [grabRefused, BitVec.slt_eq_decide, BitVec.sle_eq_decide, toInt_hdisp, toInt_vdisp,
    hzero, Bool.or_eq_false_iff, decide_eq_false_iff_not, beq_eq_false_iff_ne]
  constructor
  · rintro ⟨⟨⟨⟨⟨⟨⟨h1, h2⟩, h3⟩, h4⟩, h5⟩, h6⟩, h7⟩, h8⟩
    exact ⟨⟨by omega, by omega, by omega, by omega, by omega, by omega⟩, by omega, h8⟩
  · rintro ⟨⟨h1, h2, h3, h4, h5, h6⟩, h7, h8⟩
    omega

variable {x0 y0 x1 y1 : CInt} {m : Memory} {sp : Sprite}

/-- The size of a rectangle of the screen. -/
theorem toNat_extent {v w : CInt} {limit : Nat} (hv : 0 ≤ v.toInt) (hle : v.toInt ≤ w.toInt)
    (hw : w.toInt < limit) (hlimit : limit ≤ 2 ^ 15) :
    ((w - v + 1).setWidth 16).toNat = (w.toInt + 1 - v.toInt).toNat := by
  have hone : (1 : CInt).toInt = 1 := rfl
  have hval : (w - v + 1).toInt = w.toInt - v.toInt + 1 := by
    have hsub := @toInt_sub_small w v (by omega) (by omega)
    rw [toInt_add_small (by omega) (by omega), hsub, hone]
  have hnat := toNat_eq_toInt (l := w - v + 1) (by omega)
  rw [BitVec.toNat_setWidth]
  omega

theorem RectOnScreen.size (h : RectOnScreen fb x0 y0 x1 y1) :
    (grabSprite fb m x0 y0 x1 y1 sp).sizeX.toNat = (x1.toInt + 1 - x0.toInt).toNat ∧
      (grabSprite fb m x0 y0 x1 y1 sp).sizeY.toNat = (y1.toInt + 1 - y0.toInt).toNat :=
  ⟨toNat_extent h.left h.width h.right fb.ml.hdisp_le,
    toNat_extent h.top h.height h.bottom fb.ml.vdisp_le⟩

/-- A grabbed sprite has the pixels of the screen. -/
theorem RectOnScreen.colorAt (h : RectOnScreen fb x0 y0 x1 y1) (hbpp : fb.bpp = 8 ∨ fb.bpp = 16)
    {px py x y : Int} (hcovers : (grabSprite fb m x0 y0 x1 y1 sp).Covers px py x y) :
    (grabSprite fb m x0 y0 x1 y1 sp).colorAt fb px py x y =
      pixel (pixelAccess fb) fb m (x0.toInt + (x - px)) (y0.toInt + (y - py)) := by
  obtain ⟨hw, hh⟩ := @RectOnScreen.size fb x0 y0 x1 y1 m sp h
  rw [Sprite.Covers, hw, hh] at hcovers
  obtain ⟨⟨hx, hx'⟩, hy, hy'⟩ := hcovers
  have hwidth := h.width
  have hheight := h.height
  have hc : (x - px).toNat < (x1.toInt + 1 - x0.toInt).toNat := by omega
  have hr : (y - py).toNat < (y1.toInt + 1 - y0.toInt).toNat := by omega
  have hget := @getElem?_grabbed fb m x0.toInt y0.toInt x1.toInt y1.toInt _ _ hr hc
  have hread := read_storePixels (pixelAccess_lawful hbpp).1 sp.data hget
  rw [Sprite.colorAt, hw]
  have hplace : (y - py) * ((x1.toInt + 1 - x0.toInt).toNat : Int) + (x - px) =
      ((y - py).toNat * (x1.toInt + 1 - x0.toInt).toNat + (x - px).toNat : Nat) := by
    push_cast
    rw [Int.toNat_of_nonneg (show 0 ≤ y - py by omega),
      Int.toNat_of_nonneg (show 0 ≤ x - px by omega)]
  rw [hplace]
  refine hread.trans ?_
  rw [pixel, ofNat_read, Int.toNat_of_nonneg (by omega), Int.toNat_of_nonneg (by omega), pixel]

end Grab

section Copy

/-- A memory after a rectangle, with its pixels from `m`, was copied to `(px, py)`. -/
structure Copies (fb : Screen) (x0 y0 x1 y1 px py : Int) (m m₁ m₂ : Memory) : Prop where
  on : ∀ x y, OnScreen fb x y →
    pixel (pixelAccess fb) fb m₂ x y =
      if (px ≤ x ∧ x ≤ px + (x1 - x0)) ∧ py ≤ y ∧ y ≤ py + (y1 - y0) then
        pixel (pixelAccess fb) fb m (x0 + (x - px)) (y0 + (y - py))
      else pixel (pixelAccess fb) fb m₁ x y
  off : ∀ i, (∀ x y, OnScreen fb x y → i ≠ y * fb.ml.hdisp + x) →
    (pixelAccess fb).read m₂ i = (pixelAccess fb).read m₁ i

/-- What is to come of `spr_grab`, and `spr_put` at any place: a copy, which changes nothing at
the place of the rectangle itself. -/
def GrabPut (id : CInt) (block : Option Block) : Prop :=
  ∀ (fb : Screen) (m : Memory) (x0 y0 x1 y1 : CInt) (reg : Registry),
    fb.bpp = 8 ∨ fb.bpp = 16 → RectOnScreen fb x0 y0 x1 y1 →
    ∃ reg', sprGrab fb m id x0 y0 x1 y1 block reg = some (0, reg') ∧
      (∀ (px py : CInt) (m₁ : Memory),
        px.toInt + (x1.toInt + 1 - x0.toInt) < 2 ^ 31 →
        py.toInt + (y1.toInt + 1 - y0.toInt) < 2 ^ 31 →
        Copies fb x0.toInt y0.toInt x1.toInt y1.toInt px.toInt py.toInt m m₁
          (sprPut fb id px py reg' m₁).2) ∧
      (sprPut fb id x0 y0 reg' m).2 = m

variable {id : CInt}

/-- A copy to the place of the rectangle. -/
theorem Copies.eq_self {fb : Screen} (hbpp : fb.bpp = 8 ∨ fb.bpp = 16) {x0 y0 x1 y1 : Int}
    {m m' : Memory} (h : Copies fb x0 y0 x1 y1 x0 y0 m m m') : m' = m := by
  refine (pixelAccess_lawful hbpp).1.determines _ _ fun i => ?_
  by_cases hon : ∃ x y, OnScreen fb x y ∧ i = y * fb.ml.hdisp + x
  · obtain ⟨x, y, hon, rfl⟩ := hon
    have hpixel := h.on x y hon
    rw [show x0 + (x - x0) = x by ring, show y0 + (y - y0) = y by ring, ite_self] at hpixel
    exact hpixel
  · exact h.off i fun x y hxy heq => hon ⟨x, y, hxy, heq⟩

/-- With memory and an id of 16 bits the sprite is found that was grabbed. -/
theorem grabPut_of_small (hid : 0 ≤ id.toInt) (hsmall : id.toNat < 2 ^ 16) (b : Block) :
    GrabPut id (some b) := by
  intro fb m x0 y0 x1 y1 reg hbpp hrect
  have hgo : ¬grabRefused fb id x0 y0 x1 y1 = true := by
    rw [Bool.not_eq_true, grabRefused_eq_false]
    exact ⟨hrect, hid, by omega⟩
  obtain ⟨sp, hsp⟩ : ∃ sp, newSprite id (grabSize fb x0 y0 x1 y1) b = sp := ⟨_, rfl⟩
  have hspid : (grabSprite fb m x0 y0 x1 y1 sp).id = id.setWidth 16 := by
    rw [← hsp]
    rfl
  have htrans : (grabSprite fb m x0 y0 x1 y1 sp).transColor.toInt = -1 := by
    rw [← hsp]
    rfl
  obtain ⟨hw, hh⟩ := @RectOnScreen.size fb x0 y0 x1 y1 m sp hrect
  have hwidth := hrect.width
  have hheight := hrect.height
  have hput : ∀ (px py : CInt) (m₁ : Memory),
      (sprPut fb id px py (grabSprite fb m x0 y0 x1 y1 sp :: (sprFree id reg).2) m₁).2 =
        putSprite fb (grabSprite fb m x0 y0 x1 y1 sp) px py m₁ := by
    intro px py m₁
    rw [sprPut, lookup_cons, if_pos (by rw [hspid, setWidth_small hsmall])]
  have hcopy : ∀ (px py : CInt) (m₁ : Memory),
      px.toInt + (x1.toInt + 1 - x0.toInt) < 2 ^ 31 →
      py.toInt + (y1.toInt + 1 - y0.toInt) < 2 ^ 31 →
      Copies fb x0.toInt y0.toInt x1.toInt y1.toInt px.toInt py.toInt m m₁
        (putSprite fb (grabSprite fb m x0 y0 x1 y1 sp) px py m₁) := by
    intro px py m₁ hpx hpy
    have hblit := @putSprite_blits fb (grabSprite fb m x0 y0 x1 y1 sp) px py hbpp
      (by rw [hw]; omega) (by rw [hh]; omega) m₁
    refine ⟨fun x y hon => ?_, hblit.off⟩
    have hcovers : (grabSprite fb m x0 y0 x1 y1 sp).Covers px.toInt py.toInt x y ↔
        (px.toInt ≤ x ∧ x ≤ px.toInt + (x1.toInt - x0.toInt)) ∧
          py.toInt ≤ y ∧ y ≤ py.toInt + (y1.toInt - y0.toInt) := by
      rw [Sprite.Covers, hw, hh]
      omega
    rw [hblit.on x y hon, htrans]
    by_cases hin : (grabSprite fb m x0 y0 x1 y1 sp).Covers px.toInt py.toInt x y
    · rw [if_pos ⟨hin, by omega⟩, if_pos (hcovers.1 hin), hrect.colorAt hbpp hin]
    · rw [if_neg fun h => hin h.1, if_neg fun h => hin (hcovers.2 h)]
  refine ⟨grabSprite fb m x0 y0 x1 y1 sp :: (sprFree id reg).2, ?_, ?_, ?_⟩
  · simp only [sprGrab, if_neg hgo, sprAlloc, List.modifyHead_cons, hsp]
  · intro px py m₁ hpx hpy
    rw [hput]
    exact hcopy px py m₁ hpx hpy
  · have hr := hrect.right
    have hb := hrect.bottom
    have hh15 := fb.ml.hdisp_le
    have hv15 := fb.ml.vdisp_le
    rw [hput]
    exact (hcopy x0 y0 m (by omega) (by omega)).eq_self hbpp

/-- An id of more than 16 bits is not found again, and without memory there is no sprite. -/
theorem small_of_grabPut {block : Option Block} (h : GrabPut id block) :
    block.isSome = true ∧ id.toNat < 2 ^ 16 := by
  have hrect : RectOnScreen twoPixels 0 0 0 0 :=
    ⟨by decide, by decide, by decide, by decide, by decide, by decide⟩
  obtain ⟨m, hm⟩ : ∃ m : Memory, ∀ i, m i = if i = 0 then 1 else 0 := ⟨_, fun _ => rfl⟩
  obtain ⟨reg', hgrab, hcopy, -⟩ := h twoPixels m 0 0 0 0 [] (.inl rfl) hrect
  refine ⟨?_, ?_⟩
  · cases block with
    | none => simp [sprGrab, sprAlloc] at hgrab
    | some b => rfl
  · by_contra hlarge
    -- the second pixel is to have the colour of the first one
    have hpixel := (hcopy 1 0 m (by decide) (by decide)).on 1 0 ⟨by decide, by decide, by decide,
      by decide⟩
    rw [sprPut, lookup_large (by omega), if_pos (by decide)] at hpixel
    have hfirst : pixel (pixelAccess twoPixels) twoPixels m 0 0 = 1 := by
      change (m (0 * 2 + 0)).toNat = 1
      rw [hm]
      rfl
    have hsecond : pixel (pixelAccess twoPixels) twoPixels m 1 0 = 0 := by
      change (m (0 * 2 + 1)).toNat = 0
      rw [hm]
      rfl
    change pixel (pixelAccess twoPixels) twoPixels m 1 0 =
      pixel (pixelAccess twoPixels) twoPixels m 0 0 at hpixel
    rw [hfirst, hsecond] at hpixel
    exact absurd hpixel (by decide)

/--
`spr_put` changes the pixels of the screen that the sprite covers with a colour that is not the
transparent one, and nothing else; and a sprite grabbed from the screen is a copy wherever it
is put, if and only if there is memory for it and its id has 16 bits.
-/
theorem sprite_blit_iff {id : CInt} (hid : 0 ≤ id.toInt) (block : Option Block) :
    (∀ (fb : Screen) (sp : Sprite) (x0 y0 : CInt) (m : Memory), fb.bpp = 8 ∨ fb.bpp = 16 →
      x0.toInt + sp.sizeX.toNat < 2 ^ 31 → y0.toInt + sp.sizeY.toNat < 2 ^ 31 →
        Blits fb sp x0.toInt y0.toInt m (putSprite fb sp x0 y0 m)) ∧
      (GrabPut id block ↔ block.isSome = true ∧ id.toNat < 2 ^ 16) := by
  refine ⟨fun fb sp x0 y0 m hbpp hx hy => putSprite_blits hbpp hx hy m, small_of_grabPut, ?_⟩
  rintro ⟨hsome, hsmall⟩
  obtain ⟨b, rfl⟩ := Option.isSome_iff_exists.1 hsome
  exact grabPut_of_small hid hsmall b

theorem sprite_blit_iff_seven : GrabPut 7 (some ⟨fun _ => 0, 0, 0⟩) :=
  (@sprite_blit_iff 7 (by decide) _).2.2 ⟨rfl, by decide⟩

/-- An id of 17 bits. -/
theorem grabbed_not_put : ¬GrabPut 65536 (some ⟨fun _ => 0, 0, 0⟩) := by
  intro h
  have hsmall := (small_of_grabPut h).2
  exact absurd hsmall (by decide)

end Copy

end Fb
end F32c
