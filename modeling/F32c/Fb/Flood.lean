import F32c.Fb.Fill
import Mathlib.Data.Finset.Card
import Mathlib.Tactic

/-!
# What a flood fill reaches

The component of a seed is the set of the pixels that can be reached from it by
steps to one of the four neighbours over pixels of the seed's colour.  The fill
keeps two facts: it paints pixels of the component only, and a pixel of the
component that has a painted neighbour and is not painted itself lies in a run
of a column of which the stack holds a point.  With the stack empty, nothing is
left to paint.
-/

namespace F32c
namespace Fb

section Component

/-- Two pixels side by side or one above the other. -/
def Adjacent (x y x' y' : Int) : Prop :=
  (x = x' ∧ (y = y' + 1 ∨ y' = y + 1)) ∨ (y = y' ∧ (x = x' + 1 ∨ x' = x + 1))

/-- The pixels connected to the seed through pixels of its colour. -/
inductive Component (acc : Access) (fb : Screen) (m : Memory) (sx sy : Int) : Int → Int → Prop
  | seed (hon : OnScreen fb sx sy) : Component acc fb m sx sy sx sy
  | step {x y x' y' : Int} (h : Component acc fb m sx sy x y) (hadj : Adjacent x y x' y')
      (hon : OnScreen fb x' y') (hcur : pixel acc fb m x' y' = pixel acc fb m sx sy) :
      Component acc fb m sx sy x' y'

variable {acc : Access} {fb : Screen} {m : Memory} {sx sy x y : Int}

theorem Component.onScreen (h : Component acc fb m sx sy x y) : OnScreen fb x y := by
  cases h with
  | seed hon => exact hon
  | step _ _ hon _ => exact hon

theorem Component.seed_onScreen (h : Component acc fb m sx sy x y) : OnScreen fb sx sy := by
  induction h with
  | seed hon => exact hon
  | step _ _ _ _ ih => exact ih

theorem Component.cur (h : Component acc fb m sx sy x y) :
    pixel acc fb m x y = pixel acc fb m sx sy := by
  cases h with
  | seed _ => rfl
  | step _ _ _ hcur => exact hcur

end Component

section Pixels

variable {acc : Access} {fb : Screen}

theorem offset_inj {x y x' y' : Int} (h : OnScreen fb x y) (h' : OnScreen fb x' y')
    (heq : y * fb.ml.hdisp + x = y' * fb.ml.hdisp + x') : x = x' ∧ y = y' := by
  rcases h with ⟨hx, hxh, -, -⟩
  rcases h' with ⟨hx', hxh', -, -⟩
  have hmod : ∀ u v : Int, 0 ≤ u → u < fb.ml.hdisp → (v * fb.ml.hdisp + u) % fb.ml.hdisp = u := by
    intro u v hu huh
    rw [add_comm, Int.add_mul_emod_self_right, Int.emod_eq_of_lt hu huh]
  have hxx : x = x' := by
    rw [← hmod x y hx hxh, heq, hmod x' y' hx' hxh']
  refine ⟨hxx, ?_⟩
  have hmul : y * fb.ml.hdisp = y' * fb.ml.hdisp := by omega
  exact mul_right_cancel₀ (by omega) hmul

/-- Painting a pixel of the screen. -/
theorem pixel_write (law : acc.Lawful) {m : Memory} {x y x' y' : Int} (color : CInt)
    (h : OnScreen fb x y) (h' : OnScreen fb x' y') :
    pixel acc fb (acc.write m (y * fb.ml.hdisp + x) color) x' y' =
      if x' = x ∧ y' = y then color.toNat % 2 ^ acc.width else pixel acc fb m x' y' := by
  by_cases hsame : x' = x ∧ y' = y
  · rw [if_pos hsame, hsame.1, hsame.2]
    exact law.read_write ..
  · rw [if_neg hsame]
    apply law.read_write_ne
    intro heq
    rcases offset_inj h h' heq with ⟨hx, hy⟩
    exact hsame ⟨hx.symm, hy.symm⟩

/-- Nothing but pixels of the component has changed. -/
def Spared (acc : Access) (fb : Screen) (m₀ : Memory) (sx sy : Int) (m : Memory) : Prop :=
  ∀ i, (∀ x y, Component acc fb m₀ sx sy x y → y * fb.ml.hdisp + x ≠ i) →
    acc.read m i = acc.read m₀ i

section Spared

variable {m₀ m : Memory} {sx sy x y x' y' : Int}

theorem Spared.write (law : acc.Lawful) (hs : Spared acc fb m₀ sx sy m)
    (h : Component acc fb m₀ sx sy x y) (color : CInt) :
    Spared acc fb m₀ sx sy (acc.write m (y * fb.ml.hdisp + x) color) := by
  intro i hi
  rw [← hs i hi]
  exact law.read_write_ne _ _ _ _ (hi x y h)

/-- A neighbour of the component that still has the old colour belongs to it. -/
theorem Spared.closed (hs : Spared acc fb m₀ sx sy m) (h : Component acc fb m₀ sx sy x y)
    (hadj : Adjacent x y x' y') (hon : OnScreen fb x' y')
    (hcur : pixel acc fb m x' y' = pixel acc fb m₀ sx sy) :
    Component acc fb m₀ sx sy x' y' := by
  by_contra hnot
  have hsame := hs (y' * fb.ml.hdisp + x') (by
    intro u v huv heq
    rcases offset_inj huv.onScreen hon heq with ⟨rfl, rfl⟩
    exact hnot huv)
  exact hnot (Component.step h hadj hon (hsame.symm.trans hcur))

/-- The top of a run that the seed's component reaches belongs to the component. -/
theorem Spared.top_comp {top : Int} (hs : Spared acc fb m₀ sx sy m)
    (h : Component acc fb m₀ sx sy x y) (h0 : 0 ≤ top) (hle : top ≤ y + 1)
    (hrun : ∀ t, top ≤ t → t ≤ y → pixel acc fb m x t = pixel acc fb m₀ sx sy)
    (hon : OnScreen fb x top) (hcur : pixel acc fb m x top = pixel acc fb m₀ sx sy) :
    Component acc fb m₀ sx sy x top := by
  rcases Int.lt_or_eq_of_le hle with hlt | heq
  · have hup : ∀ k : Nat, (k : Int) ≤ y - top → Component acc fb m₀ sx sy x (y - k) := by
      intro k
      induction k with
      | zero =>
          intro _
          simpa using h
      | succ k ih =>
          intro hk
          push_cast at hk ⊢
          have hscreen := h.onScreen
          refine hs.closed (ih (by omega)) (Or.inl ⟨rfl, Or.inl (by omega)⟩) ?_ ?_
          · exact ⟨hscreen.1, hscreen.2.1, by omega, by have := hscreen.2.2.2; omega⟩
          · exact hrun _ (by omega) (by omega)
    have htop := hup (y - top).toNat (by omega)
    rwa [show y - ((y - top).toNat : Int) = top by omega] at htop
  · exact hs.closed h (Or.inl ⟨rfl, Or.inr heq⟩) hon hcur

end Spared

section Stack

variable {x y : Int}

theorem toInt_ofInt16 {v : Int} (h : 0 ≤ v) (h' : v < 2 ^ 15) : (BitVec.ofInt 16 v).toInt = v := by
  rw [BitVec.toInt_ofInt]
  exact Int.bmod_eq_of_le (by omega) (by omega)

/-- The coordinates of the screen fit in an entry of the stack. -/
theorem OnScreen.toInt_entry (h : OnScreen fb x y) :
    (BitVec.ofInt 16 x).toInt = x ∧ (BitVec.ofInt 16 y).toInt = y := by
  have hh : (fb.ml.hdisp : Int) ≤ 2 ^ 15 := by exact_mod_cast fb.ml.hdisp_le
  have hv : (fb.ml.vdisp : Int) ≤ 2 ^ 15 := by exact_mod_cast fb.ml.vdisp_le
  rcases h with ⟨hx, hxh, hy, hyv⟩
  exact ⟨toInt_ofInt16 hx (by omega), toInt_ofInt16 hy (by omega)⟩

/-- The point of an entry that has been put on the stack. -/
theorem push_entry (s : Scan) (h : OnScreen fb x y) :
    ((s.push x y).stk s.sp).x.toInt = x ∧ ((s.push x y).stk s.sp).y.toInt = y := by
  have hentry : (s.push x y).stk s.sp = ⟨BitVec.ofInt 16 x, BitVec.ofInt 16 y⟩ :=
    Function.update_self ..
  rw [hentry]
  exact h.toInt_entry

theorem push_below (s : Scan) {i : Nat} (hi : i < s.sp) : (s.push x y).stk i = s.stk i :=
  Function.update_of_ne (by omega) _ _

end Stack

/-- The way up a column: the rows passed have the old colour, and the one where it ends has
not. -/
theorem scan_up {m : Memory} {x y : Int} {cur : Nat} (hv : y < fb.ml.vdisp) (h0 : 0 ≤ y) :
    ∃ top, Loop.passes (upTest acc fb m cur x) (· - 1) (fb.ml.vdisp + 1) y + 1 = top ∧
      0 ≤ top ∧ top ≤ y + 1 ∧ (∀ t, top ≤ t → t ≤ y → pixel acc fb m x t = cur) ∧
      (0 ≤ top - 1 → pixel acc fb m x (top - 1) ≠ cur) := by
  obtain ⟨⟨hlow, hhigh, hrun⟩, hend⟩ := @Loop.passes_end _ (upTest acc fb m cur x) (· - 1)
    (fun t => -1 ≤ t ∧ t ≤ y ∧ ∀ u, t < u → u ≤ y → pixel acc fb m x u = cur)
    (fun t => (t + 1).toNat) (by
      rintro t ⟨hlow, hhigh, hrun⟩ ht
      simp only [upTest, Bool.and_eq_true, decide_eq_true_eq, beq_iff_eq] at ht
      refine ⟨⟨by omega, by omega, ?_⟩, by omega⟩
      intro u hu huy
      rcases Int.lt_or_eq_of_le (show t ≤ u by omega) with hlt | rfl
      · exact hrun u hlt huy
      · exact ht.2) (fb.ml.vdisp + 1) y
    ⟨by omega, le_refl y, fun u hu huy => by omega⟩ (by omega)
  refine ⟨_, rfl, by omega, by omega, fun t ht hty => hrun t (by omega) hty, ?_⟩
  intro hge hcur
  rw [add_sub_cancel_right] at hge hcur
  simp only [upTest, Bool.and_eq_false_iff, decide_eq_false_iff_not, beq_eq_false_iff_ne] at hend
  rcases hend with hneg | hne
  · exact hneg hge
  · exact hne hcur

/-- How many pixels of the screen have a colour. -/
def countColor (acc : Access) (fb : Screen) (cur : Nat) (m : Memory) : Nat :=
  ((Finset.range fb.ml.hdisp ×ˢ Finset.range fb.ml.vdisp).filter fun p =>
    pixel acc fb m p.1 p.2 = cur).card

theorem countColor_write (law : acc.Lawful) {m : Memory} {x y : Int} {cur : Nat} {color : CInt}
    (h : OnScreen fb x y) (hcur : pixel acc fb m x y = cur)
    (hne : color.toNat % 2 ^ acc.width ≠ cur) :
    countColor acc fb cur (acc.write m (y * fb.ml.hdisp + x) color) <
      countColor acc fb cur m := by
  apply Finset.card_lt_card
  rw [Finset.ssubset_iff_of_subset]
  · rcases h with ⟨hx, hxh, hy, hyv⟩
    refine ⟨(x.toNat, y.toNat), ?_, ?_⟩
    · simp only [Finset.mem_filter, Finset.mem_product, Finset.mem_range, Int.toNat_of_nonneg hx,
        Int.toNat_of_nonneg hy]
      exact ⟨⟨by omega, by omega⟩, hcur⟩
    · simp only [Finset.mem_filter, Int.toNat_of_nonneg hx, Int.toNat_of_nonneg hy, not_and]
      intro _
      rw [pixel_write law color ⟨hx, hxh, hy, hyv⟩ ⟨hx, hxh, hy, hyv⟩, if_pos ⟨rfl, rfl⟩]
      exact hne
  · intro p hp
    simp only [Finset.mem_filter, Finset.mem_product, Finset.mem_range] at hp ⊢
    refine ⟨hp.1, ?_⟩
    have hpixel := hp.2
    rw [pixel_write law color h ⟨by omega, by omega, by omega, by omega⟩] at hpixel
    split at hpixel
    · exact absurd hpixel hne
    · exact hpixel

end Pixels

/-- A fill to be done: the seed's colour is not the new one. -/
structure Job where
  acc : Access
  lawful : acc.Lawful
  fb : Screen
  start : Memory
  sx : Int
  sy : Int
  color : CInt
  differs : color.toNat % 2 ^ acc.width ≠ pixel acc fb start sx sy

namespace Job

variable (j : Job)

def cur : Nat := pixel j.acc j.fb j.start j.sx j.sy

/-- The new colour of a pixel. -/
def new : Nat := j.color.toNat % 2 ^ j.acc.width

def pix (m : Memory) (x y : Int) : Nat := pixel j.acc j.fb m x y

def Comp (x y : Int) : Prop := Component j.acc j.fb j.start j.sx j.sy x y

def paint (m : Memory) (x y : Int) : Memory := j.acc.write m (y * j.fb.ml.hdisp + x) j.color

/-- Only pixels of the component have been painted. -/
structure Sound (m : Memory) : Prop where
  inside : ∀ x y, j.Comp x y → j.pix m x y = j.cur ∨ j.pix m x y = j.new
  outside : Spared j.acc j.fb j.start j.sx j.sy m

variable {j} {m : Memory} {x y x' y' : Int}

theorem new_ne_cur : j.new ≠ j.cur := j.differs

theorem pix_paint (h : OnScreen j.fb x y) (h' : OnScreen j.fb x' y') :
    j.pix (j.paint m x y) x' y' = if x' = x ∧ y' = y then j.new else j.pix m x' y' :=
  pixel_write j.lawful j.color h h'

theorem sound_start : j.Sound j.start :=
  ⟨fun _ _ h => Or.inl h.cur, fun _ _ => rfl⟩

theorem Sound.paint (hs : j.Sound m) (h : j.Comp x y) : j.Sound (j.paint m x y) := by
  constructor
  · intro x' y' h'
    rw [pix_paint h.onScreen h'.onScreen]
    split
    · exact Or.inr rfl
    · exact hs.inside x' y' h'
  · exact hs.outside.write j.lawful h j.color

/-- A neighbour of the component that still has the old colour belongs to it. -/
theorem Sound.closed (hs : j.Sound m) (h : j.Comp x y) (hadj : Adjacent x y x' y')
    (hon : OnScreen j.fb x' y') (hcur : j.pix m x' y' = j.cur) : j.Comp x' y' :=
  hs.outside.closed h hadj hon hcur

/-- The rows before `y` of a neighbouring column have their runs on the stack. -/
def SideCover (j : Job) (m : Memory) (stk : Nat → Entry) (n sp : Nat) (x top y : Int) : Prop :=
  ∀ t, top ≤ t → t < y → OnScreen j.fb x t → j.pix m x t = j.cur →
    ∃ i, n ≤ i ∧ i < sp ∧ (stk i).x.toInt = x ∧ (stk i).y.toInt ≤ t ∧
      ∀ u, (stk i).y.toInt ≤ u → u ≤ t → j.pix m x u = j.cur

theorem SideCover.mono {stk stk' : Nat → Entry} {n sp sp' : Nat} {top : Int}
    (h : j.SideCover m stk n sp x top y) (hsp : sp ≤ sp') (hstk : ∀ i < sp, stk' i = stk i) :
    j.SideCover m stk' n sp' x top y := by
  intro t ht hty hon hcur
  rcases h t ht hty hon hcur with ⟨i, hni, hi, hx, hy, hrun⟩
  refine ⟨i, hni, by omega, ?_, ?_, ?_⟩
  · rw [hstk i hi]
    exact hx
  · rw [hstk i hi]
    exact hy
  · rw [hstk i hi]
    exact hrun

/-- A run of the neighbouring column is being followed. -/
def Followed (j : Job) (m : Memory) (x top y : Int) : Prop :=
  top < y ∧ OnScreen j.fb x (y - 1) ∧ j.pix m x (y - 1) = j.cur

/-- What a look at the neighbouring column `x` does. -/
structure Looked (j : Job) (m : Memory) (n : Nat) (x top : Int) (s s' : Scan) (flag : Bool) :
    Prop where
  mem : s'.mem = s.mem
  row : s'.y = s.y
  l : s'.l = s.l
  r : s'.r = s.r
  sp : s.sp ≤ s'.sp ∧ s'.sp ≤ s.sp + 1
  below : ∀ i < s.sp, s'.stk i = s.stk i
  pushed : ∀ i, s.sp ≤ i → i < s'.sp → (s'.stk i).x.toInt = x ∧ (s'.stk i).y.toInt = s.y ∧
    OnScreen j.fb x s.y ∧ j.pix s.mem x s.y = j.cur
  cover : j.SideCover m s'.stk n s'.sp x top (s.y + 1)
  flag : flag = true → OnScreen j.fb x s.y ∧ j.pix m x s.y = j.cur

theorem SideCover.extend {stk : Nat → Entry} {n sp : Nat} {top : Int}
    (h : j.SideCover m stk n sp x top y)
    (hlast : OnScreen j.fb x y → j.pix m x y = j.cur →
      ∃ i, n ≤ i ∧ i < sp ∧ (stk i).x.toInt = x ∧ (stk i).y.toInt ≤ y ∧
        ∀ u, (stk i).y.toInt ≤ u → u ≤ y → j.pix m x u = j.cur) :
    j.SideCover m stk n sp x top (y + 1) := by
  intro t ht hty hon hcur
  rcases Int.lt_or_eq_of_le (Int.lt_add_one_iff.1 hty) with hlt | rfl
  · exact h t ht hlt hon hcur
  · exact hlast hon hcur

theorem look_spec {n : Nat} {top : Int} {s : Scan} {inside flag : Bool}
    (hin : inside = true ↔ 0 ≤ x ∧ x < j.fb.ml.hdisp) (hy : 0 ≤ s.y ∧ s.y < j.fb.ml.vdisp)
    (hsame : OnScreen j.fb x s.y → j.pix s.mem x s.y = j.pix m x s.y) (hn : n ≤ s.sp)
    (hcover : j.SideCover m s.stk n s.sp x top s.y)
    (hflag : flag = true → j.Followed m x top s.y) :
    j.Looked m n x top s (look j.acc j.fb j.cur inside x flag s).1
      (look j.acc j.fb j.cur inside x flag s).2 := by
  have hon : inside = true → OnScreen j.fb x s.y := fun h => by
    rcases hin.1 h with ⟨h0, h1⟩
    exact ⟨h0, h1, hy.1, hy.2⟩
  have hkeep : ∀ flag' : Bool,
      (OnScreen j.fb x s.y → j.pix m x s.y = j.cur →
        ∃ i, n ≤ i ∧ i < s.sp ∧ (s.stk i).x.toInt = x ∧ (s.stk i).y.toInt ≤ s.y ∧
          ∀ u, (s.stk i).y.toInt ≤ u → u ≤ s.y → j.pix m x u = j.cur) →
      (flag' = true → OnScreen j.fb x s.y ∧ j.pix m x s.y = j.cur) →
      j.Looked m n x top s s flag' := fun flag' hlast hflag' =>
    { mem := rfl
      row := rfl
      l := rfl
      r := rfl
      sp := ⟨le_refl _, by omega⟩
      below := fun _ _ => rfl
      pushed := fun i h h' => absurd h' (by omega)
      cover := hcover.extend hlast
      flag := hflag' }
  rw [look]
  by_cases hpush : (!flag && inside && pixel j.acc j.fb s.mem x s.y == j.cur) = true
  · rw [if_pos hpush]
    simp only [Bool.and_eq_true, beq_iff_eq] at hpush
    rcases hpush with ⟨⟨-, hinside⟩, hcur⟩
    have hscreen := hon hinside
    have hcur' : j.pix m x s.y = j.cur := (hsame hscreen).symm.trans hcur
    rcases push_entry s hscreen with ⟨hex, hey⟩
    have hlast : ∀ i, s.sp ≤ i → i < s.sp + 1 → i = s.sp := fun i h h' => by omega
    refine
      { mem := rfl
        row := rfl
        l := rfl
        r := rfl
        sp := ⟨Nat.le_succ _, le_refl _⟩
        below := fun i hi => push_below s hi
        pushed := ?_
        cover := ?_
        flag := fun _ => ⟨hscreen, hcur'⟩ }
    · intro i h h'
      obtain rfl := hlast i h h'
      exact ⟨hex, hey, hscreen, hcur⟩
    · refine (hcover.mono (Nat.le_succ _) fun i hi => push_below s hi).extend ?_
      intro _ _
      refine ⟨s.sp, hn, Nat.lt_succ_self _, hex, le_of_eq hey, ?_⟩
      intro u hu hu'
      rw [hey] at hu
      obtain rfl : u = s.y := by omega
      exact hcur'
  · rw [if_neg hpush]
    by_cases hdrop : (flag && inside && pixel j.acc j.fb s.mem x s.y != j.cur) = true
    · rw [if_pos hdrop]
      simp only [Bool.and_eq_true, bne_iff_ne] at hdrop
      refine hkeep false (fun hscreen hcur => ?_) (by simp)
      exact absurd ((hsame hscreen).trans hcur) hdrop.2
    · rw [if_neg hdrop]
      cases hf : flag with
      | false =>
          refine hkeep false (fun hscreen hcur => ?_) (by simp)
          have hinside : inside = true := hin.2 ⟨hscreen.1, hscreen.2.1⟩
          have hpix : pixel j.acc j.fb s.mem x s.y = j.cur := (hsame hscreen).trans hcur
          simp [hf, hinside, hpix] at hpush
      | true =>
          rcases hflag hf with ⟨htop, hprev, hprevcur⟩
          have hinside : inside = true := hin.2 ⟨hprev.1, hprev.2.1⟩
          have hpix : pixel j.acc j.fb s.mem x s.y = j.cur := by
            simpa [hf, hinside] using hdrop
          have hcur : j.pix m x s.y = j.cur := (hsame (hon hinside)).symm.trans hpix
          -- the run of the row above goes on
          refine hkeep true (fun _ _ => ?_) (fun _ => ⟨hon hinside, hcur⟩)
          rcases hcover (s.y - 1) (by omega) (by omega) hprev hprevcur with
            ⟨i, hni, hi, hex, hey, hrun⟩
          refine ⟨i, hni, hi, hex, by omega, fun u hu hu' => ?_⟩
          rcases Int.lt_or_eq_of_le hu' with hlt | rfl
          · exact hrun u hu (by omega)
          · exact hcur

/-- The state on the way down a column `x` from the row `top`, for an entry `n` that was taken
off the stack when the memory was `m`. -/
structure Scanning (j : Job) (m : Memory) (stk : Nat → Entry) (n : Nat) (x top : Int) (s : Scan) :
    Prop where
  top_le : top ≤ s.y
  painted : ∀ t, top ≤ t → t < s.y → j.Comp x t ∧ j.pix m x t = j.cur ∧ j.pix s.mem x t = j.new
  others : ∀ x' y', OnScreen j.fb x' y' → x' ≠ x ∨ y' < top ∨ s.y ≤ y' →
    j.pix s.mem x' y' = j.pix m x' y'
  below : ∀ i < n, s.stk i = stk i
  sp : n ≤ s.sp
  pushed : ∀ i, n ≤ i → i < s.sp → j.Comp (s.stk i).x.toInt (s.stk i).y.toInt
  left : j.SideCover m s.stk n s.sp (x - 1) top s.y
  right : j.SideCover m s.stk n s.sp (x + 1) top s.y
  leftFlag : s.l = true → j.Followed m (x - 1) top s.y
  rightFlag : s.r = true → j.Followed m (x + 1) top s.y
  room : 3 * countColor j.acc j.fb j.cur s.mem + s.sp ≤
    3 * countColor j.acc j.fb j.cur m + n

/-- What is known on the way down, also when the stack overflows. -/
structure Going (j : Job) (m : Memory) (stk : Nat → Entry) (n : Nat) (x top : Int) (s : Scan) :
    Prop where
  sound : j.Sound s.mem
  scanning : s.abort = false → j.Scanning m stk n x top s

/-- The pixel about to be painted belongs to the component. -/
theorem Scanning.next_comp {stk : Nat → Entry} {n : Nat} {top : Int} {s : Scan}
    (h : j.Scanning m stk n x top s) (hs : j.Sound s.mem) (hon : OnScreen j.fb x s.y)
    (hcur : j.pix s.mem x s.y = j.cur)
    (htop : OnScreen j.fb x top → j.pix m x top = j.cur → j.Comp x top) :
    j.Comp x s.y := by
  rcases Int.lt_or_eq_of_le h.top_le with hlt | heq
  · have hprev := (h.painted (s.y - 1) (by omega) (by omega)).1
    exact hs.closed hprev (Or.inl ⟨rfl, Or.inr (by omega)⟩) hon hcur
  · have hpix := h.others x s.y hon (Or.inr (Or.inr (le_refl _)))
    rw [← heq] at hon hcur hpix ⊢
    exact htop hon (hpix.symm.trans hcur)

/-- One pixel painted on the way down. -/
theorem Going.paintNext {stk : Nat → Entry} {n : Nat} {top : Int} {s : Scan}
    (h : j.Going m stk n x top s) (ht : downTest j.acc j.fb j.cur x s = true)
    (hx : 0 ≤ x ∧ x < j.fb.ml.hdisp) (h0 : 0 ≤ top)
    (htop : OnScreen j.fb x top → j.pix m x top = j.cur → j.Comp x top) :
    j.Going m stk n x top (downBody j.acc j.fb j.cur j.color x s) ∧
      ((downBody j.acc j.fb j.cur j.color x s).abort = false →
        (downBody j.acc j.fb j.cur j.color x s).y = s.y + 1) := by
  simp only [downTest, Bool.and_eq_true, Bool.not_eq_true', decide_eq_true_eq, beq_iff_eq] at ht
  rcases ht with ⟨⟨habort, hyv⟩, hcur⟩
  have hscan := h.scanning habort
  have hon : OnScreen j.fb x s.y := ⟨hx.1, hx.2, le_trans h0 hscan.top_le, hyv⟩
  have hcomp := hscan.next_comp h.sound hon hcur htop
  have hsound : j.Sound (j.paint s.mem x s.y) := h.sound.paint hcomp
  -- the neighbouring columns are as they were before the pass
  have hside : ∀ x', x' ≠ x → OnScreen j.fb x' s.y →
      j.pix (j.paint s.mem x s.y) x' s.y = j.pix m x' s.y := by
    intro x' hne hon'
    rw [pix_paint hon hon', if_neg (by simp [hne])]
    exact hscan.others x' s.y hon' (Or.inl hne)
  obtain ⟨s₁, hs₁⟩ : ∃ s₁ : Scan, { s with mem := j.paint s.mem x s.y } = s₁ := ⟨_, rfl⟩
  have hleft : j.Looked m n (x - 1) top s₁
      (look j.acc j.fb j.cur (decide (0 < x)) (x - 1) s₁.l s₁).1
      (look j.acc j.fb j.cur (decide (0 < x)) (x - 1) s₁.l s₁).2 := by
    subst hs₁
    exact look_spec (by rw [decide_eq_true_eq]; omega) ⟨hon.2.2.1, hyv⟩ (hside (x - 1) (by omega))
      hscan.sp hscan.left hscan.leftFlag
  obtain ⟨s₂, hs₂⟩ : ∃ s₂, look j.acc j.fb j.cur (decide (0 < x)) (x - 1) s₁.l s₁ = s₂ := ⟨_, rfl⟩
  rw [hs₂] at hleft
  have hmem₂ : s₂.1.mem = j.paint s.mem x s.y := by
    rw [hleft.mem, ← hs₁]
  have hrow₂ : s₂.1.y = s.y := by
    rw [hleft.row, ← hs₁]
  have hdown : downBody j.acc j.fb j.cur j.color x s =
      if s₂.1.abort then { s₂.1 with l := s₂.2 }
      else
        let s₄ := look j.acc j.fb j.cur (decide (x < j.fb.ml.hdisp - 1)) (x + 1) s₂.1.r
          { s₂.1 with l := s₂.2 }
        if s₄.1.abort then { s₄.1 with r := s₄.2 } else { s₄.1 with r := s₄.2, y := s₄.1.y + 1 } := by
    rw [← hs₂, ← hs₁]
    rfl
  rw [hdown]
  by_cases hab₂ : s₂.1.abort = true
  · rw [if_pos hab₂]
    refine ⟨⟨by rw [hmem₂]; exact hsound, fun hf => ?_⟩, fun hf => ?_⟩ <;>
      exact absurd hab₂ (by simpa using hf)
  rw [if_neg hab₂]
  have hstk₂ : ∀ i < s.sp, s₂.1.stk i = s.stk i := by
    intro i hi
    rw [hleft.below i (by rw [← hs₁]; exact hi), ← hs₁]
  have hsp₂ : s.sp ≤ s₂.1.sp ∧ s₂.1.sp ≤ s.sp + 1 := by
    have := hleft.sp
    rw [← hs₁] at this
    exact this
  have hright : j.Looked m n (x + 1) top { s₂.1 with l := s₂.2 }
      (look j.acc j.fb j.cur (decide (x < j.fb.ml.hdisp - 1)) (x + 1) s₂.1.r
        { s₂.1 with l := s₂.2 }).1
      (look j.acc j.fb j.cur (decide (x < j.fb.ml.hdisp - 1)) (x + 1) s₂.1.r
        { s₂.1 with l := s₂.2 }).2 := by
    refine look_spec (by rw [decide_eq_true_eq]; omega) ?_ ?_ ?_ ?_ ?_
    · simp only [hrow₂]
      exact ⟨hon.2.2.1, hyv⟩
    · simp only [hrow₂, hmem₂]
      exact hside (x + 1) (by omega)
    · exact le_trans hscan.sp hsp₂.1
    · simp only [hrow₂]
      exact hscan.right.mono hsp₂.1 hstk₂
    · have hr : s₂.1.r = s.r := by
        rw [hleft.r, ← hs₁]
      simp only [hrow₂, hr]
      exact hscan.rightFlag
  obtain ⟨s₄, hs₄⟩ : ∃ s₄, look j.acc j.fb j.cur (decide (x < j.fb.ml.hdisp - 1)) (x + 1) s₂.1.r
    { s₂.1 with l := s₂.2 } = s₄ := ⟨_, rfl⟩
  rw [hs₄] at hright ⊢
  dsimp only
  have hmem₄ : s₄.1.mem = j.paint s.mem x s.y := hright.mem.trans hmem₂
  have hrow₄ : s₄.1.y = s.y := hright.row.trans hrow₂
  by_cases hab₄ : s₄.1.abort = true
  · rw [if_pos hab₄]
    refine ⟨⟨by rw [hmem₄]; exact hsound, fun hf => ?_⟩, fun hf => ?_⟩ <;>
      exact absurd hf (by simp [hab₄])
  rw [if_neg hab₄]
  refine ⟨⟨by rw [hmem₄]; exact hsound, fun _ => ?_⟩, fun _ => by rw [hrow₄]⟩
  have hsp₄ : s₂.1.sp ≤ s₄.1.sp ∧ s₄.1.sp ≤ s₂.1.sp + 1 := hright.sp
  have hstk₄ : ∀ i < s.sp, s₄.1.stk i = s.stk i := fun i hi =>
    (hright.below i (lt_of_lt_of_le hi hsp₂.1)).trans (hstk₂ i hi)
  have hl₄ : s₄.1.l = s₂.2 := hright.l
  have hcl := hleft.cover
  have hfl := hleft.flag
  have hcr := hright.cover
  have hfr := hright.flag
  rw [← hs₁] at hcl hfl
  simp only [hrow₂] at hcr hfr
  exact
    { top_le := by
        simp only [hrow₄]
        have := hscan.top_le
        omega
      painted := by
        simp only [hrow₄, hmem₄]
        intro t htop' ht
        rcases Int.lt_or_eq_of_le (Int.lt_add_one_iff.1 ht) with hlt | rfl
        · rcases hscan.painted t htop' hlt with ⟨hct, hmt, hst⟩
          refine ⟨hct, hmt, ?_⟩
          rw [pix_paint hon hct.onScreen, if_neg (by omega)]
          exact hst
        · refine ⟨hcomp, (hscan.others x s.y hon (Or.inr (Or.inr (le_refl _)))).symm.trans hcur, ?_⟩
          rw [pix_paint hon hon, if_pos ⟨rfl, rfl⟩]
      others := by
        simp only [hrow₄, hmem₄]
        intro x' y' hon' hout
        have htople := hscan.top_le
        rw [pix_paint hon hon', if_neg (by omega)]
        exact hscan.others x' y' hon' (by omega)
      below := fun i hi => (hstk₄ i (lt_of_lt_of_le hi hscan.sp)).trans (hscan.below i hi)
      sp := le_trans hscan.sp (le_trans hsp₂.1 hsp₄.1)
      pushed := by
        intro i hni hi
        rcases Nat.lt_or_ge i s.sp with hold | hnew
        · simp only [hstk₄ i hold]
          exact hscan.pushed i hni hold
        · rcases Nat.lt_or_ge i s₂.1.sp with hin | hin
          · have hp := hleft.pushed i (by rw [← hs₁]; exact hnew) hin
            rw [← hs₁] at hp
            have hbelow : s₄.1.stk i = s₂.1.stk i := hright.below i hin
            simp only [hbelow, hp.1, hp.2.1]
            exact hsound.closed hcomp (Or.inr ⟨rfl, Or.inl (by omega)⟩) hp.2.2.1 hp.2.2.2
          · have hp := hright.pushed i hin hi
            simp only [hrow₂, hmem₂] at hp
            simp only [hp.1, hp.2.1]
            exact hsound.closed hcomp (Or.inr ⟨rfl, Or.inr rfl⟩) hp.2.2.1 hp.2.2.2
      left := by
        simp only [hrow₄]
        exact hcl.mono hsp₄.1 fun i hi => hright.below i hi
      right := by
        simp only [hrow₄]
        exact hcr
      leftFlag := by
        intro hl
        simp only [hrow₄]
        have hflag := hfl (hl₄.symm.trans hl)
        have htople := hscan.top_le
        exact ⟨by omega, by rw [add_sub_cancel_right]; exact hflag⟩
      rightFlag := by
        intro hr
        simp only [hrow₄]
        have hflag := hfr hr
        have htople := hscan.top_le
        exact ⟨by omega, by rw [add_sub_cancel_right]; exact hflag⟩
      room := by
        simp only [hmem₄]
        have hless : countColor j.acc j.fb j.cur (j.paint s.mem x s.y) <
            countColor j.acc j.fb j.cur s.mem := countColor_write j.lawful hon hcur new_ne_cur
        have := hscan.room
        omega }

/-- The way down a column: it ends, at the end of the run, unless the stack overflows. -/
theorem scan_down {stk : Nat → Entry} {n : Nat} {top : Int} {s : Scan}
    (h : j.Going m stk n x top s) (hx : 0 ≤ x ∧ x < j.fb.ml.hdisp) (h0 : 0 ≤ top)
    (htop : OnScreen j.fb x top → j.pix m x top = j.cur → j.Comp x top) (hy : 0 ≤ s.y) :
    j.Going m stk n x top (Loop.passes (downTest j.acc j.fb j.cur x)
        (downBody j.acc j.fb j.cur j.color x) (j.fb.ml.vdisp + 1) s) ∧
      downTest j.acc j.fb j.cur x (Loop.passes (downTest j.acc j.fb j.cur x)
        (downBody j.acc j.fb j.cur j.color x) (j.fb.ml.vdisp + 1) s) = false := by
  refine Loop.passes_end (j.Going m stk n x top)
    (fun s => if s.abort then 0 else (j.fb.ml.vdisp - s.y).toNat + 1) ?_ _ s h ?_
  · intro s hs ht
    rcases hs.paintNext ht hx h0 htop with ⟨hgoing, hrow⟩
    refine ⟨hgoing, ?_⟩
    simp only [downTest, Bool.and_eq_true, Bool.not_eq_true', decide_eq_true_eq] at ht
    rw [ht.1.1]
    cases hab : (downBody j.acc j.fb j.cur j.color x s).abort with
    | true => simp
    | false =>
        simp only [Bool.false_eq_true, if_false, hrow hab]
        omega
  · split
    · omega
    · omega

/-- The stack holds a point of the run of the old colour that a pixel is in. -/
def Waiting (j : Job) (m : Memory) (stk : Nat → Entry) (sp : Int) (x y : Int) : Prop :=
  ∃ i : Nat, (i : Int) ≤ sp ∧ (stk i).x.toInt = x ∧
    ∀ u, min (stk i).y.toInt y ≤ u → u ≤ max (stk i).y.toInt y → j.pix m x u = j.cur

/-- The state between two entries. -/
structure Filling (j : Job) (s : Fill) : Prop where
  sp : -1 ≤ s.sp
  entries : ∀ i : Nat, (i : Int) ≤ s.sp → j.Comp (s.stk i).x.toInt (s.stk i).y.toInt
  seed : j.pix s.mem j.sx j.sy = j.cur → j.Waiting s.mem s.stk s.sp j.sx j.sy
  frontier : ∀ x y x' y', j.Comp x y → j.pix s.mem x y = j.new → Adjacent x y x' y' →
    j.Comp x' y' → j.pix s.mem x' y' = j.cur → j.Waiting s.mem s.stk s.sp x' y'

/-- A run of a column that has been painted from end to end. -/
structure RunPainted (j : Job) (m m' : Memory) (x top bot : Int) : Prop where
  painted : ∀ t, top ≤ t → t < bot → j.pix m' x t = j.new
  others : ∀ x' y', OnScreen j.fb x' y' → x' ≠ x ∨ y' < top ∨ bot ≤ y' →
    j.pix m' x' y' = j.pix m x' y'
  above : 0 ≤ top - 1 → j.pix m x (top - 1) ≠ j.cur
  under : bot < j.fb.ml.vdisp → j.pix m x bot ≠ j.cur

theorem RunPainted.not_cur {m' : Memory} {top bot : Int} (h : j.RunPainted m m' x top bot)
    (hcur : j.pix m' x' y' = j.cur) : x' ≠ x ∨ y' < top ∨ bot ≤ y' := by
  by_contra hin
  have hx : x' = x := by omega
  rw [hx, h.painted y' (by omega) (by omega)] at hcur
  exact new_ne_cur hcur

theorem RunPainted.cur_before {m' : Memory} {top bot : Int} (h : j.RunPainted m m' x top bot)
    (hon : OnScreen j.fb x' y') (hcur : j.pix m' x' y' = j.cur) : j.pix m x' y' = j.cur :=
  (h.others x' y' hon (h.not_cur hcur)).symm.trans hcur

/-- A run of the old colour that leaves the painted one at an end does not go into it. -/
theorem RunPainted.apart {m' : Memory} {top bot : Int} (h : j.RunPainted m m' x top bot)
    (lo hi : Int) (hlo : 0 ≤ lo) (hhi : hi < j.fb.ml.vdisp)
    (hrun : ∀ u, lo ≤ u → u ≤ hi → j.pix m x u = j.cur) {e u : Int} (he : lo ≤ e ∧ e ≤ hi)
    (hout : e < top ∨ bot ≤ e) (hu : lo ≤ u ∧ u ≤ hi) : u < top ∨ bot ≤ u := by
  by_contra hin
  rcases hout with hlt | hge
  · exact h.above (by omega) (hrun (top - 1) (by omega) (by omega))
  · exact h.under (by omega) (hrun bot (by omega) (by omega))

/-- A pixel that waits for an entry below the one taken off still does. -/
theorem RunPainted.waiting {m' : Memory} {top bot : Int} {stk stk' : Nat → Entry} {n sp : Nat}
    (h : j.RunPainted m m' x top bot) (hentries : ∀ i ≤ n, j.Comp (stk i).x.toInt (stk i).y.toInt)
    (hx : (stk n).x.toInt = x)
    (hend : j.pix m x (stk n).y.toInt = j.cur → top ≤ (stk n).y.toInt ∧ (stk n).y.toInt < bot)
    (hsp : n ≤ sp) (hstk : ∀ i < n, stk' i = stk i) (hon : OnScreen j.fb x' y')
    (hcur : j.pix m' x' y' = j.cur) (hwait : j.Waiting m stk n x' y') :
    j.Waiting m' stk' (sp - 1) x' y' := by
  rcases hwait with ⟨i, hi, hix, hrun⟩
  have hout := h.not_cur hcur
  have hey := (hentries i (by omega)).onScreen
  rcases Nat.lt_or_ge i n with hlt | hge
  · refine ⟨i, by omega, by rw [hstk i hlt]; exact hix, ?_⟩
    rw [hstk i hlt]
    intro u hlo hhi
    have hou : OnScreen j.fb x' u := by
      rcases hon with ⟨h0, h1, h2, h3⟩
      rcases hey with ⟨-, -, h4, h5⟩
      exact ⟨h0, h1, by omega, by omega⟩
    rw [h.others x' u hou ?_]
    · exact hrun u hlo hhi
    · by_cases hxx : x' = x
      · right
        refine h.apart (min (stk i).y.toInt y') (max (stk i).y.toInt y')
          ?_ ?_ (hxx ▸ hrun) (e := y') ⟨by omega, by omega⟩ (by omega) ⟨hlo, hhi⟩
        · have := hon.2.2.1
          have := hey.2.2.1
          omega
        · have := hon.2.2.2
          have := hey.2.2.2
          omega
      · exact Or.inl hxx
  · -- the entry taken off is in the painted run, if its run is not empty
    obtain rfl : i = n := by omega
    exfalso
    obtain rfl : x' = x := hix.symm.trans hx
    have hin := hend (hrun _ (by omega) (by omega))
    have hpart := h.apart (min (stk i).y.toInt y') (max (stk i).y.toInt y')
      (by have := hon.2.2.1; have := hey.2.2.1; omega)
      (by have := hon.2.2.2; have := hey.2.2.2; omega) hrun (e := y') ⟨by omega, by omega⟩
      (by omega) (u := (stk i).y.toInt) ⟨by omega, by omega⟩
    omega

/-- What is known between two entries, also when the stack overflows. -/
structure Working (j : Job) (s : Fill) : Prop where
  sound : j.Sound s.mem
  filling : s.abort = false → j.Filling s

/-- The column is done: the stack covers what is left beside it. -/
theorem Filling.next {s : Fill} {top : Int} {scan : Scan} (hfill : j.Filling s) (h : 0 ≤ s.sp)
    (hx : (s.stk s.sp.toNat).x.toInt = x)
    (hle : top ≤ (s.stk s.sp.toNat).y.toInt + 1)
    (hrun : ∀ t, top ≤ t → t ≤ (s.stk s.sp.toNat).y.toInt → j.pix s.mem x t = j.cur)
    (habove : 0 ≤ top - 1 → j.pix s.mem x (top - 1) ≠ j.cur) (h0 : 0 ≤ top)
    (hscan : j.Scanning s.mem s.stk s.sp.toNat x top scan)
    (hunder : scan.y < j.fb.ml.vdisp → j.pix scan.mem x scan.y ≠ j.cur) :
    j.Filling { mem := scan.mem, stk := scan.stk, sp := scan.sp - 1, abort := false } := by
  have hentry := hfill.entries s.sp.toNat (by omega)
  rw [hx] at hentry
  have hxs := hentry.onScreen
  have hpainted : j.RunPainted s.mem scan.mem x top scan.y :=
    { painted := fun t ht ht' => (hscan.painted t ht ht').2.2
      others := hscan.others
      above := habove
      under := fun hv => by
        rw [← hscan.others x scan.y ⟨hxs.1, hxs.2.1, le_trans h0 hscan.top_le, hv⟩
          (Or.inr (Or.inr (le_refl _)))]
        exact hunder hv }
  have hwait : ∀ x' y', OnScreen j.fb x' y' → j.pix scan.mem x' y' = j.cur →
      j.Waiting s.mem s.stk s.sp x' y' → j.Waiting scan.mem scan.stk (scan.sp - 1) x' y' := by
    intro x' y' hon hcur hw
    refine hpainted.waiting (n := s.sp.toNat) (fun i hi => hfill.entries i (by omega)) hx ?_
      hscan.sp hscan.below hon hcur ?_
    · intro hcur'
      have hlow : top ≤ (s.stk s.sp.toNat).y.toInt := by
        by_contra hgt
        refine habove ?_ ?_
        · have := hxs.2.2.1
          omega
        · rwa [show top - 1 = (s.stk s.sp.toNat).y.toInt by omega]
      refine ⟨hlow, ?_⟩
      by_contra hge
      refine hpainted.under ?_ (hrun scan.y hscan.top_le (by omega))
      have := hxs.2.2.2
      omega
    · rwa [Int.toNat_of_nonneg h]
  constructor
  · change -1 ≤ (scan.sp : Int) - 1
    omega
  · intro i hi
    change (i : Int) ≤ scan.sp - 1 at hi
    rcases Nat.lt_or_ge i s.sp.toNat with hlt | hge
    · simp only [hscan.below i hlt]
      exact hfill.entries i (by omega)
    · exact hscan.pushed i hge (by omega)
  · intro hcur
    have hon := hentry.seed_onScreen
    exact hwait _ _ hon hcur (hfill.seed (hpainted.cur_before hon hcur))
  · intro u v u' v' huv hnew hadj huv' hcur
    have hcur' := hpainted.cur_before huv'.onScreen hcur
    by_cases hold : j.pix s.mem u v = j.new
    · exact hwait _ _ huv'.onScreen hcur (hfill.frontier u v u' v' huv hold hadj huv' hcur')
    · have hin : ¬(u ≠ x ∨ v < top ∨ scan.y ≤ v) := fun hout =>
        hold ((hpainted.others u v huv.onScreen hout).symm.trans hnew)
      have hout := hpainted.not_cur hcur
      have hside : u' ≠ x → j.Waiting scan.mem scan.stk (scan.sp - 1) u' v' := by
        intro hne
        have hcover : ∃ i, s.sp.toNat ≤ i ∧ i < scan.sp ∧ (scan.stk i).x.toInt = u' ∧
            (scan.stk i).y.toInt ≤ v' ∧
            ∀ w, (scan.stk i).y.toInt ≤ w → w ≤ v' → j.pix s.mem u' w = j.cur := by
          rcases hadj with ⟨hu, -⟩ | ⟨hv, hu | hu⟩
          · omega
          · obtain rfl : u' = x - 1 := by omega
            exact hscan.left v' (by omega) (by omega) huv'.onScreen hcur'
          · obtain rfl : u' = x + 1 := by omega
            exact hscan.right v' (by omega) (by omega) huv'.onScreen hcur'
        rcases hcover with ⟨i, hni, hi, hex, hey, hw⟩
        have hpush := (hscan.pushed i hni hi).onScreen
        refine ⟨i, by omega, hex, fun w hlo hhi => ?_⟩
        rw [hpainted.others u' w ?_ (Or.inl hne)]
        · exact hw w (by omega) (by omega)
        · have hon := huv'.onScreen
          exact ⟨hon.1, hon.2.1, by have := hpush.2.2.1; omega, by have := hon.2.2.2; omega⟩
      by_cases hne : u' = x
      · -- in the column itself the run has been painted to its ends
        exfalso
        have hv' : v' = top - 1 ∨ v' = scan.y := by
          rcases hadj with ⟨-, hv | hv⟩ | ⟨-, hu⟩ <;> omega
        have hon := huv'.onScreen
        rw [hne] at hcur'
        rcases hv' with rfl | rfl
        · exact habove hon.2.2.1 hcur'
        · exact hpainted.under hon.2.2.2 hcur'
      · exact hside hne

/-- One entry of the stack. -/
theorem Working.fillBody {s : Fill} (h : j.Working s) (ht : fillTest s = true) :
    j.Working (fillBody j.acc j.fb j.cur j.color s) ∧
      ((fillBody j.acc j.fb j.cur j.color s).abort = false →
        3 * countColor j.acc j.fb j.cur (fillBody j.acc j.fb j.cur j.color s).mem +
            ((fillBody j.acc j.fb j.cur j.color s).sp + 1).toNat <
          3 * countColor j.acc j.fb j.cur s.mem + (s.sp + 1).toNat) := by
  simp only [fillTest, Bool.and_eq_true, Bool.not_eq_true', decide_eq_true_eq] at ht
  rcases ht with ⟨habort, hsp⟩
  have hfill := h.filling habort
  have hentry := hfill.entries s.sp.toNat (by omega)
  obtain ⟨x, hx⟩ : ∃ x, (s.stk s.sp.toNat).x.toInt = x := ⟨_, rfl⟩
  rw [hx] at hentry
  have hon := hentry.onScreen
  rcases @scan_up j.acc j.fb s.mem x _ j.cur hon.2.2.2 hon.2.2.1 with
    ⟨top, htop, h0, hle, hrun, habove⟩
  obtain ⟨scan₀, hscan₀⟩ : ∃ scan₀ : Scan,
      { mem := s.mem, stk := s.stk, sp := s.sp.toNat, y := top, l := false, r := false,
        abort := false } = scan₀ := ⟨_, rfl⟩
  have hstart : j.Going s.mem s.stk s.sp.toNat x top scan₀ := by
    subst hscan₀
    refine ⟨h.sound, fun _ => ?_⟩
    exact
      { top_le := le_refl _
        painted := fun t ht ht' => absurd ht' (not_lt.2 ht)
        others := fun _ _ _ _ => rfl
        below := fun _ _ => rfl
        sp := le_refl _
        pushed := fun i hi hi' => absurd hi' (not_lt.2 hi)
        left := fun t ht ht' => absurd ht' (not_lt.2 ht)
        right := fun t ht ht' => absurd ht' (not_lt.2 ht)
        leftFlag := fun hl => absurd hl (by simp)
        rightFlag := fun hr => absurd hr (by simp)
        room := le_refl _ }
  obtain ⟨hgoing, hend⟩ := scan_down hstart ⟨hon.1, hon.2.1⟩ h0
    (fun hon' hcur => h.sound.outside.top_comp hentry h0 hle hrun hon' hcur) (by rw [← hscan₀]; exact h0)
  obtain ⟨scan, hscan⟩ : ∃ scan, Loop.passes (downTest j.acc j.fb j.cur x)
    (downBody j.acc j.fb j.cur j.color x) (j.fb.ml.vdisp + 1) scan₀ = scan := ⟨_, rfl⟩
  rw [hscan] at hgoing hend
  have hbody : Fb.fillBody j.acc j.fb j.cur j.color s =
      { mem := scan.mem, stk := scan.stk, sp := scan.sp - 1, abort := scan.abort } := by
    rw [Fb.fillBody]
    simp only [hx, htop, hscan₀, hscan]
  rw [hbody]
  refine ⟨⟨hgoing.sound, fun hab => ?_⟩, fun hab => ?_⟩
  · change scan.abort = false at hab
    rw [hab]
    refine hfill.next hsp hx hle hrun habove h0 (hgoing.scanning hab) ?_
    intro hv hcur
    have hpix : pixel j.acc j.fb scan.mem x scan.y = j.cur := hcur
    simp [downTest, hab, hv, hpix] at hend
  · have hroom := (hgoing.scanning hab).room
    change 3 * countColor j.acc j.fb j.cur scan.mem + ((scan.sp : Int) - 1 + 1).toNat < _
    omega

/-- The stack is worked off, or overflows. -/
theorem fill_end {s : Fill} (h : j.Working s) :
    ∃ N, ∀ n, N ≤ n →
      j.Working (Loop.passes fillTest (fillBody j.acc j.fb j.cur j.color) n s) ∧
      fillTest (Loop.passes fillTest (fillBody j.acc j.fb j.cur j.color) n s) = false := by
  refine ⟨3 * countColor j.acc j.fb j.cur s.mem + (s.sp + 1).toNat, fun n hn => ?_⟩
  refine Loop.passes_end j.Working
    (fun s => if s.abort then 0 else 3 * countColor j.acc j.fb j.cur s.mem + (s.sp + 1).toNat)
    ?_ n s h ?_
  · intro s hs ht
    rcases hs.fillBody ht with ⟨hworking, hless⟩
    refine ⟨hworking, ?_⟩
    simp only [fillTest, Bool.and_eq_true, Bool.not_eq_true', decide_eq_true_eq] at ht
    rw [ht.1]
    cases hab : (fillBody j.acc j.fb j.cur j.color s).abort with
    | true =>
        simp only [if_true, Bool.false_eq_true, if_false]
        omega
    | false =>
        simp only [Bool.false_eq_true, if_false]
        exact hless hab
  · split
    · omega
    · exact hn

/-- With an empty stack the whole component is painted. -/
theorem Filling.all_painted {s : Fill} (h : j.Filling s) (hs : j.Sound s.mem) (hsp : s.sp < 0)
    (hxy : j.Comp x y) : j.pix s.mem x y = j.new := by
  have hnone : ∀ u v, ¬j.Waiting s.mem s.stk s.sp u v := by
    rintro u v ⟨i, hi, -⟩
    omega
  induction hxy with
  | seed hon =>
      rcases hs.inside j.sx j.sy (Component.seed hon) with hcur | hnew
      · exact absurd (h.seed hcur) (hnone _ _)
      · exact hnew
  | @step u v u' v' huv hadj hon hcur ih =>
      have hcomp : j.Comp u' v' := Component.step huv hadj hon hcur
      rcases hs.inside u' v' hcomp with hold | hnew
      · exact absurd (h.frontier u v u' v' huv ih hadj hcomp hold) (hnone _ _)
      · exact hnew

/-- The first entry of the stack. -/
theorem working_start (hon : OnScreen j.fb j.sx j.sy) :
    j.Working
      { mem := j.start
        stk := fun _ => ⟨BitVec.ofInt 16 j.sx, BitVec.ofInt 16 j.sy⟩
        sp := 0
        abort := false } := by
  rcases hon.toInt_entry with ⟨hx, hy⟩
  refine ⟨sound_start, fun _ => ?_⟩
  constructor
  · change (-1 : Int) ≤ 0
    omega
  · intro i _
    simp only [hx, hy]
    exact Component.seed hon
  · intro hcur
    refine ⟨0, le_refl _, hx, fun u hlo hhi => ?_⟩
    simp only [hy, min_self, max_self] at hlo hhi
    rw [le_antisymm hhi hlo]
    exact hcur
  · intro u v u' v' huv hnew
    -- nothing has been painted yet
    exact absurd (hnew.symm.trans huv.cur) new_ne_cur

end Job

section Result

/-- The pixels of a screen as `fb_fill` sees them. -/
def Screen.access (fb : Screen) : Access := if fb.bpp = 16 then access16 else access8

theorem Screen.access_lawful (fb : Screen) : fb.access.Lawful := by
  rw [Screen.access]
  split
  · exact access16_lawful
  · exact access8_lawful

theorem Screen.access_width {fb : Screen} (h : fb.bpp = 8 ∨ fb.bpp = 16) :
    fb.access.width = fb.bpp := by
  rcases h with h | h <;> simp [Screen.access, h, access8, access16]

theorem fbFill_on {fb : Screen} {x y : CInt} (n : Nat) (sb : Bool) (color : CInt) (m : Memory)
    (hdepth : fb.bpp ≠ 0) (hon : OnScreen fb x.toInt y.toInt) :
    fbFill fb n sb x y color m = fillPixels fb.access fb n sb x.toInt y.toInt color m := by
  have hoff : offScreen fb x y = false := by
    rw [offScreen_eq]
    simpa using hon
  rw [fbFill, Screen.access]
  by_cases h16 : fb.bpp = 16
  · simp [hoff, h16]
  · simp [hdepth, hoff, h16]

theorem sp_of_fillTest {s : Fill} (hend : fillTest s = false) (hab : s.abort = false) :
    s.sp < 0 := by
  simpa [fillTest, hab] using hend

theorem fillPixels_return {acc : Access} {fb : Screen} {sb : Bool} {x y : Int} {color : CInt}
    {m : Memory} {n : Nat} (h : ((pixel acc fb m x y : Int) = color.toInt || !sb) = true) :
    fillPixels acc fb n sb x y color m =
      { mem := m
        stk := fun _ => ⟨BitVec.ofInt 16 x, BitVec.ofInt 16 y⟩
        sp := -1
        abort := false } := by
  unfold fillPixels
  exact if_pos h

theorem fillPixels_run {acc : Access} {fb : Screen} {sb : Bool} {x y : Int} {color : CInt}
    {m : Memory} {n : Nat} (h : ¬((pixel acc fb m x y : Int) = color.toInt || !sb) = true) :
    fillPixels acc fb n sb x y color m =
      Loop.passes fillTest (fillBody acc fb (pixel acc fb m x y) color) n
        { mem := m
          stk := fun _ => ⟨BitVec.ofInt 16 x, BitVec.ofInt 16 y⟩
          sp := 0
          abort := false } := by
  unfold fillPixels
  exact if_neg h

end Result

end Fb
end F32c
