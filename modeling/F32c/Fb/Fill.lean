import F32c.Fb.Screen
import Mathlib.Tactic

/-!
# Flood fill

`fb_fill` recolours the area of one colour around a seed.  It takes a point off a
stack, goes up its column to the end of the run of the old colour, and comes down
again, painting; wherever a run of the old colour begins in a neighbouring
column, it puts a point of it on the stack.  The stack has 4096 entries of two
16 bit coordinates, and the fill is given up when it is full.

`fb_fill_8` and `fb_fill_16` differ in the type of a pixel only, which is a
parameter here.  The coordinates stay within a line of the screen, so they are
integers without a bound.
-/

namespace F32c
namespace Fb

section Access

/-- An array of pixels: what `fb8[i]` or `fb16[i]` reads, and an assignment to it. -/
structure Access where
  width : Nat
  read : Memory → Int → Nat
  write : Memory → Int → CInt → Memory

/-- `fb8` -/
def access8 : Access :=
  { width := 8
    read := fun m i => (m i).toNat
    write := fun m i color => storeBytes m i 1 color }

/-- `fb16` -/
def access16 : Access :=
  { width := 16
    read := fun m i => (m (2 * i + 1) ++ m (2 * i)).toNat
    write := fun m i color => storeBytes m (2 * i) 2 color }

/-- An assignment sets its pixel to the low bits of the colour and no other pixel. -/
structure Access.Lawful (acc : Access) : Prop where
  read_write : ∀ m i color, acc.read (acc.write m i color) i = color.toNat % 2 ^ acc.width
  read_write_ne : ∀ m i j color, i ≠ j → acc.read (acc.write m i color) j = acc.read m j
  determines : ∀ m m', (∀ i, acc.read m i = acc.read m' i) → m = m'

theorem access8_lawful : access8.Lawful := by
  constructor
  · intro m i color
    simp only [access8, storeBytes]
    rw [if_pos (by omega), sub_self, Int.toNat_zero, BitVec.extractLsb'_toNat]
    simp
  · intro m i j color h
    simp only [access8, storeBytes]
    rw [if_neg (by push_cast; omega)]
  · intro m m' h
    funext i
    exact BitVec.eq_of_toNat_eq (h i)

theorem access16_lawful : access16.Lawful := by
  constructor
  · intro m i color
    simp only [access16, storeBytes]
    rw [if_pos (by push_cast; omega), if_pos (by push_cast; omega)]
    have happend : ((BitVec.extractLsb' (8 * (2 * i + 1 - 2 * i).toNat) 8 color) ++
        BitVec.extractLsb' (8 * (2 * i - 2 * i).toNat) 8 color : BitVec 16) =
        color.setWidth 16 := by
      apply BitVec.eq_of_getLsbD_eq
      intro j hj
      rw [show (2 * i + 1 - 2 * i).toNat = 1 by omega, show (2 * i - 2 * i).toNat = 0 by omega,
        BitVec.getLsbD_append]
      by_cases h : j < 8
      · simp [h, show j < 16 by omega]
      · simp [h, show j - 8 < 8 by omega, show j < 16 by omega, show 8 + (j - 8) = j by omega]
    rw [happend, BitVec.toNat_setWidth]
  · intro m i j color h
    simp only [access16, storeBytes]
    rw [if_neg (by push_cast; omega), if_neg (by push_cast; omega)]
  · intro m m' h
    funext b
    have hpair : m (2 * (b / 2) + 1) ++ m (2 * (b / 2)) = m' (2 * (b / 2) + 1) ++ m' (2 * (b / 2)) :=
      BitVec.eq_of_toNat_eq (h (b / 2))
    apply BitVec.eq_of_getLsbD_eq
    intro j hj
    rcases Int.emod_two_eq_zero_or_one b with heven | hodd
    · have hbit := congrArg (fun v : BitVec (8 + 8) => v.getLsbD j) hpair
      simp only [BitVec.getLsbD_append, hj, if_true] at hbit
      rwa [show 2 * (b / 2) = b by omega] at hbit
    · have hbit := congrArg (fun v : BitVec (8 + 8) => v.getLsbD (j + 8)) hpair
      simp only [BitVec.getLsbD_append, show ¬j + 8 < 8 by omega, if_false,
        Nat.add_sub_cancel] at hbit
      rwa [show 2 * (b / 2) + 1 = b by omega] at hbit

end Access

section Model

/-- An entry of the stack. -/
structure Entry where
  x : BitVec 16
  y : BitVec 16
deriving DecidableEq, Repr, Inhabited

/-- `ssiz` -/
def stackSize : Nat := 4096

/-- The variables while a column is painted.  `sp` is the number of the entry that the stack
pointer is at; `abort` is set where the source jumps to `abort`. -/
structure Scan where
  mem : Memory
  stk : Nat → Entry
  sp : Nat
  y : Int
  l : Bool
  r : Bool
  abort : Bool

variable (acc : Access) (fb : Screen)

/-- `fb8[y * fb_hdisp + x]` -/
def pixel (m : Memory) (x y : Int) : Nat := acc.read m (y * fb.ml.hdisp + x)

def Scan.push (s : Scan) (x y : Int) : Scan :=
  { s with
    stk := Function.update s.stk s.sp ⟨BitVec.ofInt 16 x, BitVec.ofInt 16 y⟩
    sp := s.sp + 1
    abort := decide (s.sp + 1 = stackSize) }

/-- The look at the pixel `x` of a neighbouring column, which is `inside` the screen: the start
of a run is put on the stack.  The flag says whether a run is being followed. -/
def look (curcolor : Nat) (inside : Bool) (x : Int) (flag : Bool) (s : Scan) : Scan × Bool :=
  if !flag && inside && pixel acc fb s.mem x s.y == curcolor then (s.push x s.y, true)
  else if flag && inside && pixel acc fb s.mem x s.y != curcolor then (s, false)
  else (s, flag)

def downTest (curcolor : Nat) (x : Int) (s : Scan) : Bool :=
  !s.abort && decide (s.y < fb.ml.vdisp) && pixel acc fb s.mem x s.y == curcolor

/-- One pixel painted on the way down. -/
def downBody (curcolor : Nat) (color : CInt) (x : Int) (s : Scan) : Scan :=
  let s := { s with mem := acc.write s.mem (s.y * fb.ml.hdisp + x) color }
  let (s, l) := look acc fb curcolor (decide (0 < x)) (x - 1) s.l s
  let s := { s with l := l }
  if s.abort then s
  else
    let (s, r) := look acc fb curcolor (decide (x < fb.ml.hdisp - 1)) (x + 1) s.r s
    let s := { s with r := r }
    if s.abort then s else { s with y := s.y + 1 }

def upTest (m : Memory) (curcolor : Nat) (x : Int) (y : Int) : Bool :=
  decide (0 ≤ y) && pixel acc fb m x y == curcolor

/-- The variables of the outer loop. -/
structure Fill where
  mem : Memory
  stk : Nat → Entry
  sp : Int
  abort : Bool

def fillTest (s : Fill) : Bool := !s.abort && decide (0 ≤ s.sp)

/-- One entry taken off the stack.  Neither way along a column has more steps than the screen
has lines. -/
def fillBody (curcolor : Nat) (color : CInt) (s : Fill) : Fill :=
  let x := (s.stk s.sp.toNat).x.toInt
  let y := (s.stk s.sp.toNat).y.toInt
  let y := Loop.passes (upTest acc fb s.mem curcolor x) (· - 1) (fb.ml.vdisp + 1) y
  let scan := Loop.passes (downTest acc fb curcolor x) (downBody acc fb curcolor color x)
    (fb.ml.vdisp + 1)
    { mem := s.mem, stk := s.stk, sp := s.sp.toNat, y := y + 1, l := false, r := false,
      abort := false }
  { mem := scan.mem, stk := scan.stk, sp := scan.sp - 1, abort := scan.abort }

/-- `fb_fill_8` and `fb_fill_16`, after at most `n` entries; `sb` says whether `malloc` gave
the stack. -/
def fillPixels (n : Nat) (sb : Bool) (x y : Int) (color : CInt) (m : Memory) : Fill :=
  let curcolor := pixel acc fb m x y
  let start : Fill :=
    { mem := m
      stk := fun _ => ⟨BitVec.ofInt 16 x, BitVec.ofInt 16 y⟩
      sp := 0
      abort := false }
  if (curcolor : Int) = color.toInt || !sb then { start with sp := -1 }
  else Loop.passes fillTest (fillBody acc fb curcolor color) n start

/-- `fb_fill` -/
def fbFill (n : Nat) (sb : Bool) (x y color : CInt) (m : Memory) : Fill :=
  if fb.bpp = 0 || offScreen fb x y then
    { mem := m, stk := fun _ => default, sp := -1, abort := false }
  else if fb.bpp = 16 then fillPixels access16 fb n sb x.toInt y.toInt color m
  else fillPixels access8 fb n sb x.toInt y.toInt color m

end Model

end Fb
end F32c
