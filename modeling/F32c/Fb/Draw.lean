import F32c.Loop
import Mathlib.Tactic

/-!
# The framebuffer library

The drawing primitives of `dev/fb.c`.  A primitive is the list of the stores it
makes into the framebuffer, in order; a store is a call of the plot function of
the colour depth, a `memset`, or an assignment to a halfword or to a word.  The
bytes of the memory are numbered from `fb_active` on, so the framebuffer is the
bytes from zero to its size and every other number is a byte outside.

An `int` is a word of 32 bits, and its arithmetic wraps.  The memory is
little-endian.
-/

namespace F32c
namespace Fb

abbrev Byte := BitVec 8
abbrev CInt := BitVec 32
abbrev Memory := Int → Byte

/-- The colour depths, `FB_BPP_1` to `FB_BPP_24`. -/
inductive Depth where
  | bpp1
  | bpp2
  | bpp4
  | bpp8
  | bpp16
  | bpp24
deriving DecidableEq, Repr, Inhabited

/-- `fb_bpp` for a depth; a pixel of `FB_BPP_24` takes a word. -/
def Depth.bits : Depth → Nat
  | .bpp1 => 1
  | .bpp2 => 2
  | .bpp4 => 4
  | .bpp8 => 8
  | .bpp16 => 16
  | .bpp24 => 32

/-- The resolution of a mode.  The display keeps it in registers of 12 and 11 bits. -/
structure Modeline where
  hdisp : Nat
  vdisp : Nat
  hdisp_le : hdisp ≤ 2 ^ 15
  vdisp_le : vdisp ≤ 2 ^ 15

/-- The variables of the library.  `depth` is `fb_bpp_code` and `fb_bpp`, with no depth
while the video is off; `plotfn` is the function in `fb_plotfn_off`. -/
structure Screen where
  ml : Modeline
  depth : Option Depth
  plotfn : Depth
  installed : ∀ d, depth = some d → plotfn = d

namespace Screen

variable (fb : Screen)

/-- `fb_hdisp` as an `int`. -/
def hdisp : CInt := BitVec.ofNat 32 fb.ml.hdisp

/-- `fb_vdisp` as an `int`. -/
def vdisp : CInt := BitVec.ofNat 32 fb.ml.vdisp

def bpp : Nat := (fb.depth.map Depth.bits).getD 0

/-- `fb_hdisp * fb_vdisp * fb_bpp / 8` -/
def size : Nat := fb.ml.hdisp * fb.ml.vdisp * fb.bpp / 8

/-- Before the first mode is set there is no pixel on the screen. -/
def initial : Screen :=
  { ml := ⟨0, 0, by omega, by omega⟩
    depth := none
    plotfn := default
    installed := by simp }

/-- `fb_set_mode`: turning the video off keeps the resolution and the plot function. -/
def setMode (ml : Modeline) (depth : Option Depth) (doublepix : Bool) : Screen :=
  match depth with
  | none => { ml := fb.ml, depth := none, plotfn := fb.plotfn, installed := by simp }
  | some d =>
      { ml :=
          { hdisp := ml.hdisp >>> doublepix.toNat
            vdisp := ml.vdisp >>> doublepix.toNat
            hdisp_le := le_trans (Nat.shiftRight_le ..) ml.hdisp_le
            vdisp_le := le_trans (Nat.shiftRight_le ..) ml.vdisp_le }
        depth := some d
        plotfn := d
        installed := by simp }

end Screen

section Screens

/-- A screen of 4 by 2 pixels of 8 bits. -/
def fourByTwo : Screen :=
  { ml := ⟨4, 2, by decide, by decide⟩
    depth := some .bpp8
    plotfn := .bpp8
    installed := by simp }

/-- A screen of 16 by 2 pixels of one bit. -/
def smallScreen : Screen :=
  { ml := ⟨16, 2, by decide, by decide⟩
    depth := some .bpp1
    plotfn := .bpp1
    installed := by simp }

/-- A screen of 8 by 4 pixels of one bit, one word in all. -/
def eightByFour : Screen :=
  { ml := ⟨8, 4, by decide, by decide⟩
    depth := some .bpp1
    plotfn := .bpp1
    installed := by simp }

/-- The resolution of `FB_MODE_640x480` with a byte for a pixel. -/
def vga : Screen :=
  { ml := ⟨640, 480, by decide, by decide⟩
    depth := some .bpp8
    plotfn := .bpp8
    installed := by simp }

/-- A screen of 12 by 10 pixels of one bit: a row is a byte and a half. -/
def halfByteScreen : Screen :=
  { ml := ⟨12, 10, by decide, by decide⟩
    depth := some .bpp1
    plotfn := .bpp1
    installed := by simp }

/-- A screen of two pixels of a byte. -/
def twoPixels : Screen :=
  { ml := ⟨2, 1, by decide, by decide⟩
    depth := some .bpp8
    plotfn := .bpp8
    installed := by simp }

end Screens

section Memory

/-- The word at a byte number. -/
def loadWord (m : Memory) (a : Int) : BitVec 32 := m (a + 3) ++ m (a + 2) ++ m (a + 1) ++ m a

/-- The first `n` bytes of a value, stored from a byte number on. -/
def storeBytes (m : Memory) (a : Int) (n : Nat) {w : Nat} (v : BitVec w) : Memory :=
  fun b => if a ≤ b ∧ b < a + n then v.extractLsb' (8 * (b - a).toNat) 8 else m b

def storeWord (m : Memory) (a : Int) (v : BitVec 32) : Memory := storeBytes m a 4 v

/-- `memset`, the bytes from `a` on. -/
def memset (m : Memory) (a : Int) (c : Byte) (len : Nat) : Memory :=
  fun b => if a ≤ b ∧ b < a + len then c else m b

/-- The byte number of `dp32[off >> s]`. -/
def wordAt (off : CInt) (s : Nat) : Int := 4 * (off.sshiftRight s).toInt

def plotBpp1 (m : Memory) (off color : CInt) : Memory :=
  let shift := off &&& 0x1f#32
  let mask := 0x1#32 <<< shift
  let a := wordAt off 5
  storeWord m a ((loadWord m a &&& ~~~mask) ||| ((color &&& 0x1#32) <<< shift))

def plotBpp2 (m : Memory) (off color : CInt) : Memory :=
  let shift := (off &&& 0xf#32) * 2#32
  let mask := 0x3#32 <<< shift
  let a := wordAt off 4
  storeWord m a ((loadWord m a &&& ~~~mask) ||| ((color &&& 0x3#32) <<< shift))

def plotBpp4 (m : Memory) (off color : CInt) : Memory :=
  let a := wordAt off 3
  let shift := off <<< 2 &&& 0x1f#32
  let mask := 0xf#32 <<< shift
  storeWord m a ((color &&& 0xf#32) <<< shift ||| (loadWord m a &&& ~~~mask))

def plotBpp8 (m : Memory) (off color : CInt) : Memory := storeBytes m off.toInt 1 color

def plotBpp16 (m : Memory) (off color : CInt) : Memory := storeBytes m (2 * off.toInt) 2 color

def plotBpp24 (m : Memory) (off color : CInt) : Memory := storeBytes m (4 * off.toInt) 4 color

/-- The function `fb_set_mode` puts into `fb_plotfn_off`. -/
def Depth.plot : Depth → Memory → CInt → CInt → Memory
  | .bpp1 => plotBpp1
  | .bpp2 => plotBpp2
  | .bpp4 => plotBpp4
  | .bpp8 => plotBpp8
  | .bpp16 => plotBpp16
  | .bpp24 => plotBpp24

/-- The bytes a plot function writes: the first one and how many. -/
def Depth.plotBytes : Depth → CInt → Int × Nat
  | .bpp1, off => (wordAt off 5, 4)
  | .bpp2, off => (wordAt off 4, 4)
  | .bpp4, off => (wordAt off 3, 4)
  | .bpp8, off => (off.toInt, 1)
  | .bpp16, off => (2 * off.toInt, 2)
  | .bpp24, off => (4 * off.toInt, 4)

end Memory

section Stores

/-- One store into the framebuffer. -/
inductive Store where
  /-- `fb_plotfn_off(fb_active, off, color)` -/
  | plot (off color : CInt)
  /-- `memset(&fb_active[i], color, len)` -/
  | memset (i : CInt) (color : CInt) (len : CInt)
  /-- `fb16[i] = color` -/
  | half (i color : CInt)
  /-- `*((int *) &fb16[i]) = color` -/
  | pair (i color : CInt)
  /-- `fb32[i] = color` -/
  | word (i color : CInt)
deriving DecidableEq, Repr

/-- The bytes a store writes: the first one and how many. -/
def Store.bytes (fb : Screen) : Store → Int × Nat
  | .plot off _ => fb.plotfn.plotBytes off
  | .memset i _ len => (i.toInt, len.toNat)
  | .half i _ => (2 * i.toInt, 2)
  | .pair i _ => (2 * i.toInt, 4)
  | .word i _ => (4 * i.toInt, 4)

def Store.run (fb : Screen) (m : Memory) : Store → Memory
  | .plot off color => fb.plotfn.plot m off color
  | .memset i color len => Fb.memset m i.toInt (color.setWidth 8) len.toNat
  | .half i color => storeBytes m (2 * i.toInt) 2 color
  | .pair i color => storeBytes m (2 * i.toInt) 4 color
  | .word i color => storeBytes m (4 * i.toInt) 4 color

def runStores (fb : Screen) (stores : List Store) (m : Memory) : Memory :=
  stores.foldl (Store.run fb) m

end Stores

section Primitives

variable (fb : Screen)

def plotUnbounded (x y color : CInt) : List Store := [.plot (y * fb.hdisp + x) color]

/-- The test with which `fb_plot` returns. -/
def offScreen (x y : CInt) : Bool :=
  y.slt 0 || fb.vdisp.sle y || x.slt 0 || fb.hdisp.sle x

def fbPlot (x y color : CInt) : List Store :=
  if offScreen fb x y then [] else plotUnbounded fb x y color

/-- The values of a loop `for (v = lo; v <= hi; v++)`. -/
def upTo (lo hi : CInt) : List CInt :=
  (List.range (hi.toInt - lo.toInt + 1).toNat).map fun k => lo + BitVec.ofNat 32 k

/-- How often `for (; l >= n; l -= n)` runs. -/
def passCount (l : CInt) (n : Nat) : Nat := (l.toInt / n).toNat

/-- The corners of a rectangle in order and cut to the screen. -/
structure Clip where
  x0 : CInt
  y0 : CInt
  x1 : CInt
  y1 : CInt

def clip (x0 y0 x1 y1 : CInt) : Clip :=
  let (x0, x1) := if x1.slt x0 then (x1, x0) else (x0, x1)
  let (y0, y1) := if y1.slt y0 then (y1, y0) else (y0, y1)
  { x0 := if x0.slt 0 then 0 else x0
    y0 := if y0.slt 0 then 0 else y0
    x1 := if fb.hdisp.sle x1 then fb.hdisp - 1 else x1
    y1 := if fb.vdisp.sle y1 then fb.vdisp - 1 else y1 }

/-- The rows at 8 bits a pixel; `i` moves on by a line for each. -/
def rectangle8 (r : Clip) (color : CInt) : List Store :=
  let l := r.x1 - r.x0 + 1
  let i := r.y0 * fb.hdisp + r.x0
  (upTo r.y0 r.y1).map fun y => .memset (i + (y - r.y0) * fb.hdisp) color l

/-- The words of two pixels at the end of a row, and a halfword for an odd last pixel. -/
def rowPairs (i l color : CInt) : List Store :=
  let n := passCount l 2
  let pairs := (List.range n).map fun k => Store.pair (i + 2 * BitVec.ofNat 32 k) color
  let i := i + 2 * BitVec.ofNat 32 n
  let l := l - 2 * BitVec.ofNat 32 n
  pairs ++ if l ≠ 0 then [.half i color] else []

/-- The passes of eight pixels, and the rest of the row. -/
def rowEights (i l color : CInt) : List Store :=
  let n := passCount l 8
  let eights := (List.range n).flatMap fun k =>
    let i := i + 8 * BitVec.ofNat 32 k
    [Store.pair (i + 0) color, .pair (i + 2) color, .pair (i + 4) color, .pair (i + 6) color]
  eights ++ rowPairs (i + 8 * BitVec.ofNat 32 n) (l - 8 * BitVec.ofNat 32 n) color

/-- A row at 16 bits a pixel from pixel `i` on, with a halfword for an odd first pixel. -/
def row16 (i l color : CInt) : List Store :=
  if i &&& 1#32 ≠ 0 then .half i color :: rowEights (i + 1) (l - 1) color
  else rowEights i l color

def rectangle16 (r : Clip) (color : CInt) : List Store :=
  let color := color <<< 16 ||| (color &&& 0xffff#32)
  (upTo r.y0 r.y1).flatMap fun y => row16 (y * fb.hdisp + r.x0) (r.x1 - r.x0 + 1) color

/-- A row of words, four a pass and then one. -/
def row24 (i l color : CInt) : List Store :=
  let n := passCount l 4
  let fours := (List.range n).flatMap fun k =>
    let i := i + 4 * BitVec.ofNat 32 k
    [Store.word (i + 0) color, .word (i + 1) color, .word (i + 2) color, .word (i + 3) color]
  let i := i + 4 * BitVec.ofNat 32 n
  let l := l - 4 * BitVec.ofNat 32 n
  let ones := (List.range (passCount l 1)).map fun k => Store.word (i + BitVec.ofNat 32 k) color
  fours ++ ones

def rectangle24 (r : Clip) (color : CInt) : List Store :=
  (upTo r.y0 r.y1).flatMap fun y => row24 (y * fb.hdisp + r.x0) (r.x1 - r.x0 + 1) color

/-- The colour copied over the pixels of a byte, one fall-through case after the other. -/
def replicate (depth : Option Depth) (color : CInt) : CInt :=
  let color := if depth = some .bpp1 then color <<< 1 ||| (color &&& 0x1#32) else color
  let color :=
    if depth = some .bpp1 ∨ depth = some .bpp2 then color <<< 2 ||| (color &&& 0x3#32) else color
  if depth = some .bpp1 ∨ depth = some .bpp2 ∨ depth = some .bpp4 then
    color <<< 4 ||| (color &&& 0xf#32)
  else color

def packShift : Nat := if fb.bpp = 1 then 3 else if fb.bpp = 2 then 2 else 1

/-- A row of packed pixels: single pixels up to a byte boundary, whole bytes, and the
pixels that are left. -/
def rowPacked (x0 x1 y color : CInt) : List Store :=
  let shift := packShift fb
  let stride : CInt := 1#32 <<< shift
  let head := ((List.range 8).map fun k => x0 + BitVec.ofNat 32 k).takeWhile fun x =>
    x.sle x1 && (x &&& (stride - 1)) != 0
  let x := x0 + BitVec.ofNat 32 head.length
  let l := (x1 - x + 1) &&& ~~~(stride - 1)
  let i := (y * fb.hdisp + x).sshiftRight shift
  head.flatMap (fun x => plotUnbounded fb x y color) ++
    [.memset i color (l.sshiftRight shift)] ++
    (upTo (x + l) x1).flatMap fun x => plotUnbounded fb x y color

def rectanglePacked (r : Clip) (color : CInt) : List Store :=
  let color := replicate fb.depth color
  (upTo r.y0 r.y1).flatMap fun y => rowPacked fb r.x0 r.x1 y color

def fbRectangle (x0 y0 x1 y1 color : CInt) : List Store :=
  let r := clip fb x0 y0 x1 y1
  match fb.depth with
  | some .bpp8 => rectangle8 fb r color
  | some .bpp16 => rectangle16 fb r color
  | some .bpp24 => rectangle24 fb r color
  | _ => rectanglePacked fb r color

/-- `ABS` -/
def cAbs (a : CInt) : CInt := if a.slt 0 then -a else a

/-- The variables of the loop of `fb_line`, and the points plotted so far. -/
structure Line where
  x0 : CInt
  y0 : CInt
  err : CInt
  points : List (CInt × CInt)
deriving DecidableEq, Repr

section Line

variable (x1 y1 dx dy sx sy : CInt)

/-- The loop goes on unless the end point is reached. -/
def lineTest (s : Line) : Bool := !(s.x0 == x1 && s.y0 == y1)

def lineBody (s : Line) : Line :=
  let e2 := 2 * s.err
  let xStep := dy.sle e2
  let yStep := e2.sle dx
  let err := if xStep then s.err + dy else s.err
  let x0 := if xStep then s.x0 + sx else s.x0
  let err := if yStep then err + dx else err
  let y0 := if yStep then s.y0 + sy else s.y0
  { x0 := x0, y0 := y0, err := err, points := s.points ++ [(x0, y0)] }

end Line

/-- The state of `fb_line` after at most `n` passes of its loop. -/
def lineAfter (x0 y0 x1 y1 : CInt) (n : Nat) : Line :=
  let dx := cAbs (x1 - x0)
  let sx : CInt := if x0.slt x1 then 1 else -1
  let dy := -cAbs (y1 - y0)
  let sy : CInt := if y0.slt y1 then 1 else -1
  Loop.passes (lineTest x1 y1) (lineBody dx dy sx sy) n
    { x0 := x0, y0 := y0, err := dx + dy, points := [(x0, y0)] }

/-- The function `fb_line` calls for its points. -/
def linePlot (x0 y0 x1 y1 : CInt) : CInt → CInt → CInt → List Store :=
  if x0.slt 0 || fb.hdisp.sle x0 || y0.slt 0 || fb.vdisp.sle y0 ||
      x1.slt 0 || fb.hdisp.sle x1 || y1.slt 0 || fb.vdisp.sle y1 then fbPlot fb
  else plotUnbounded fb

/-- The stores of `fb_line` within `n` passes of its loop. -/
def fbLine (n : Nat) (x0 y0 x1 y1 color : CInt) : List Store :=
  if fb.bpp = 0 then []
  else
    (lineAfter x0 y0 x1 y1 n).points.flatMap fun p => linePlot fb x0 y0 x1 y1 p.1 p.2 color

/-- The variables of the loop of the circles, and the pairs `x`, `y` reached so far. -/
structure Circle where
  f : CInt
  ddFx : CInt
  ddFy : CInt
  x : CInt
  y : CInt
  steps : List (CInt × CInt)

def circleTest (s : Circle) : Bool := s.x.slt s.y

def circleBody (s : Circle) : Circle :=
  let out := (0 : CInt).sle s.f
  let y := if out then s.y - 1 else s.y
  let ddFy := if out then s.ddFy + 2 else s.ddFy
  let f := if out then s.f + ddFy else s.f
  let x := s.x + 1
  let ddFx := s.ddFx + 2
  { f := f + ddFx, ddFx := ddFx, ddFy := ddFy, x := x, y := y, steps := s.steps ++ [(x, y)] }

/-- The state of a circle of radius `r` after at most `n` passes of its loop. -/
def circleAfter (r : CInt) (n : Nat) : Circle :=
  Loop.passes circleTest circleBody n
    { f := 1 - r, ddFx := 1, ddFy := -2 * r, x := 0, y := r, steps := [] }

/-- The function `fb_circle` calls for its points. -/
def circlePlot (x0 y0 r : CInt) : CInt → CInt → CInt → List Store :=
  if (x0 - r).slt 0 || fb.hdisp.sle (x0 + r) || (y0 - r).slt 0 || fb.vdisp.sle (y0 + r) then
    fbPlot fb
  else plotUnbounded fb

def fbCircle (n : Nat) (x0 y0 r color : CInt) : List Store :=
  let plotfn := circlePlot fb x0 y0 r
  if fb.bpp = 0 then []
  else
    plotfn x0 (y0 + r) color ++ plotfn x0 (y0 - r) color ++
      plotfn (x0 + r) y0 color ++ plotfn (x0 - r) y0 color ++
      (circleAfter r n).steps.flatMap fun p =>
        plotfn (x0 + p.1) (y0 + p.2) color ++ plotfn (x0 - p.1) (y0 + p.2) color ++
          plotfn (x0 + p.1) (y0 - p.2) color ++ plotfn (x0 - p.1) (y0 - p.2) color ++
          plotfn (x0 + p.2) (y0 + p.1) color ++ plotfn (x0 - p.2) (y0 + p.1) color ++
          plotfn (x0 + p.2) (y0 - p.1) color ++ plotfn (x0 - p.2) (y0 - p.1) color

def fbFilledcircle (n : Nat) (x0 y0 r color : CInt) : List Store :=
  fbPlot fb x0 (y0 + r) color ++ fbPlot fb x0 (y0 - r) color ++
    fbRectangle fb (x0 - r) y0 (x0 + r) y0 color ++
    (circleAfter r n).steps.flatMap fun p =>
      fbRectangle fb (x0 - p.1) (y0 + p.2) (x0 + p.1) (y0 + p.2) color ++
        fbRectangle fb (x0 - p.1) (y0 - p.2) (x0 + p.1) (y0 - p.2) color ++
        fbRectangle fb (x0 - p.2) (y0 + p.1) (x0 + p.2) (y0 + p.1) color ++
        fbRectangle fb (x0 - p.2) (y0 - p.1) (x0 + p.2) (y0 - p.1) color

end Primitives

section Text

variable (fb : Screen)

/-- The colours and the scale of a text. -/
structure Pen where
  fgcolor : CInt
  bgcolor : CInt
  scaleX : CInt
  scaleY : CInt

/-- The scale word: a factor of zero is one, or the other factor. -/
def pen (fgcolor bgcolor scale : CInt) : Pen :=
  let scaleY := scale &&& 0xff#32
  let scaleX := scale.sshiftRight 16 &&& 0xff#32
  let scaleY := if scaleY = 0 then 1 else scaleY
  { fgcolor := fgcolor
    bgcolor := bgcolor
    scaleX := if scaleX = 0 then scaleY else scaleX
    scaleY := scaleY }

/-- The variables of the inner loop of `fb_text`. -/
structure Dots where
  x : CInt
  xs : CInt
  c : CInt
  stop : Bool
  stores : List Store

def dotsTest (x0 : CInt) (p : Pen) (s : Dots) : Bool := !s.stop && s.x.slt (x0 + 6 * p.scaleX)

/-- One dot of a row of a character; `stop` is the `break`. -/
def dotsBody (p : Pen) (off : CInt) (s : Dots) : Dots :=
  let next := s.xs = p.scaleX
  let c := if next then s.c <<< 1 else s.c
  let xs := if next then 0 else s.xs
  let s := { s with c := c, xs := xs }
  let on := c &&& 0x80#32 ≠ 0
  if s.x.slt 0 then { s with x := s.x + 1, xs := xs + 1 }
  else if fb.hdisp.sle s.x then { s with stop := true }
  else if ¬on ∧ p.bgcolor.slt 0 then { s with x := s.x + 1, xs := xs + 1 }
  else
    { s with
      x := s.x + 1
      xs := xs + 1
      stores := s.stores ++ [.plot (off + s.x) (if on then p.fgcolor else p.bgcolor)] }

/-- The variables of the loop over the rows of a character; `bp` is the row of the font. -/
structure Rows where
  y : CInt
  ys : CInt
  bp : Nat
  stop : Bool
  stores : List Store

def rowsTest (y0 : CInt) (p : Pen) (s : Rows) : Bool := !s.stop && s.y.slt (y0 + 10 * p.scaleY)

def rowsBody (font : Nat → Byte) (p : Pen) (x0 : CInt) (s : Rows) : Rows :=
  let next := s.ys = p.scaleY
  let bp := if next then s.bp + 1 else s.bp
  let ys := if next then 0 else s.ys
  let s := { s with bp := bp, ys := ys }
  if s.y.slt 0 then { s with y := s.y + 1, ys := ys + 1 }
  else if fb.vdisp.sle s.y then { s with stop := true }
  else
    -- a character is at most 6 * 255 dots wide
    let dots := Loop.passes (dotsTest x0 p) (dotsBody fb p (s.y * fb.hdisp)) 1536
      { x := x0, xs := 0, c := (font bp).setWidth 32, stop := false, stores := [] }
    { s with y := s.y + 1, ys := ys + 1, stores := s.stores ++ dots.stores }

/-- The first row of a character in `font_map`. -/
def glyph (c : CInt) : Nat := if c.slt 32 || (126 : CInt).slt c then 0 else (c.toNat - 32) * 10

/-- `fb_text`, for the characters up to the terminating zero; `font` is `font_map`. -/
def fbText (font : Nat → Byte) (p : Pen) (y0 : CInt) : CInt → List CInt → List Store
  | _, [] => []
  | x0, c :: cp =>
      if c = 0 then []
      else
        -- a character is at most 10 * 255 rows high
        let rows := Loop.passes (rowsTest y0 p) (rowsBody fb font p x0) 2560
          { y := y0, ys := 0, bp := glyph c, stop := false, stores := [] }
        rows.stores ++ fbText font p y0 (x0 + 6 * p.scaleX) cp

end Text

end Fb
end F32c
