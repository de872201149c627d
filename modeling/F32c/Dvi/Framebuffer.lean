import F32c.Clocked
import Mathlib.Tactic

/-!
# The framebuffer display

This module embeds the main clock domain of the entity `dvi_fb` (`rtl/soc/dvi_fb.vhd`)
with all colour depths and double pixels enabled.  The entity fetches the framebuffer in
bursts into a first FIFO, takes the pixels out of the words, and enters them into a second
FIFO, from which the other clock domain displays them.

The mode is fixed during a frame, so the configuration registers are a parameter.  What
comes from the other clock domain, the frame gap and the tail of the second FIFO, are
inputs.
-/

namespace F32c
namespace Dvi

abbrev Word := BitVec 32
abbrev Addr := BitVec 30
abbrev Rgb := BitVec 24

/-- `R_bpp` -/
inductive Bpp where
  | off
  | bpp1
  | bpp2
  | bpp4
  | bpp8
  | bpp16
  | bpp24
deriving DecidableEq

/-- The configuration registers of a mode. -/
structure Mode where
  hdisp : BitVec 12
  vdisp : BitVec 11
  interlace : Bool
  bpp : Bpp
  doublepix : Bool
  dmaBase : Addr
deriving DecidableEq

/-- The value for `R_dma_hlim`, the number of words in a line. -/
def Mode.hlim (m : Mode) : BitVec 11 :=
  let hlim : BitVec 11 :=
    match m.bpp with
    | .bpp1 => (m.hdisp.extractLsb' 5 6).setWidth 11
    | .bpp2 => (m.hdisp.extractLsb' 4 7).setWidth 11
    | .bpp4 => (m.hdisp.extractLsb' 3 8).setWidth 11
    | .bpp16 => (m.hdisp.extractLsb' 1 10).setWidth 11
    | .bpp24 => m.hdisp.extractLsb' 0 11
    | _ => (m.hdisp.extractLsb' 2 9).setWidth 11
  if m.doublepix then (hlim.extractLsb' 1 10).setWidth 11 else hlim

/-- The value for `R_pixel_bitpos_incr`; a pixel of 24 bits takes a word. -/
def Mode.bitposIncr (m : Mode) : BitVec 6 :=
  match m.bpp with
  | .bpp1 => 1
  | .bpp2 => 2
  | .bpp4 => 4
  | .bpp16 => 16
  | .bpp24 => 32
  | _ => 8

/-- The colour of a pixel at the low end of a word. -/
def rgb (bpp : Bpp) (pixel : Word) : Rgb :=
  match bpp with
  | .bpp1 =>
    -- black/white
    (pixel.extractLsb' 0 1).replicate 24
  | .bpp2 =>
    -- grayscale
    (pixel.extractLsb' 0 2).replicate 12
  | .bpp4 =>
    -- RGBI
    (pixel.extractLsb' 2 1 ++ pixel.extractLsb' 3 1).replicate 4 ++
      (pixel.extractLsb' 1 1 ++ pixel.extractLsb' 3 1).replicate 4 ++
      (pixel.extractLsb' 0 1 ++ pixel.extractLsb' 3 1).replicate 4
  | .bpp16 =>
    -- RGB565
    pixel.extractLsb' 11 5 ++ pixel.extractLsb' 13 3 ++
      (pixel.extractLsb' 5 6 ++ pixel.extractLsb' 9 2) ++
      (pixel.extractLsb' 0 5 ++ pixel.extractLsb' 2 3)
  | .bpp24 => pixel.extractLsb' 16 8 ++ pixel.extractLsb' 8 8 ++ pixel.extractLsb' 0 8
  | _ =>
    -- RGB332
    pixel.extractLsb' 5 3 ++ pixel.extractLsb' 5 3 ++ pixel.extractLsb' 6 2 ++
      (pixel.extractLsb' 2 3 ++ pixel.extractLsb' 2 3 ++ pixel.extractLsb' 3 2) ++
      (pixel.extractLsb' 0 2).replicate 4

/-- The registers. -/
structure Scan where
  dmaFifo : BitVec 9 → Word
  dmaFifoHead : BitVec 9
  dmaFifoTail : BitVec 9
  dmaCur : Addr
  dmaHcnt : BitVec 11
  dmaVcnt : BitVec 11
  dmaHlim : BitVec 11
  dmaFieldCnt : BitVec 2
  pixelBitpos : BitVec 6
  pixelBitposIncr : BitVec 6
  skipPixel : Bool
  repeatLine : Bool
  pixelFifo : BitVec 9 → Rgb
  pixelFifoHead : BitVec 9

/-- The inputs of a clock. -/
structure ScanInput where
  frameGap : Bool
  pixelFifoTailCdc : BitVec 5
  dataReady : Bool
  dataOut : Word

namespace Scan

variable (m : Mode) (s : Scan) (i : ScanInput)

def pixelFifoNeedsMorePixels : Bool :=
  i.pixelFifoTailCdc != s.pixelFifoHead.extractLsb' 4 5 + 1

def dmaFifoMayFetch : Bool :=
  s.dmaFieldCnt != 0 && !i.frameGap &&
    s.dmaFifoHead.extractLsb' 5 4 + 1 != s.dmaFifoTail.extractLsb' 5 4

def dmaFifoHasData : Bool := s.dmaFifoHead != s.dmaFifoTail

/-- Pixel output has stopped, prepare for a new frame. -/
def newFrame : Scan :=
  { s with
    dmaFieldCnt := if m.interlace then 2 else 1
    dmaFifoHead := 0
    dmaFifoTail := 0
    dmaCur := m.dmaBase
    dmaHcnt := 0
    dmaVcnt := 0
    pixelBitpos := 0
    skipPixel := m.doublepix
    repeatLine := m.doublepix
    pixelFifoHead := 0 }

/-- The end of a line. -/
def lineEnd : Scan :=
  let s' := { s with dmaHcnt := 0, repeatLine := s.repeatLine ^^ m.doublepix }
  if m.interlace then
    if s.dmaVcnt + 2 = m.vdisp then
      { s' with
        dmaCur := if m.doublepix then m.dmaBase else m.dmaBase + s.dmaHlim.setWidth 30
        dmaVcnt := 0
        dmaFieldCnt := s.dmaFieldCnt - 1 }
    else
      { s' with
        dmaCur := if m.doublepix then s.dmaCur + 1 else s.dmaCur + 1 + s.dmaHlim.setWidth 30
        dmaVcnt := s.dmaVcnt + 2 }
  else
    let s' :=
      { s' with
        dmaCur := if s.repeatLine then s.dmaCur + 1 - s.dmaHlim.setWidth 30 else s.dmaCur + 1 }
    if s.dmaVcnt + 1 = m.vdisp then
      { s' with
        dmaVcnt := 0
        dmaFieldCnt := s.dmaFieldCnt - 1 }
    else { s' with dmaVcnt := s.dmaVcnt + 1 }

/-- The counters move when a word comes. -/
def moveOn : Scan :=
  if s.dmaHcnt + 1 = s.dmaHlim then s.lineEnd m
  else
    { s with
      dmaCur := s.dmaCur + 1
      dmaHcnt := s.dmaHcnt + 1 }

/-- A word comes from the memory. -/
def takeWord (w : Word) : Scan :=
  { s.moveOn m with
    dmaFifo := Function.update s.dmaFifo s.dmaFifoHead w
    dmaFifoHead := s.dmaFifoHead + 1 }

/-- The pixel at the tail of the FIFO, and what is above it in the word. -/
def pixel : Word := s.dmaFifo s.dmaFifoTail >>> (s.pixelBitpos.setWidth 5).toNat

def pixelBitposNext : BitVec 6 :=
  if s.skipPixel then s.pixelBitpos else s.pixelBitpos + s.pixelBitposIncr

/-- A pixel is entered into the pixel FIFO. -/
def putPixel (color : Rgb) : Scan :=
  { s with
    skipPixel := s.skipPixel ^^ m.doublepix
    pixelBitpos := (s.pixelBitposNext.setWidth 5).setWidth 6
    dmaFifoTail := if s.pixelBitposNext.msb then s.dmaFifoTail + 1 else s.dmaFifoTail
    pixelFifo := Function.update s.pixelFifo s.pixelFifoHead color
    pixelFifoHead := s.pixelFifoHead + 1 }

/-- The pixel of this clock. -/
def pixelOut : Option Rgb :=
  if m.bpp = .off || i.frameGap then none
  else if s.pixelFifoNeedsMorePixels i && s.dmaFifoHasData then some (rgb m.bpp s.pixel)
  else none

/-- A clock without the registers that depend on the mode alone. -/
def control : Scan :=
  if m.bpp = .off then { s with dmaFieldCnt := 0 }
  else if i.frameGap then s.newFrame m
  else
    let s' := if i.dataReady then s.takeWord m i.dataOut else s
    match s.pixelOut m i with
    | some color => s'.putPixel m color
    | none => s'

/-- One clock. -/
def step : Scan :=
  { s.control m i with
    dmaHlim := m.hlim
    pixelBitposIncr := m.bitposIncr }

end Scan

section Memory

/-- The number of words in a burst: `burst_len` is one less. -/
def burstWords : Nat := 0x1f + 1

/-- The display and its memory; a burst has the address at its acceptance and the number of
words that were delivered. -/
structure System where
  scan : Scan
  burst : Option (Addr × Nat)

/-- The inputs of a clock: the memory accepts a request, or delivers a word. -/
structure Input where
  frameGap : Bool
  pixelFifoTailCdc : BitVec 5
  accept : Bool
  deliver : Bool

namespace System

variable (m : Mode) (mem : Addr → Word) (y : System) (i : Input)

def scanInput : ScanInput where
  frameGap := i.frameGap
  pixelFifoTailCdc := i.pixelFifoTailCdc
  dataReady := y.burst.isSome && i.deliver
  dataOut :=
    match y.burst with
    | some (a, n) => mem (a + BitVec.ofNat 30 n)
    | none => 0

/-- The burst in the next clock; a request is accepted only when the last word of the burst
before it was delivered. -/
def burstNext : Option (Addr × Nat) :=
  match y.burst with
  | none => if y.scan.dmaFifoMayFetch (y.scanInput mem i) && i.accept then some (y.scan.dmaCur, 0)
      else none
  | some (a, n) =>
    if i.deliver then if n + 1 = burstWords then none else some (a, n + 1)
    else some (a, n)

def step : System where
  scan := y.scan.step m (y.scanInput mem i)
  burst := y.burstNext mem i

end System

end Memory

end Dvi
end F32c
