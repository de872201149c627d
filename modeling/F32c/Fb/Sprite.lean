import F32c.Fb.Fill
import Mathlib.Tactic

/-!
# Sprites

The sprites of `dev/sprite.c`: a list of blocks of memory, each with an id, a size, a
transparent colour and a buffer of pixels.  They are grabbed from the screen or loaded from an
image, and put on the screen.

The decoders of images are not a part of this development: what they deliver is an input.  So
is what `malloc` gives, with the bytes that are in the block before it is written.  A function
that stores through a null pointer has no result.
-/

namespace F32c
namespace Fb

section Registry

/-- `struct sprite`, and the size of the buffer that was asked for. -/
structure Sprite where
  data : Memory
  bufsize : CInt
  transColor : CInt
  id : BitVec 16
  sizeX : BitVec 16
  sizeY : BitVec 16

/-- The list `spr_head`. -/
abbrev Registry := List Sprite

/-- A block of memory for a sprite, before it is written. -/
structure Block where
  data : Memory
  sizeX : BitVec 16
  sizeY : BitVec 16

/-- `sp->spr_id == id` -/
def Sprite.hasId (id : CInt) (sp : Sprite) : Bool := sp.id.setWidth 32 == id

/-- The search of the list with which the functions begin. -/
def sprLookup (id : CInt) (reg : Registry) : Option Sprite := reg.find? (Sprite.hasId id)

/-- `spr_flush`: the body of the loop runs once. -/
def sprFlush (reg : Registry) : Registry :=
  match reg with
  | [] => []
  | _ :: rest => rest

def sprFree (id : CInt) (reg : Registry) : Int × Registry :=
  match sprLookup id reg with
  | none => (-1, reg)
  | some _ => (0, reg.eraseP (Sprite.hasId id))

/-- The block of a new sprite. -/
def newSprite (id bufsize : CInt) (b : Block) : Sprite where
  data := b.data
  bufsize := bufsize
  transColor := -1
  id := id.setWidth 16
  sizeX := b.sizeX
  sizeY := b.sizeY

/-- `spr_alloc`: the new sprite, which is then the first one, and the list. -/
def sprAlloc (id bufsize : CInt) (block : Option Block) (reg : Registry) :
    Option Sprite × Registry :=
  let reg := (sprFree id reg).2
  match block with
  | none => (none, reg)
  | some b => (some (newSprite id bufsize b), newSprite id bufsize b :: reg)

/-- An assignment to the first sprite with an id. -/
def updateFirst (id : CInt) (f : Sprite → Sprite) : Registry → Registry
  | [] => []
  | sp :: rest => if sp.hasId id then f sp :: rest else sp :: updateFirst id f rest

def sprTrans (id color : CInt) (reg : Registry) : Int × Registry :=
  match sprLookup id reg with
  | none => (-1, reg)
  | some _ => (0, updateFirst id (fun sp => { sp with transColor := color }) reg)

/-- `spr_size`: the width and the height, unless it returns `-1`. -/
def sprSize (id : CInt) (reg : Registry) : Option (CInt × CInt) :=
  (sprLookup id reg).map fun sp => (sp.sizeX.setWidth 32, sp.sizeY.setWidth 32)

end Registry

section Screen

variable (fb : Screen)

/-- The type of a pixel: bytes at 8 bits a pixel, and halfwords otherwise. -/
def pixelAccess : Access := if fb.bpp = 8 then access8 else access16

/-- The values of a loop `for (v = lo; v < hi; v++)`. -/
def below (lo hi : Int) : List Int := (List.range (hi - lo).toNat).map fun k : Nat => lo + k

/-- Pixels stored one behind the other. -/
def storePixels (acc : Access) (data : Memory) (pixels : List Nat) : Memory :=
  pixels.zipIdx.foldl (fun d p => acc.write d p.2 (BitVec.ofNat 32 p.1)) data

/-- The pixels `spr_grab` copies. -/
def grabbed (m : Memory) (x0 y0 x1 y1 : Int) : List Nat :=
  (below y0 (y1 + 1)).flatMap fun y =>
    (below x0 (x1 + 1)).map fun x =>
      (pixelAccess fb).read m (y * fb.ml.hdisp + x0 + (x - x0))

/-- The test with which `spr_grab` returns. -/
def grabRefused (id x0 y0 x1 y1 : CInt) : Bool :=
  x0.slt 0 || fb.hdisp.sle x1 || x1.slt x0 || y0.slt 0 || fb.vdisp.sle y1 || y1.slt y0 ||
    id.slt 0 || fb.bpp == 0

/-- `(x1 - x0 + 1) * (y1 - y0 + 1) * fb_bpp / 8` -/
def grabSize (x0 y0 x1 y1 : CInt) : CInt :=
  ((x1 - x0 + 1) * (y1 - y0 + 1) * BitVec.ofNat 32 fb.bpp).sdiv 8

/-- What `spr_grab` writes into a new sprite. -/
def grabSprite (m : Memory) (x0 y0 x1 y1 : CInt) (sp : Sprite) : Sprite :=
  { sp with
    sizeX := (x1 - x0 + 1).setWidth 16
    sizeY := (y1 - y0 + 1).setWidth 16
    data := storePixels (pixelAccess fb) sp.data
      (grabbed fb m x0.toInt y0.toInt x1.toInt y1.toInt) }

/-- `spr_grab`; the pointer that `spr_alloc` returns is not checked. -/
def sprGrab (m : Memory) (id x0 y0 x1 y1 : CInt) (block : Option Block) (reg : Registry) :
    Option (Int × Registry) :=
  if grabRefused fb id x0 y0 x1 y1 then some (-1, reg)
  else
    match sprAlloc id (grabSize fb x0 y0 x1 y1) block reg with
    | (none, _) => none
    | (some _, reg) => some (0, reg.modifyHead (grabSprite fb m x0 y0 x1 y1))

/-- The stores of `spr_put`: the number of a pixel of the screen, and its colour. -/
def putPixels (sp : Sprite) (x0 y0 : CInt) : List (Int × CInt) :=
  let x1 := x0 + sp.sizeX.setWidth 32
  let y1 := y0 + sp.sizeY.setWidth 32
  let x0v : CInt := if x0.slt 0 then 0 else x0
  let y0v : CInt := if y0.slt 0 then 0 else y0
  let x1 := if fb.hdisp.slt x1 then fb.hdisp else x1
  let y1 := if fb.vdisp.slt y1 then fb.vdisp else y1
  (below y0v.toInt y1.toInt).flatMap fun y =>
    (below x0v.toInt x1.toInt).filterMap fun x =>
      let src := (y - y0.toInt) * sp.sizeX.toNat + (x0v.toInt - x0.toInt) + (x - x0v.toInt)
      let c := (pixelAccess fb).read sp.data src
      if (c : Int) = sp.transColor.toInt then none
      else some (y * fb.ml.hdisp + x0v.toInt + (x - x0v.toInt), BitVec.ofNat 32 c)

/-- A sprite put on the screen. -/
def putSprite (sp : Sprite) (x0 y0 : CInt) (m : Memory) : Memory :=
  (putPixels fb sp x0 y0).foldl (fun m p => (pixelAccess fb).write m p.1 p.2) m

def sprPut (id x0 y0 : CInt) (reg : Registry) (m : Memory) : Int × Memory :=
  match sprLookup id reg with
  | none => (-1, m)
  | some sp => (0, putSprite fb sp x0 y0 m)

end Screen

section Image

variable (fb : Screen)

/-- A colour `0x00rrggbb`. -/
abbrev Rgb := BitVec 32

/-- `fb_rgb2pal` -/
def fbRgb2pal (rgb : Rgb) : CInt :=
  let r := (rgb >>> 16) &&& 0xff#32
  let g := (rgb >>> 8) &&& 0xff#32
  let b := rgb &&& 0xff#32
  let bright : Bool := (0xc0 : CInt).ule r || (0xc0 : CInt).ule g || (0xc0 : CInt).ule b
  match fb.bpp with
  | 32 => rgb
  | 16 => (r &&& 0xf8#32) <<< 8 ||| (g &&& 0xfc#32) <<< 3 ||| b >>> 3
  | 8 => (r &&& 0xe0#32) ||| ((g >>> 3) &&& 0x1c#32) ||| b >>> 6
  | 4 =>
    (if bright then 8 else 0) ||| ((r >>> 5) &&& 0x4#32) ||| ((g >>> 6) &&& 0x2#32) ||| b >>> 7
  | 2 => r >>> 7 + g >>> 7 + b >>> 7 + if bright then 1 else 0
  | _ => if bright then 1 else 0

/-- `JRECT` with its pixels, row by row; both ends belong to it. -/
structure JpegRect where
  left : Nat
  right : Nat
  top : Nat
  bottom : Nat
  bitmap : Nat → Rgb

/-- The variables of `jpeg_dump_decoded` that move with each pixel. -/
structure Dump where
  data : Memory
  src : Nat
  prevRgb : Rgb
  color : CInt

/-- The colour of a pixel as `jpeg_dump_decoded` makes it. -/
def jpegColor (rgb : Rgb) : CInt :=
  if fb.bpp = 16 then
    ((rgb >>> 8) &&& 0xf8#32) ||| (rgb &&& 0xfc00#32) >>> 5 ||| (rgb &&& 0xff#32) >>> 3
  else ((rgb >>> 16) &&& 0xe#32) ||| (rgb &&& 0xe000#32) >>> 11 ||| (rgb &&& 0xc0#32) >>> 6

/-- `dst16` or `dst8` -/
def jpegAccess : Access := if fb.bpp = 16 then access16 else access8

/-- One pixel: the colour is made again only where it changes. -/
def dumpPixel (bitmap : Nat → Rgb) (s : Dump) (dst : Nat) : Dump :=
  let rgb := bitmap s.src
  let color := if rgb ≠ s.prevRgb then jpegColor fb rgb else s.color
  { data := (jpegAccess fb).write s.data dst color
    src := s.src + 1
    prevRgb := rgb
    color := color }

/-- `xlim` and `ylim`.  With no pixels at all there would be no limit, but then the decoder
delivers no rectangle. -/
def dumpLimit (high : Nat) (size : BitVec 16) : Nat := min high (size.toNat - 1)

/-- One row, and the pixels behind the limit that are skipped. -/
def dumpRow (sp : Sprite) (rect : JpegRect) (s : Dump) (y : Nat) : Dump :=
  let xlim := dumpLimit rect.right sp.sizeX
  let n := xlim + 1 - rect.left
  let s := (List.range n).foldl
    (fun s k => dumpPixel fb rect.bitmap s (y * sp.sizeX.toNat + rect.left + k)) s
  let x := rect.left + n
  if x < rect.right then { s with src := s.src + (rect.right - x) } else s

/-- `jpeg_dump_decoded` -/
def jpegDumpDecoded (sp : Sprite) (rect : JpegRect) : Sprite :=
  let ylim := dumpLimit rect.bottom sp.sizeY
  let rows := (List.range (ylim + 1 - rect.top)).map fun k => rect.top + k
  { sp with
    data := (rows.foldl (dumpRow fb sp rect)
      { data := sp.data, src := 0, prevRgb := 0, color := 0 }).data }

/-- What the decoders make of a file. -/
inductive Decoded where
  /-- The file cannot be opened, or is no image, or not one of the kinds that are loaded. -/
  | none
  /-- `jd_prepare` succeeds; `ok` says whether `jd_decomp` does. -/
  | jpeg (width height : Nat) (rects : List JpegRect) (ok : Bool)
  /-- `upng_decode` succeeds, with four bytes a pixel. -/
  | png (width height : Nat) (buffer : Nat → Byte)
  /-- `upng_new_from_file` has no memory, and `upng_decode` does not check its pointer. -/
  | noMemory

/-- The pixels of a PNG image as they are stored. -/
def pngColor (r g b : Byte) : CInt :=
  let r := r.setWidth 32
  let g := g.setWidth 32
  let b := b.setWidth 32
  if fb.bpp = 8 then (r &&& 0xe0#32) ||| (g &&& 0xe0#32) >>> 3 ||| (b &&& 0x3#32)
  else (r &&& 0xf8#32) <<< 8 ||| (g &&& 0xfc#32) <<< 3 ||| (b &&& 0x1f#32)

/-- The pixels of a PNG image, one behind the other. -/
def pngPixels (n : Nat) (buffer : Nat → Byte) : List Nat :=
  (List.range n).map fun k =>
    (pngColor fb (buffer (4 * k)) (buffer (4 * k + 1)) (buffer (4 * k + 2))).toNat

/-- `jdec.width * jdec.height * fb_bpp / 8 >> (descale * 2)` -/
def jpegSize (width height descale : Nat) : CInt :=
  ((BitVec.ofNat 32 width * BitVec.ofNat 32 height * BitVec.ofNat 32 fb.bpp) / 8) >>> (descale * 2)

/-- `(sx * sy) * fb_bpp / 8` -/
def pngSize (width height : Nat) : CInt :=
  (BitVec.ofNat 32 height * BitVec.ofNat 32 width * BitVec.ofNat 32 fb.bpp).sdiv 8

/-- `ENOMEM` -/
def enomem : Int := 12

/-- What a JPEG image writes into a new sprite. -/
def jpegSprite (width height descale : Nat) (rects : List JpegRect) (sp : Sprite) : Sprite :=
  rects.foldl (jpegDumpDecoded fb)
    { sp with
      sizeX := BitVec.ofNat 16 (width >>> descale)
      sizeY := BitVec.ofNat 16 (height >>> descale) }

/-- What a PNG image writes into a new sprite: `sx` is the height, and `sy` the width. -/
def pngSprite (width height : Nat) (buffer : Nat → Byte) (sp : Sprite) : Sprite :=
  { sp with
    sizeX := BitVec.ofNat 16 height
    sizeY := BitVec.ofNat 16 width
    data := storePixels (if fb.bpp = 8 then access8 else access16) sp.data
      (pngPixels fb (width * height) buffer) }

/-- `spr_load`.  For a PNG image the pointer that `spr_alloc` returns is used before the test. -/
def sprLoad (id : CInt) (image : Decoded) (descale : Nat) (block : Option Block)
    (reg : Registry) : Option (Int × Registry) :=
  if fb.bpp = 0 then some (-1, reg)
  else
    match image with
    | .none => some (-1, reg)
    | .noMemory => none
    | .jpeg width height rects ok =>
      match sprAlloc id (jpegSize fb width height descale) block reg with
      | (none, reg) => some (enomem, reg)
      | (some _, reg) =>
        let reg := reg.modifyHead (jpegSprite fb width height descale rects)
        if ok then some (0, reg) else some (-1, (sprFree id reg).2)
    | .png width height buffer =>
      match sprAlloc id (pngSize fb width height) block reg with
      | (none, _) => none
      | (some _, reg) => some (0, reg.modifyHead (pngSprite fb width height buffer))

end Image

end Fb
end F32c
