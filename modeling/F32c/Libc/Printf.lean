import Mathlib.Tactic

/-!
# Formatted output

`_xvprintf` of `stdio/printf.c`.  It walks over the format one character at a time, and so does
the model: a state is where the next character is read, together with what has been read of a
directive, and a step reads that character.  What the callback `func` is called with is kept in
order, and what `%n` stores.

The objects that `%n` stores to are none of those that are read, as `__restrict` and `const` say
in the prototypes.  An argument has a value for each type it can be taken as, so nothing is
supposed about whether the arguments fit the directives.  The operations of `double` are a
parameter, and are missing in a build with `NO_PRINTF_FLOAT`.
-/

namespace F32c
namespace Libc

abbrev Byte := BitVec 8
abbrev CInt := BitVec 32

/-- The operations of `double` that `pd` uses. -/
structure Floats (D : Type) where
  zero : D
  ten : D
  lt : D → D → Bool
  neg : D → D
  sub : D → D → D
  mul : D → D → D
  div : D → D → D
  ofInt : CInt → D
  toInt : D → CInt
  isnan : D → Bool
  isinf : D → Bool
  /-- Multiplying by ten ends above each number, or at infinity. -/
  range_ends : ∀ x, ∃ t, lt ((fun tx => mul tx ten)^[t] ten) x = false

/-- What differs from one build of the library to another. -/
structure Platform where
  signedChar : Bool
  D : Type
  floats : Option (Floats D)

/-- A string without its NUL. -/
structure CString where
  bytes : List Byte
  nonzero : ∀ b ∈ bytes, b ≠ 0

/-- An argument, as each of the types that `va_arg` is asked for. -/
structure Arg (P : Platform) where
  word : BitVec 32
  quad : BitVec 64
  string : Option CString
  double : P.D

/-- The code of a character. -/
def chr (c : Char) : CInt := BitVec.ofNat 32 c.toNat

section Output

/-- What `func` has been called with, and `retval`. -/
structure Out where
  chars : List CInt
  retval : CInt

/-- `PCHAR` -/
def pchar (o : Out) (c : CInt) : Out := { chars := o.chars ++ [c], retval := o.retval + 1 }

def pchars (o : Out) (cs : List CInt) : Out := cs.foldl pchar o

/-- A loop that repeats one character. -/
def pad (n : Nat) (c : CInt) (o : Out) : Out := pchars o (List.replicate n c)

end Output

section Numbers

/-- The digit of `pn`. -/
def digitChar (upper : Bool) (c : Nat) : CInt :=
  if c < 10 then BitVec.ofNat 32 c + chr '0'
  else if upper then BitVec.ofNat 32 c + (chr 'A' - 10)
  else BitVec.ofNat 32 c + (chr 'a' - 10)

/-- `pn`: the digits in the order in which they are put in the buffer. -/
def pn (base : Nat) (upper : Bool) (num : Nat) : List CInt :=
  if base ≤ 1 ∨ num / base = 0 then [digitChar upper (num % base)]
  else digitChar upper (num % base) :: pn base upper (num / base)
termination_by num
decreasing_by
  rename_i h
  rw [not_or] at h
  refine Nat.div_lt_self (Nat.pos_of_ne_zero fun hzero => ?_) (by omega)
  exact h.2 (by rw [hzero, Nat.zero_div])

end Numbers

section Double

variable {P : Platform} (F : Floats P.D)

/-- The variables of the loop over the digits of a number. -/
structure Digits (D : Type) where
  x : D
  tx : D
  out : Out

/-- One digit; `t` is its place. -/
def pdDigit (dwidth : CInt) (s : Digits P.D) (t : CInt) : Digits P.D :=
  let tx := F.div s.tx F.ten
  let d := F.toInt (F.div s.x tx)
  let x := F.sub s.x (F.mul tx (F.ofInt d))
  let overshoot := (9#32).slt d
  let out := pchar s.out (chr '0' + if overshoot then 9 else d)
  { x := if overshoot then tx else x
    tx := tx
    out := if dwidth ≠ 0 ∧ t = 0 then pchar out (chr '.') else out }

/-- `t` and `tx` after the range has been found. -/
def pdRange (x : P.D) : Nat := Nat.find (F.range_ends x)

/-- `pd`, with its own `retval`. -/
def pd (x : P.D) (width dwidth : CInt) (padc ch : CInt) (o : Out) : Out :=
  let minus := F.lt x F.zero
  let npad : CInt := 2 - if dwidth = 0 then 1 else 0
  let lower := ch &&& 0x20#32
  if F.isnan x then
    let o := pad (width - 3).toInt.toNat (chr ' ') o
    pchars o [chr 'N' + lower, chr 'A' + lower, chr 'N' + lower]
  else if F.isinf x then
    let o := pad (width - (3 + if minus then 1 else 0)).toInt.toNat (chr ' ') o
    let o := if minus then pchar o (chr '-') else o
    pchars o [chr 'I' + lower, chr 'N' + lower, chr 'F' + lower]
  else
    let x := if minus then F.neg x else x
    let npad := if minus then npad + 1 else npad
    let early := minus && padc == chr '0'
    let o := if early then pchar o (chr '-') else o
    let minus := minus && !early
    let t := BitVec.ofNat 32 (pdRange F x)
    let tx := (fun tx => F.mul tx F.ten)^[pdRange F x] F.ten
    let o :=
      if dwidth.slt width then pad ((width - dwidth - npad).toInt - t.toInt).toNat padc o else o
    let o := if minus then pchar o (chr '-') else o
    let n := (t.toInt - (-dwidth).toInt).toNat + 1
    ((List.range n).foldl (fun s k => pdDigit F dwidth s (t - BitVec.ofNat 32 k)) ⟨x, tx, o⟩).out

end Double

section Directives

/-- What has been read of a directive. -/
structure Directive where
  padc : CInt := chr ' '
  width : CInt := 0
  dwidth : CInt := 0
  ladjust : Bool := false
  sharpflag : Bool := false
  sign : Bool := false
  dot : Bool := false
  upper : Bool := false
  lflag : Bool := false
  qflag : Bool := false
  cflag : Bool := false
  hflag : Bool := false
  jflag : Bool := false
  zflag : Bool := false

/-- From the label `number` on. -/
def putNumber (base : Nat) (d : Directive) (num : BitVec 64) (o : Out) : Out :=
  let neg := d.sign && num.slt 0
  let num := if neg then -num else num
  let digits := pn base d.upper num.toNat
  let n := BitVec.ofNat 32 digits.length
  let sharp := d.sharpflag && num != 0
  let tmp : CInt := if sharp then if base = 8 then 1 else if base = 16 then 2 else 0 else 0
  let tmp := if neg then tmp + 1 else tmp
  let dwidth := if !d.ladjust && d.padc == chr '0' then d.width - tmp else d.dwidth
  let width := d.width - (tmp + if n.slt dwidth then dwidth else n)
  let dwidth := dwidth - n
  let o := if d.ladjust then o else pad width.toInt.toNat (chr ' ') o
  let o := if neg then pchar o (chr '-') else o
  let o :=
    if sharp then
      if base = 8 then pchar o (chr '0')
      else if base = 16 then pchars o [chr '0', chr 'x'] else o
    else o
  let o := pad dwidth.toInt.toNat (chr '0') o
  let o := pchars o digits.reverse
  if d.ladjust then pad width.toInt.toNat (chr ' ') o else o

/-- From the label `handle_nosign` on: the argument. -/
def nosignArg {P : Platform} (d : Directive) (a : Arg P) : BitVec 64 :=
  if d.jflag || d.qflag then a.quad
  else if d.lflag || d.zflag then a.word.setWidth 64
  else if d.hflag then (a.word.setWidth 16).setWidth 64
  else if d.cflag then (a.word.setWidth 8).setWidth 64
  else a.word.setWidth 64

/-- From the label `handle_sign` on: the argument. -/
def signArg {P : Platform} (d : Directive) (a : Arg P) : BitVec 64 :=
  if d.jflag || d.qflag then a.quad
  else if d.lflag || d.zflag then a.word.signExtend 64
  else if d.hflag then (a.word.setWidth 16).signExtend 64
  else if d.cflag then
    if P.signedChar then (a.word.setWidth 8).signExtend 64 else (a.word.setWidth 8).setWidth 64
  else a.word.signExtend 64

/-- A `char` as an `int`. -/
def ofChar (P : Platform) (b : Byte) : CInt :=
  if P.signedChar then b.signExtend 32 else b.setWidth 32

/-- The string that stands for a null pointer. -/
def nullString : CString where
  bytes := "(null)".toList.map fun c => BitVec.ofNat 8 c.toNat
  nonzero := by decide

/-- The directive `s`. -/
def putString (P : Platform) (d : Directive) (string : Option CString) (o : Out) : Out :=
  let p := string.getD nullString
  let n : CInt :=
    if d.dot then BitVec.ofNat 32 (min d.dwidth.toInt.toNat p.bytes.length)
    else BitVec.ofNat 32 p.bytes.length
  let width := d.width - n
  let o := if !d.ladjust && (0#32).slt width then pad width.toNat d.padc o else o
  let o := pchars o ((List.range n.toNat).map fun k => ofChar P (p.bytes.getD k 0))
  if d.ladjust && (0#32).slt width then pad width.toNat d.padc o else o

/-- The number of bytes that the directive `n` stores. -/
def storedSize (d : Directive) : Nat :=
  if d.jflag || d.qflag then 8 else if d.lflag || d.zflag then 4 else if d.hflag then 2
  else if d.cflag then 1 else 4

end Directives

section Walk

/-- The labels of `switch`. -/
inductive Label where
  | dot | sharp | plus | minus | percent | star | zero | digit | c | d | h | j | l | n | o | p | q
  | s | u | upperX | x | y | z | f | other
deriving DecidableEq

def labelOf (ch : Byte) : Label :=
  match Char.ofNat ch.toNat with
  | '.' => .dot
  | '#' => .sharp
  | '+' => .plus
  | '-' => .minus
  | '%' => .percent
  | '*' => .star
  | '0' => .zero
  | '1' | '2' | '3' | '4' | '5' | '6' | '7' | '8' | '9' => .digit
  | 'c' => .c
  | 'd' | 'i' => .d
  | 'h' => .h
  | 'j' => .j
  | 'l' => .l
  | 'n' => .n
  | 'o' => .o
  | 'p' => .p
  | 'q' => .q
  | 's' => .s
  | 'u' => .u
  | 'X' => .upperX
  | 'x' => .x
  | 'y' => .y
  | 'z' => .z
  | 'F' | 'f' => .f
  | _ => .other

/-- Where the walk is: in the text, in a directive that began at `percent`, or in a number of
a directive, where `n` is what has been read of it. -/
inductive Mode where
  | text
  | directive (percent : Nat) (d : Directive)
  | number (percent : Nat) (d : Directive) (n : CInt)

/-- What `%n` has stored: where, how many bytes, and the value. -/
structure Stored where
  address : BitVec 32
  size : Nat
  value : CInt

/-- The state of `_xvprintf`; the next character is read at `fmt`. -/
structure Printf where
  fmt : Nat
  mode : Mode
  ap : Nat
  stop : Bool
  out : Out
  stored : List Stored

variable (P : Platform) (fmt : Nat → Byte) (args : Nat → Arg P)

/-- The end of a directive, and the character behind it. -/
def Printf.done (s : Printf) (o : Out) : Printf :=
  { s with fmt := s.fmt + 1, mode := .text, out := o }

/-- The end of a directive that has taken an argument. -/
def Printf.took (s : Printf) (o : Out) : Printf := { s.done o with ap := s.ap + 1 }

/-- `goto reswitch` -/
def Printf.reswitch (s : Printf) (percent : Nat) (d : Directive) : Printf :=
  { s with fmt := s.fmt + 1, mode := .directive percent d }

/-- `default`: the directive is copied, and no other one is obeyed. -/
def Printf.unknown (s : Printf) (percent : Nat) : Printf :=
  { s.done (pchars s.out
      ((List.range (s.fmt + 1 - percent)).map fun k => ofChar P (fmt (percent + k)))) with
    stop := true }

/-- The code of a digit, as a number. -/
def digitOf (ch : Byte) : CInt := ch.setWidth 32 - chr '0'

/-- `switch` -/
def directiveStep (s : Printf) (percent : Nat) (d : Directive) : Printf :=
  let ch := fmt s.fmt
  let a := args s.ap
  match labelOf ch with
  | .dot => s.reswitch percent { d with dot := true }
  | .sharp => s.reswitch percent { d with sharpflag := true }
  | .plus => s.reswitch percent { d with sign := true }
  | .minus => s.reswitch percent { d with ladjust := true }
  | .percent => s.done (pchar s.out (ch.setWidth 32))
  | .star =>
    let s := { s with ap := s.ap + 1 }
    if d.dot then s.reswitch percent { d with dwidth := a.word }
    else if a.word.slt 0 then s.reswitch percent { d with ladjust := !d.ladjust, width := -a.word }
    else s.reswitch percent { d with width := a.word }
  | .zero =>
    if d.dot then { s with fmt := s.fmt + 1, mode := .number percent d (digitOf ch) }
    else s.reswitch percent { d with padc := chr '0' }
  | .digit => { s with fmt := s.fmt + 1, mode := .number percent d (digitOf ch) }
  | .c => s.took (pchar s.out a.word)
  | .d => s.took (putNumber 10 { d with sign := true } (signArg d a) s.out)
  | .h =>
    s.reswitch percent (if d.hflag then { d with hflag := false, cflag := true }
      else { d with hflag := true })
  | .j => s.reswitch percent { d with jflag := true }
  | .l =>
    s.reswitch percent (if d.lflag then { d with lflag := false, qflag := true }
      else { d with lflag := true })
  | .n => { s.took s.out with stored := s.stored ++ [⟨a.word, storedSize d, s.out.retval⟩] }
  | .o => s.took (putNumber 8 { d with sign := false } (nosignArg d a) s.out)
  | .p =>
    s.took (putNumber 16 { d with sharpflag := d.width == 0, sign := false }
      (a.word.setWidth 64) s.out)
  | .q => s.reswitch percent { d with qflag := true }
  | .s => s.took (putString P d a.string s.out)
  | .u => s.took (putNumber 10 { d with sign := false } (nosignArg d a) s.out)
  | .upperX => s.took (putNumber 16 { d with sign := false, upper := true } (nosignArg d a) s.out)
  | .x => s.took (putNumber 16 { d with sign := false } (nosignArg d a) s.out)
  | .y => s.took (putNumber 16 { d with sign := true } (signArg d a) s.out)
  | .z => s.reswitch percent { d with zflag := true }
  | .f =>
    match P.floats with
    | none => s.unknown P fmt percent
    | some F =>
      let dwidth := if d.dwidth = 0 then 6 else d.dwidth
      let o := pd F a.double d.width dwidth d.padc (ch.setWidth 32) { s.out with retval := 0 }
      s.took { o with retval := s.out.retval + o.retval }
  | .other => s.unknown P fmt percent

/-- One character; `none` is the `return`. -/
def step (s : Printf) : Option Printf :=
  let ch := fmt s.fmt
  match s.mode with
  | .text =>
    if ch ≠ (chr '%').setWidth 8 ∨ s.stop = true then
      if ch = 0 then none
      else some { s with fmt := s.fmt + 1, out := pchar s.out (ch.setWidth 32) }
    else some (s.reswitch s.fmt {})
  | .directive percent d => some (directiveStep P fmt args s percent d)
  | .number percent d n =>
    if labelOf ch = .zero ∨ labelOf ch = .digit then
      some { s with fmt := s.fmt + 1, mode := .number percent d (n * 10 + digitOf ch) }
    else
      some { s with
        mode := .directive percent
          (if d.dot then { d with dwidth := n } else { d with width := n }) }

/-- The format that stands for a null pointer. -/
def fmtNull (i : Nat) : Byte := BitVec.ofNat 8 (("(fmt null)\n".toList.getD i '\x00').toNat)

/-- The state at the beginning. -/
def Printf.start : Printf where
  fmt := 0
  mode := .text
  ap := 0
  stop := false
  out := ⟨[], 0⟩
  stored := []

/-- The state after a number of characters. -/
def after : Nat → Option Printf
  | 0 => some .start
  | n + 1 => (after n).bind (step P fmt args)

/-- `_xvprintf` returns in the state `s`. -/
def Returns (s : Printf) : Prop := ∃ n, after P fmt args n = some s ∧ step P fmt args s = none

end Walk

end Libc
end F32c
