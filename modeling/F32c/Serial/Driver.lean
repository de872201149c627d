import F32c.Loop
import F32c.Ring
import Mathlib.Tactic

/-!
# The serial driver

`dev/sio.c` and the processing of characters in `sys/tty.c`.  The driver polls: each pass of a
loop of `sio_read` or `sio_write` begins with `sio_probe_rx`, which takes the bytes that have
come from the port.  What it finds there is an input of the model: the bytes with the overruns
that the status tells of, whether the transmitter is busy, and whether a signal has come from
elsewhere.

The bytes are loaded with `LB`, which extends the sign.  The handler of `SIGINT` is supposed to
leave the driver and the task alone.
-/

namespace F32c
namespace Serial

abbrev Byte := BitVec 8
abbrev CInt := BitVec 32

section Tty

/-- The flags of `struct termios` that the driver looks at. -/
structure Termios where
  isig : Bool
  inlcr : Bool
  igncr : Bool
  icrnl : Bool
  ixon : Bool
  onlcr : Bool
deriving DecidableEq

/-- `struct tty`: the settings, and `TTY_OSTOP` and `TTY_IGOTCR` of `t_rflags`. -/
structure Tty where
  termios : Termios
  ostop : Bool := false
  igotcr : Bool := false
deriving DecidableEq

/-- The task: whether there is a handler, and the flags of `ts_sigf`. -/
structure Task where
  sigh : Bool
  interrupt : Bool
  signal : Bool
deriving DecidableEq

/-- `TTY_DO_IPROC` -/
def ttyDoIproc (tty : Tty) (c : CInt) : Bool := c.slt 32 || (126#32).slt c || tty.igotcr

/-- `TTY_DO_OPROC`; the codes below 32 are the same for a signed and an unsigned `char`. -/
def ttyDoOproc (c : Byte) : Bool := c.ult 32

/-- `TTY_OBLOCKED` -/
def ttyOblocked (tty : Option Tty) : Bool := tty.any Tty.ostop

/-- `tty_oexpand`: what it puts in the buffer. -/
def ttyOexpand (tty : Tty) (c : Byte) : List Byte :=
  if c = 0xa then if tty.termios.onlcr then [0xd, c] else [c] else [c]

/-- `tty_iproc` -/
def ttyIproc (tty : Tty) (task : Task) (c : CInt) : CInt × Tty × Task :=
  let gotcr := tty.igotcr
  let tty := { tty with igotcr := false }
  if c = 0x3 then
    if tty.termios.isig then
      (-1, tty, if task.sigh then { task with signal := task.signal || task.interrupt } else task)
    else (c, tty, task)
  else if c = 0xa then
    if gotcr then (-1, tty, task)
    else if tty.termios.inlcr then (0xd, tty, task)
    else (c, tty, task)
  else if c = 0xd then
    if tty.termios.igncr then (-1, tty, task)
    else if tty.termios.icrnl then (0xa, { tty with igotcr := true }, task)
    else (c, tty, task)
  else if c = 0x13 then
    if tty.termios.ixon then (-1, { tty with ostop := true }, task) else (c, tty, task)
  else if c = 0x11 then
    if tty.termios.ixon then (-1, { tty with ostop := false }, task) else (c, tty, task)
  else (c, tty, task)

end Tty

section Probe

/-- `SIO_RXBUFSIZE` -/
abbrev rxbufSize : Nat := 32

/-- `struct sio_state`.  The indices are only set to values under the mask. -/
structure Sio where
  rxbufHead : Fin rxbufSize
  rxbufTail : Fin rxbufSize
  hwRxOverruns : BitVec 16
  swRxOverruns : BitVec 16
  rxbuf : Nat → Byte

/-- `struct file`, and the task. -/
structure File where
  tty : Option Tty
  task : Task
  sio : Sio

/-- The settings at the beginning, without a handler. -/
def sio0 : File where
  tty := some { termios := ⟨true, false, false, true, true, true⟩ }
  task := ⟨false, false, false⟩
  sio := ⟨0, 0, 0, 0, fun _ => 0⟩

/-- A byte that has come, and the overruns in the status. -/
structure Rx where
  overruns : BitVec 4
  data : Byte

/-- What a call of `sio_probe_rx` finds at the port. -/
structure Poll where
  rx : List Rx
  overruns : BitVec 4
  busy : Bool
  signal : Bool

/-- The overruns of a status. -/
def Sio.overrun (sio : Sio) (n : BitVec 4) : Sio :=
  { sio with hwRxOverruns := sio.hwRxOverruns + n.setWidth 16 }

/-- A character for the ring. -/
def Sio.put (sio : Sio) (c : CInt) : Sio :=
  let next := sio.rxbufHead + 1
  if next = sio.rxbufTail then { sio with swRxOverruns := sio.swRxOverruns + 1 }
  else
    { sio with
      rxbuf := Function.update sio.rxbuf sio.rxbufHead (c.setWidth 8)
      rxbufHead := next }

/-- `s_rxbuf_head == s_rxbuf_tail` -/
def Sio.empty (sio : Sio) : Bool := sio.rxbufHead == sio.rxbufTail

/-- A pass of `sio_probe_rx` that finds a byte. -/
def receive (file : File) (rx : Rx) : File :=
  let sio := file.sio.overrun rx.overruns
  let c : CInt := rx.data.signExtend 32
  match file.tty with
  | none => { file with sio := sio.put c }
  | some tty =>
    if ttyDoIproc tty c then
      let (c, tty, task) := ttyIproc tty file.task c
      { tty := some tty, task := task, sio := if c.slt 0 then sio else sio.put c }
    else { file with sio := sio.put c }

/-- `sio_probe_rx`; the result is `busy`. -/
def sioProbeRx (file : File) (p : Poll) : File :=
  let file := p.rx.foldl receive file
  { file with
    sio := file.sio.overrun p.overruns
    task := { file.task with signal := file.task.signal || p.signal } }

end Probe

section Calls

inductive Errno where
  | eagain | eintr
deriving DecidableEq

/-- `task->ts_sigf &= ~2` -/
def File.clearSignal (file : File) : File :=
  { file with task := { file.task with signal := false } }

/-- The variables of `sio_read`: `cbuf[0..i)` has been filled. -/
structure ReadState where
  file : File
  cbuf : List Byte

/-- What `sio_read` returns, and leaves. -/
structure ReadResult where
  ret : Int
  errno : Option Errno
  cbuf : List Byte
  file : File

/-- The loop that empties the ring; `n` is how many bytes are still asked for. -/
def drain : Nat → Sio → List Byte × Sio
  | 0, sio => ([], sio)
  | n + 1, sio =>
    let b := sio.rxbuf sio.rxbufTail
    let sio := { sio with rxbufTail := sio.rxbufTail + 1 }
    if sio.empty then ([b], sio)
    else
      let (bs, sio) := drain n sio
      (b :: bs, sio)

/-- The test of `sio_read`. -/
def readRet (nbytes : Nat) (s : ReadState) : Option ReadResult :=
  if s.cbuf.length < nbytes then none else some ⟨s.cbuf.length, none, s.cbuf, s.file⟩

/-- A pass of `sio_read`, as far as the next call of `sio_probe_rx`. -/
def readStep (nonblock : Bool) (nbytes : Nat) (s : ReadState) (p : Poll) :
    ReadState ⊕ ReadResult :=
  let file := sioProbeRx s.file p
  if file.sio.empty then
    if nonblock then
      if s.cbuf.length ≠ 0 then .inr ⟨s.cbuf.length, none, s.cbuf, file⟩
      else .inr ⟨-1, some .eagain, s.cbuf, file⟩
    else if file.task.signal then .inr ⟨-1, some .eintr, s.cbuf, file.clearSignal⟩
    else .inl { s with file := file }
  else
    let (bs, sio) := drain (nbytes - s.cbuf.length) file.sio
    .inl { file := { file with sio := sio }, cbuf := s.cbuf ++ bs }

/-- `sio_read`, with what the calls of `sio_probe_rx` find until it returns. -/
def sioRead (nonblock : Bool) (nbytes : Nat) (polls : List Poll) (file : File) :
    Option ReadResult :=
  Loop.exchange (readRet nbytes) (readStep nonblock nbytes) polls ⟨file, []⟩

/-- The variables of `sio_write`: `pending` is `tios_obuf` from `tios_i` to `tios_n`, and `sent`
what has been stored to the port. -/
structure WriteState where
  file : File
  i : Nat
  pending : List Byte
  sent : List Byte

/-- What `sio_write` returns, and its variables there. -/
structure WriteResult where
  ret : Int
  errno : Option Errno
  last : WriteState

/-- The test of `sio_write`. -/
def writeRet (buf : List Byte) (s : WriteState) : Option WriteResult :=
  if s.i < buf.length ∨ s.pending ≠ [] then none else some ⟨buf.length, none, s⟩

/-- The bytes that a character becomes. -/
def expandOne (tty : Option Tty) (c : Byte) : List Byte :=
  match tty with
  | none => [c]
  | some tty => if ttyDoOproc c then ttyOexpand tty c else [c]

/-- A pass of `sio_write`, as far as the next call of `sio_probe_rx`. -/
def writeStep (nonblock : Bool) (buf : List Byte) (s : WriteState) (p : Poll) :
    WriteState ⊕ WriteResult :=
  let file := sioProbeRx s.file p
  let s := { s with file := file }
  if p.busy || (ttyOblocked file.tty && s.pending.isEmpty) then
    if nonblock then
      if s.i ≠ 0 then .inr ⟨s.i, none, s⟩ else .inr ⟨-1, some .eagain, s⟩
    else if file.task.signal then .inr ⟨-1, some .eintr, { s with file := file.clearSignal }⟩
    else .inl s
  else
    match s.pending with
    | c :: rest => .inl { s with pending := rest, sent := s.sent ++ [c] }
    | [] =>
      match expandOne file.tty (buf.getD s.i 0) with
      | c :: rest => .inl { s with i := s.i + 1, pending := rest, sent := s.sent ++ [c] }
      | [] => .inl { s with i := s.i + 1 }

/-- `sio_write`, with what the calls of `sio_probe_rx` find until it returns. -/
def sioWrite (nonblock : Bool) (buf : List Byte) (polls : List Poll) (file : File) :
    Option WriteResult :=
  Loop.exchange (writeRet buf) (writeStep nonblock buf) polls ⟨file, 0, [], []⟩

end Calls

end Serial
end F32c
