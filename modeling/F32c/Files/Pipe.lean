import Mathlib.Tactic
import F32c.Clocked
import F32c.Ring

/-!
# Pipes

This module embeds `pipe_read` and `pipe_write` of `sys/pipe.c`.  The calls of
several threads run side by side on the shared ring, each statement that reads or
writes shared data being one step, and between any two steps an end may be
closed, `O_NONBLOCK` may change and a signal may arrive.

Next to the program state the model keeps what the calls returned, and which
bytes entered and left the ring.
-/

namespace F32c
namespace Pipe

abbrev Byte := BitVec 8

def pipeBufsize : Nat := 1 <<< 8

/-- `x & PIPE_BUFMASK` for an index `x`. -/
def bufMask (x : Nat) : Nat := x % pipeBufsize

inductive Errno where
  | epipe | eagain | eintr
deriving DecidableEq, Repr

/-- What a call returns: a number of type `int`, or -1 with `errno`. -/
abbrev Ret := Except Errno Int

/-- The conversion of a count to the `int` that a call returns. -/
def toInt (i : Nat) : Int := (BitVec.ofNat 32 i).toInt

/-- The pipe, its `struct file` and the pending signals (`ts_sigf & 2`) of the tasks. -/
structure Shared where
  sBufHead : Nat := 0
  sBufTail : Nat := 0
  sBuf : Nat → Byte := fun _ => 0#8
  fRefc : Nat := 2
  nonblock : Bool := false
  tsSigf : Nat → Bool := fun _ => false

/-- The next statement of `pipe_write`. -/
inductive WriteAt where
  | loop | test | refc | flags | signal | put | advance
deriving DecidableEq, Repr

/-- A call of `pipe_write` with its local variables; `nbytes` is the length of `buf`. -/
structure WriteCall where
  task : Nat
  buf : List Byte
  short : buf.length < 2 ^ 32
  at_ : WriteAt := .loop
  i : Nat := 0
  bufHeadNext : Nat := 0

/-- The next statement of `pipe_read`. -/
inductive ReadAt where
  | loop | test | refc | flags | signal | take | mask | more
deriving DecidableEq, Repr

/-- A call of `pipe_read`; `got` holds `buf[0..i)`. -/
structure ReadCall where
  task : Nat
  nbytes : BitVec 32
  at_ : ReadAt := .loop
  got : List Byte := []

/-- A call goes on or returns. -/
inductive Outcome (κ : Type) where
  | go (call : κ)
  | ret (value : Ret)

/-- One step of `pipe_write`. -/
def pipeWrite (s : Shared) (w : WriteCall) : Shared × Outcome WriteCall :=
  match w.at_ with
  | .loop =>
      if w.i < w.buf.length then (s, .go { w with at_ := .test })
      else (s, .ret (.ok 0))
  | .test =>
      let next := bufMask (s.sBufHead + 1)
      (s, .go { w with
        bufHeadNext := next
        at_ := if next ≠ s.sBufTail then .put else .refc })
  | .refc =>
      if s.fRefc < 2 then (s, .ret (.error .epipe))
      else (s, .go { w with at_ := .flags })
  | .flags =>
      if s.nonblock then
        if w.i ≠ 0 then (s, .ret (.ok (toInt w.i))) else (s, .ret (.error .eagain))
      else (s, .go { w with at_ := .signal })
  | .signal =>
      if s.tsSigf w.task then
        ({ s with tsSigf := Function.update s.tsSigf w.task false }, .ret (.error .eintr))
      else (s, .go { w with at_ := .test })
  | .put =>
      ({ s with sBuf := Function.update s.sBuf s.sBufHead (w.buf.getD w.i 0#8) },
        .go { w with at_ := .advance })
  | .advance =>
      ({ s with sBufHead := w.bufHeadNext }, .go { w with i := w.i + 1, at_ := .loop })

/-- One step of `pipe_read`. -/
def pipeRead (s : Shared) (r : ReadCall) : Shared × Outcome ReadCall :=
  match r.at_ with
  | .loop =>
      if r.got.length < r.nbytes.toNat then (s, .go { r with at_ := .test })
      else (s, .ret (.ok (toInt r.got.length)))
  | .test =>
      (s, .go { r with at_ := if s.sBufHead ≠ s.sBufTail then .take else .refc })
  | .refc =>
      if s.fRefc < 2 then (s, .ret (.ok 0))
      else (s, .go { r with at_ := .flags })
  | .flags =>
      if s.nonblock then
        if r.got.length ≠ 0 then (s, .ret (.ok (toInt r.got.length)))
        else (s, .ret (.error .eagain))
      else (s, .go { r with at_ := .signal })
  | .signal =>
      if s.tsSigf r.task then
        ({ s with tsSigf := Function.update s.tsSigf r.task false }, .ret (.error .eintr))
      else (s, .go { r with at_ := .test })
  | .take =>
      -- `s_buf_tail` is 256 here after the last entry of the ring, until the next statement
      ({ s with sBufTail := s.sBufTail + 1 },
        .go { r with got := r.got ++ [s.sBuf s.sBufTail], at_ := .mask })
  | .mask =>
      ({ s with sBufTail := bufMask s.sBufTail }, .go { r with at_ := .more })
  | .more =>
      if s.sBufHead ≠ s.sBufTail ∧ r.got.length < r.nbytes.toNat then
        (s, .go { r with at_ := .take })
      else (s, .go { r with at_ := .loop })

/-- A pipe, the calls in progress, the calls that returned, and the bytes that were moved. -/
structure State where
  sh : Shared := {}
  writers : List WriteCall := []
  readers : List ReadCall := []
  writes : List (List Byte × Ret) := []
  reads : List (List Byte × Ret) := []
  placed : List Byte := []
  removed : List Byte := []

inductive Action where
  | write (task : Nat) (buf : List Byte) (short : buf.length < 2 ^ 32)
  | read (task : Nat) (nbytes : BitVec 32)
  | runWrite (k : Nat)
  | runRead (k : Nat)
  | close
  | setNonblock (on : Bool)
  | setSignal (task : Nat) (on : Bool)

/-- A step of the `k`-th write in progress. -/
def runWrite (s : State) (k : Nat) : State :=
  match s.writers[k]? with
  | none => s
  | some w =>
      let placed := if w.at_ = .advance then s.placed ++ [w.buf.getD w.i 0#8] else s.placed
      match pipeWrite s.sh w with
      | (sh, .go w') => { s with sh := sh, writers := s.writers.set k w', placed := placed }
      | (sh, .ret v) =>
          { s with
            sh := sh
            writers := s.writers.eraseIdx k
            writes := s.writes ++ [(w.buf, v)] }

/-- A step of the `k`-th read in progress. -/
def runRead (s : State) (k : Nat) : State :=
  match s.readers[k]? with
  | none => s
  | some r =>
      let removed := if r.at_ = .take then s.removed ++ [s.sh.sBuf s.sh.sBufTail] else s.removed
      match pipeRead s.sh r with
      | (sh, .go r') => { s with sh := sh, readers := s.readers.set k r', removed := removed }
      | (sh, .ret v) =>
          { s with
            sh := sh
            readers := s.readers.eraseIdx k
            reads := s.reads ++ [(r.got, v)] }

/-- One step of the system while an end is open; the last `close` frees the pipe. -/
def openStep (s : State) : Action → State
  | .write task buf short =>
      { s with writers := s.writers ++ [{ task := task, buf := buf, short := short }] }
  | .read task nbytes =>
      { s with readers := s.readers ++ [{ task := task, nbytes := nbytes }] }
  | .runWrite k => runWrite s k
  | .runRead k => runRead s k
  | .close => { s with sh := { s.sh with fRefc := s.sh.fRefc - 1 } }
  | .setNonblock on => { s with sh := { s.sh with nonblock := on } }
  | .setSignal task on =>
      { s with sh := { s.sh with tsSigf := Function.update s.sh.tsSigf task on } }

def step (s : State) (a : Action) : State :=
  if s.sh.fRefc = 0 then s else openStep s a

section Streams

/-- The bytes that a call reports: as many as it returns. -/
def reportedBytes : List Byte × Ret → List Byte
  | (buf, .ok n) => buf.take n.toNat
  | (_, .error _) => []

/-- The bytes that the writes report as accepted. -/
def accepted (s : State) : List Byte := (s.writes.map reportedBytes).flatten

/-- The bytes that the reads report. -/
def delivered (s : State) : List Byte := (s.reads.map reportedBytes).flatten

/-- The bytes that the writes in progress have accepted so far. -/
def accepting (s : State) : List Byte := (s.writers.map fun w => w.buf.take w.i).flatten

/-- The bytes that the reads in progress have collected so far. -/
def delivering (s : State) : List Byte := (s.readers.map ReadCall.got).flatten

/-- The number of bytes in the ring. -/
def fill (s : Shared) : Nat :=
  (s.sBufHead + pipeBufsize - bufMask s.sBufTail) % pipeBufsize

/-- The bytes in the ring, oldest first. -/
def buffered (s : Shared) : List Byte :=
  Ring.contents pipeBufsize s.sBuf (bufMask s.sBufTail) (fill s)

/-- Every byte is accounted for, in order. -/
structure Integrity (s : State) : Prop where
  stream : delivered s <+: accepted s ++ accepting s
  removed : s.removed = delivered s ++ delivering s
  placed : s.placed = accepted s ++ accepting s
  ring : s.placed = s.removed ++ buffered s.sh
  capacity : (buffered s.sh).length ≤ pipeBufsize - 1

end Streams

section Ring

variable {s : Shared}

theorem pipeBufsize_eq : pipeBufsize = 256 := by
  rfl

/-- The head is behind the last byte of the ring. -/
theorem head_eq (hhead : s.sBufHead < pipeBufsize) :
    s.sBufHead = (bufMask s.sBufTail + fill s) % pipeBufsize := by
  simp only [fill, bufMask, pipeBufsize_eq] at *
  omega

/-- A ring with room, as `pipe_write` tests it. -/
theorem fill_of_room (hhead : s.sBufHead < pipeBufsize) (htail : s.sBufTail ≤ pipeBufsize)
    (hwindow : ¬(s.sBufTail = pipeBufsize ∧ s.sBufHead = pipeBufsize - 1))
    (hroom : bufMask (s.sBufHead + 1) ≠ s.sBufTail) : fill s < pipeBufsize - 1 := by
  simp only [fill, bufMask, pipeBufsize_eq] at *
  omega

/-- A ring that is not empty, as `pipe_read` tests it. -/
theorem fill_pos (hhead : s.sBufHead < pipeBufsize) (htail : s.sBufTail < pipeBufsize)
    (hne : s.sBufHead ≠ s.sBufTail) : 0 < fill s := by
  simp only [fill, bufMask, pipeBufsize_eq] at *
  omega

theorem buffered_put (hhead : s.sBufHead < pipeBufsize) (x : Byte) :
    buffered { s with sBuf := Function.update s.sBuf s.sBufHead x } = buffered s := by
  have hfill : fill s < pipeBufsize := Nat.mod_lt _ (by decide)
  have hpush := Ring.contents_push s.sBuf (bufMask s.sBufTail) hfill x
  rw [← head_eq hhead, Ring.contents, List.range_succ, List.map_append] at hpush
  exact (List.append_inj hpush (by simp)).1

theorem fill_advance (hhead : s.sBufHead < pipeBufsize) (hroom : fill s < pipeBufsize - 1) :
    fill { s with sBufHead := bufMask (s.sBufHead + 1) } = fill s + 1 := by
  simp only [fill, bufMask, pipeBufsize_eq] at *
  omega

theorem buffered_advance (hhead : s.sBufHead < pipeBufsize) (hroom : fill s < pipeBufsize - 1) :
    buffered { s with sBufHead := bufMask (s.sBufHead + 1) } =
      buffered s ++ [s.sBuf s.sBufHead] := by
  rw [buffered, fill_advance hhead hroom, Ring.contents, List.range_succ, List.map_append]
  simp only [List.map_cons, List.map_nil, ← head_eq hhead]
  rfl

theorem fill_take (htail : s.sBufTail < pipeBufsize) (hpos : 0 < fill s) :
    fill s = fill { s with sBufTail := s.sBufTail + 1 } + 1 := by
  simp only [fill, bufMask, pipeBufsize_eq] at *
  omega

theorem buffered_take (htail : s.sBufTail < pipeBufsize) (hpos : 0 < fill s) :
    buffered s = s.sBuf s.sBufTail :: buffered { s with sBufTail := s.sBufTail + 1 } := by
  have hmask : bufMask s.sBufTail = s.sBufTail := Nat.mod_eq_of_lt htail
  rw [buffered, fill_take htail hpos, Ring.contents_succ, hmask, Nat.mod_eq_of_lt htail]
  rfl

theorem fill_mask : fill { s with sBufTail := bufMask s.sBufTail } = fill s := by
  simp only [fill, bufMask, Nat.mod_mod]

theorem buffered_mask : buffered { s with sBufTail := bufMask s.sBufTail } = buffered s := by
  rw [buffered, fill_mask]
  simp only [bufMask, Nat.mod_mod]
  rfl

end Ring

section Runs

/-- A step of a write does not lose the count of the bytes it placed. -/
def WriteSound (s : Shared) (w : WriteCall) : Prop :=
  match w.at_ with
  | .loop => w.i = w.buf.length → w.i = 0
  | .test => ¬(s.sBufTail = pipeBufsize ∧ s.sBufHead = pipeBufsize - 1)
  | .refc => s.fRefc < 2 → w.i = 0
  | .flags => s.nonblock = true → w.i < 2 ^ 31
  | .signal => s.tsSigf w.task = true → w.i = 0
  | _ => True

/-- A step of a read does not lose the count of the bytes it removed. -/
def ReadSound (s : Shared) (r : ReadCall) : Prop :=
  match r.at_ with
  | .loop => r.got.length = r.nbytes.toNat → r.got.length < 2 ^ 31
  | .refc => s.fRefc < 2 → r.got = []
  | .flags => s.nonblock = true → r.got.length < 2 ^ 31
  | .signal => s.tsSigf r.task = true → r.got = []
  | _ => True

instance (s : Shared) : (w : WriteCall) → Decidable (WriteSound s w)
  | ⟨_, buf, _, at_, i, _⟩ =>
      match at_ with
      | .loop => inferInstanceAs (Decidable (i = buf.length → i = 0))
      | .test => inferInstanceAs (Decidable (¬(s.sBufTail = pipeBufsize ∧ _)))
      | .refc => inferInstanceAs (Decidable (s.fRefc < 2 → i = 0))
      | .flags => inferInstanceAs (Decidable (s.nonblock = true → i < 2 ^ 31))
      | .signal => inferInstanceAs (Decidable (s.tsSigf _ = true → i = 0))
      | .put | .advance => inferInstanceAs (Decidable True)

instance (s : Shared) : (r : ReadCall) → Decidable (ReadSound s r)
  | ⟨_, nbytes, at_, got⟩ =>
      match at_ with
      | .loop => inferInstanceAs (Decidable (got.length = nbytes.toNat → got.length < 2 ^ 31))
      | .refc => inferInstanceAs (Decidable (s.fRefc < 2 → got = []))
      | .flags => inferInstanceAs (Decidable (s.nonblock = true → got.length < 2 ^ 31))
      | .signal => inferInstanceAs (Decidable (s.tsSigf _ = true → got = []))
      | .test | .take | .mask | .more => inferInstanceAs (Decidable True)

/-- The steps that keep the streams intact. -/
def Sound (s : State) : Action → Prop
  | .write _ _ _ => s.writers = []
  | .read _ _ => s.readers = []
  | .runWrite k => ∀ w ∈ s.writers[k]?, WriteSound s.sh w
  | .runRead k => ∀ r ∈ s.readers[k]?, ReadSound s.sh r
  | .close | .setNonblock _ | .setSignal _ _ => True

instance (s : State) : (a : Action) → Decidable (Sound s a)
  | .write _ _ _ => decidable_of_iff (s.writers.isEmpty = true) List.isEmpty_iff
  | .read _ _ => decidable_of_iff (s.readers.isEmpty = true) List.isEmpty_iff
  | .runWrite k => inferInstanceAs (Decidable (∀ w ∈ s.writers[k]?, _))
  | .runRead k => inferInstanceAs (Decidable (∀ r ∈ s.readers[k]?, _))
  | .close | .setNonblock _ | .setSignal _ _ => inferInstanceAs (Decidable True)

/-- Facts about a write in progress. -/
structure WriteInv (s : Shared) (w : WriteCall) : Prop where
  bound : w.i ≤ w.buf.length
  inside : w.at_ ≠ .loop → w.i < w.buf.length
  next : w.at_ = .put ∨ w.at_ = .advance →
    w.bufHeadNext = bufMask (s.sBufHead + 1) ∧ fill s < pipeBufsize - 1
  byte : w.at_ = .advance → s.sBuf s.sBufHead = w.buf.getD w.i 0#8

/-- Facts about a read in progress. -/
structure ReadInv (s : Shared) (r : ReadCall) : Prop where
  bound : r.got.length ≤ r.nbytes.toNat
  inside : r.at_ ≠ .loop → r.at_ ≠ .mask → r.at_ ≠ .more → r.got.length < r.nbytes.toNat
  take : r.at_ = .take → 0 < fill s
  tail : r.at_ ≠ .mask → s.sBufTail < pipeBufsize

/-- The invariant of the runs whose steps are all sound. -/
structure Inv (s : State) : Prop where
  head : s.sh.sBufHead < pipeBufsize
  tail : s.sh.sBufTail ≤ pipeBufsize
  settled : s.readers = [] → s.sh.sBufTail < pipeBufsize
  writers : s.writers.length ≤ 1
  readers : s.readers.length ≤ 1
  writeInv : ∀ w ∈ s.writers, WriteInv s.sh w
  readInv : ∀ r ∈ s.readers, ReadInv s.sh r
  removed : s.removed = delivered s ++ delivering s
  placed : s.placed = accepted s ++ accepting s
  ring : s.placed = s.removed ++ buffered s.sh

theorem length_buffered (s : Shared) : (buffered s).length ≤ pipeBufsize - 1 := by
  rw [buffered, Ring.length_contents, fill]
  have := Nat.mod_lt (s.sBufHead + pipeBufsize - bufMask s.sBufTail)
    (show 0 < pipeBufsize by decide)
  omega

theorem Inv.integrity {s : State} (h : Inv s) : Integrity s := by
  refine ⟨?_, h.removed, h.placed, h.ring, length_buffered s.sh⟩
  rw [← h.placed, h.ring, h.removed, List.append_assoc]
  exact List.prefix_append _ _

variable {s : State}

/-- The only call in progress at one end. -/
theorem eq_singleton {κ : Type} {calls : List κ} {k : Nat} {x : κ} (hlen : calls.length ≤ 1)
    (hx : calls[k]? = some x) : k = 0 ∧ calls = [x] := by
  obtain ⟨hk, rfl⟩ := List.getElem?_eq_some_iff.mp hx
  have hk0 : k = 0 := by omega
  subst hk0
  obtain ⟨y, rfl⟩ := List.length_eq_one_iff.mp (show calls.length = 1 by omega)
  exact ⟨rfl, rfl⟩

/-- A write goes on, having placed the bytes `xs`. -/
theorem Inv.write_go (h : Inv s) {w w' : WriteCall} {sh : Shared} {xs : List Byte}
    (hw : s.writers = [w]) (hhead : sh.sBufHead < pipeBufsize)
    (htail : sh.sBufTail = s.sh.sBufTail) (hfill : fill s.sh ≤ fill sh)
    (hbuf : buffered sh = buffered s.sh ++ xs)
    (hcall : w'.buf.take w'.i = w.buf.take w.i ++ xs) (hinv : WriteInv sh w') :
    Inv { s with sh := sh, writers := [w'], placed := s.placed ++ xs } where
  head := hhead
  tail := by rw [htail]; exact h.tail
  settled hr := by rw [htail]; exact h.settled hr
  writers := Nat.le_refl 1
  readers := h.readers
  writeInv x hx := by
    rw [List.mem_singleton.mp hx]
    exact hinv
  readInv r hr := by
    obtain ⟨hbound, hinside, htake, hread⟩ := h.readInv r hr
    exact ⟨hbound, hinside, fun ha => Nat.lt_of_lt_of_le (htake ha) hfill,
      fun ha => by rw [htail]; exact hread ha⟩
  removed := h.removed
  placed := by
    have hplaced := h.placed
    simp only [accepting, hw] at hplaced
    simp [hplaced, accepting, accepted, hcall]
  ring := by
    show s.placed ++ xs = s.removed ++ buffered sh
    rw [h.ring, hbuf, List.append_assoc]

/-- A write returns and reports what it placed. -/
theorem Inv.write_ret (h : Inv s) {w : WriteCall} {sh : Shared} {v : Ret}
    (hw : s.writers = [w]) (hhead : sh.sBufHead = s.sh.sBufHead)
    (htail : sh.sBufTail = s.sh.sBufTail) (hbuf : sh.sBuf = s.sh.sBuf)
    (hv : reportedBytes (w.buf, v) = w.buf.take w.i) :
    Inv { s with sh := sh, writers := [], writes := s.writes ++ [(w.buf, v)] } where
  head := by rw [hhead]; exact h.head
  tail := by rw [htail]; exact h.tail
  settled hr := by rw [htail]; exact h.settled hr
  writers := Nat.zero_le 1
  readers := h.readers
  writeInv x hx := by simp at hx
  readInv r hr := by
    obtain ⟨hbound, hinside, htake, hread⟩ := h.readInv r hr
    refine ⟨hbound, hinside, fun ha => ?_, fun ha => ?_⟩
    · simpa only [fill, hhead, htail] using htake ha
    · simpa only [htail] using hread ha
  removed := h.removed
  placed := by
    have hplaced := h.placed
    simp only [accepting, hw] at hplaced
    simp [hplaced, accepting, accepted, hv]
  ring := by
    have hsame : buffered sh = buffered s.sh := by
      simp only [buffered, fill, hhead, htail, hbuf]
    show s.placed = s.removed ++ buffered sh
    rw [hsame, h.ring]

/-- A read goes on, having removed the bytes `xs`. -/
theorem Inv.read_go (h : Inv s) {r r' : ReadCall} {sh : Shared} {xs : List Byte}
    (hr : s.readers = [r]) (hhead : sh.sBufHead = s.sh.sBufHead)
    (htail : sh.sBufTail ≤ pipeBufsize) (hmem : sh.sBuf = s.sh.sBuf)
    (hfill : fill sh ≤ fill s.sh) (hbuf : buffered s.sh = xs ++ buffered sh)
    (hcall : r'.got = r.got ++ xs) (hinv : ReadInv sh r') :
    Inv { s with sh := sh, readers := [r'], removed := s.removed ++ xs } where
  head := by rw [hhead]; exact h.head
  tail := htail
  settled hr' := by simp at hr'
  writers := h.writers
  readers := Nat.le_refl 1
  writeInv w hw := by
    obtain ⟨hbound, hinside, hnext, hbyte⟩ := h.writeInv w hw
    refine ⟨hbound, hinside, fun ha => ?_, fun ha => ?_⟩
    · obtain ⟨heq, hlt⟩ := hnext ha
      rw [hhead]
      exact ⟨heq, Nat.lt_of_le_of_lt hfill hlt⟩
    · rw [hmem, hhead]
      exact hbyte ha
  readInv x hx := by
    rw [List.mem_singleton.mp hx]
    exact hinv
  removed := by
    have hremoved := h.removed
    simp only [delivering, hr] at hremoved
    simp [hremoved, delivering, delivered, hcall]
  placed := h.placed
  ring := by
    show s.placed = (s.removed ++ xs) ++ buffered sh
    rw [h.ring, hbuf, List.append_assoc]

/-- A read returns and reports what it removed. -/
theorem Inv.read_ret (h : Inv s) {r : ReadCall} {sh : Shared} {v : Ret}
    (hr : s.readers = [r]) (hmask : r.at_ ≠ .mask) (hhead : sh.sBufHead = s.sh.sBufHead)
    (htail : sh.sBufTail = s.sh.sBufTail) (hmem : sh.sBuf = s.sh.sBuf)
    (hv : reportedBytes (r.got, v) = r.got) :
    Inv { s with sh := sh, readers := [], reads := s.reads ++ [(r.got, v)] } where
  head := by rw [hhead]; exact h.head
  tail := by rw [htail]; exact h.tail
  settled _ := by
    rw [htail]
    exact (h.readInv r (by simp [hr])).tail hmask
  writers := h.writers
  readers := Nat.zero_le 1
  writeInv w hw := by
    obtain ⟨hbound, hinside, hnext, hbyte⟩ := h.writeInv w hw
    refine ⟨hbound, hinside, fun ha => ?_, fun ha => ?_⟩
    · simpa only [fill, hhead, htail] using hnext ha
    · simpa only [hmem, hhead] using hbyte ha
  readInv x hx := by simp at hx
  removed := by
    have hremoved := h.removed
    simp only [delivering, hr] at hremoved
    simp [hremoved, delivering, delivered, hv]
  placed := h.placed
  ring := by
    have hsame : buffered sh = buffered s.sh := by
      simp only [buffered, fill, hhead, htail, hmem]
    show s.placed = s.removed ++ buffered sh
    rw [hsame, h.ring]

theorem toInt_toNat {i : Nat} (h : i < 2 ^ 31) : (toInt i).toNat = i := by
  have hlt : i < 2 ^ 32 := by omega
  have hnat : (BitVec.ofNat 32 i).toNat = i := by
    rw [BitVec.toNat_ofNat, Nat.mod_eq_of_lt hlt]
  rw [toInt, BitVec.toInt_eq_toNat_of_lt (by omega), hnat]
  rfl

/-- A write goes on without touching the ring. -/
theorem Inv.write_stay (h : Inv s) {w w' : WriteCall} (hw : s.writers = [w])
    (hbuf : w'.buf = w.buf) (hi : w'.i = w.i) (hinv : WriteInv s.sh w') :
    Inv { s with writers := s.writers.set 0 w' } := by
  have hgo : Inv { s with sh := s.sh, writers := [w'], placed := s.placed ++ [] } :=
    h.write_go hw h.head rfl (Nat.le_refl _) (List.append_nil _).symm
      (by rw [hbuf, hi, List.append_nil]) hinv
  simpa only [hw, List.set_cons_zero, List.append_nil] using hgo

theorem inv_runWrite (h : Inv s) {k : Nat} (hsound : Sound s (.runWrite k)) :
    Inv (runWrite s k) := by
  cases hk : s.writers[k]? with
  | none =>
      simpa only [runWrite, hk] using h
  | some w =>
      obtain ⟨rfl, hw⟩ := eq_singleton h.writers hk
      have hok := hsound w hk
      obtain ⟨hbound, hinside, hnext, hbyte⟩ := h.writeInv w (by simp [hw])
      simp only [runWrite, hk, pipeWrite]
      cases hat : w.at_ <;>
        simp only [WriteSound, hat, reduceCtorEq, if_false, if_true] at hok hinside hnext hbyte ⊢
      case loop =>
          split_ifs with hi
          · exact h.write_stay hw rfl rfl ⟨hbound, fun _ => hi, by simp, by simp⟩
          · have hzero := hok (by omega)
            simp only [hw, List.eraseIdx_cons_zero]
            exact h.write_ret hw rfl rfl rfl (by simp [reportedBytes, hzero])
      case test =>
          have hi := hinside (by simp)
          refine h.write_stay hw rfl rfl ⟨hbound, fun _ => hi, fun hput => ⟨rfl, ?_⟩, ?_⟩
          · apply fill_of_room h.head h.tail hok
            by_contra heq
            simp [heq] at hput
          · intro hadv
            split_ifs at hadv
      case refc =>
          split_ifs with hrefc
          · simp only [hw, List.eraseIdx_cons_zero]
            exact h.write_ret hw rfl rfl rfl (by simp [reportedBytes, hok hrefc])
          · exact h.write_stay hw rfl rfl ⟨hbound, fun _ => hinside (by simp), by simp, by simp⟩
      case flags =>
          split_ifs with hnb hi
          · simp only [hw, List.eraseIdx_cons_zero]
            exact h.write_ret hw rfl rfl rfl (by simp [reportedBytes, toInt_toNat (hok hnb)])
          · simp only [hw, List.eraseIdx_cons_zero]
            exact h.write_ret hw rfl rfl rfl (by simp [reportedBytes, not_not.mp hi])
          · exact h.write_stay hw rfl rfl ⟨hbound, fun _ => hinside (by simp), by simp, by simp⟩
      case signal =>
          split_ifs with hsig
          · simp only [hw, List.eraseIdx_cons_zero]
            exact h.write_ret hw rfl rfl rfl (by simp [reportedBytes, hok hsig])
          · exact h.write_stay hw rfl rfl ⟨hbound, fun _ => hinside (by simp), by simp, by simp⟩
      case put =>
          obtain ⟨hn, hfill⟩ := hnext (by simp)
          have hgo : Inv { s with
              sh := { s.sh with
                sBuf := Function.update s.sh.sBuf s.sh.sBufHead (w.buf.getD w.i 0#8) }
              writers := [{ w with at_ := .advance }]
              placed := s.placed ++ [] } := by
            refine h.write_go hw h.head rfl (Nat.le_refl _) ?_ (List.append_nil _).symm ?_
            · rw [buffered_put h.head, List.append_nil]
            · exact ⟨hbound, fun _ => hinside (by simp), fun _ => ⟨hn, hfill⟩, fun _ => by simp⟩
          simpa only [hw, List.set_cons_zero, List.append_nil] using hgo
      case advance =>
          obtain ⟨hn, hfill⟩ := hnext (by simp)
          have hi := hinside (by simp)
          have hgo : Inv { s with
              sh := { s.sh with sBufHead := bufMask (s.sh.sBufHead + 1) }
              writers := [{ w with
                i := w.i + 1, at_ := .loop, bufHeadNext := bufMask (s.sh.sBufHead + 1) }]
              placed := s.placed ++ [w.buf.getD w.i 0#8] } := by
            refine h.write_go hw (Nat.mod_lt _ (by decide)) rfl ?_ ?_ ?_ ?_
            · rw [fill_advance h.head hfill]
              exact Nat.le_succ _
            · rw [buffered_advance h.head hfill, hbyte trivial]
            · rw [List.take_succ_eq_append_getElem hi, List.getD_eq_getElem?_getD,
                List.getElem?_eq_getElem hi, Option.getD_some]
            · exact ⟨hi, by simp, by simp, by simp⟩
          simpa only [hw, hn, List.set_cons_zero] using hgo

/-- A read goes on without touching the ring. -/
theorem Inv.read_stay (h : Inv s) {r r' : ReadCall} (hr : s.readers = [r])
    (hgot : r'.got = r.got) (hinv : ReadInv s.sh r') :
    Inv { s with readers := s.readers.set 0 r' } := by
  have hgo : Inv { s with sh := s.sh, readers := [r'], removed := s.removed ++ [] } :=
    h.read_go hr rfl h.tail rfl (Nat.le_refl _) rfl (by rw [hgot, List.append_nil]) hinv
  simpa only [hr, List.set_cons_zero, List.append_nil] using hgo

theorem inv_runRead (h : Inv s) {k : Nat} (hsound : Sound s (.runRead k)) :
    Inv (runRead s k) := by
  cases hk : s.readers[k]? with
  | none =>
      simpa only [runRead, hk] using h
  | some r =>
      obtain ⟨rfl, hr⟩ := eq_singleton h.readers hk
      have hok := hsound r hk
      obtain ⟨hbound, hinside, htake, htail⟩ := h.readInv r (by simp [hr])
      simp only [runRead, hk, pipeRead]
      cases hat : r.at_ <;>
        simp only [ReadSound, hat, reduceCtorEq, if_false, if_true] at hok hinside htake htail ⊢
      case loop =>
          split_ifs with hi
          · exact h.read_stay hr rfl ⟨hbound, fun _ _ _ => hi, by simp, fun _ => htail (by simp)⟩
          · simp only [hr, List.eraseIdx_cons_zero]
            refine h.read_ret hr (by simp [hat]) rfl rfl rfl ?_
            simp [reportedBytes, toInt_toNat (hok (by omega))]
      case test =>
          have hi := hinside (by simp) (by simp) (by simp)
          have ht := htail (by simp)
          refine h.read_stay hr rfl ⟨hbound, fun _ _ _ => hi, fun hgo => ?_, fun _ => ht⟩
          apply fill_pos h.head ht
          by_contra heq
          simp [heq] at hgo
      case refc =>
          split_ifs with hrefc
          · simp only [hr, List.eraseIdx_cons_zero]
            exact h.read_ret hr (by simp [hat]) rfl rfl rfl (by simp [reportedBytes, hok hrefc])
          · exact h.read_stay hr rfl
              ⟨hbound, fun _ _ _ => hinside (by simp) (by simp) (by simp), by simp,
                fun _ => htail (by simp)⟩
      case flags =>
          split_ifs with hnb hi
          · simp only [hr, List.eraseIdx_cons_zero]
            exact h.read_ret hr (by simp [hat]) rfl rfl rfl
              (by simp [reportedBytes, toInt_toNat (hok hnb)])
          · simp only [hr, List.eraseIdx_cons_zero]
            exact h.read_ret hr (by simp [hat]) rfl rfl rfl
              (List.length_eq_zero_iff.mp (not_not.mp hi)).symm
          · exact h.read_stay hr rfl
              ⟨hbound, fun _ _ _ => hinside (by simp) (by simp) (by simp), by simp,
                fun _ => htail (by simp)⟩
      case signal =>
          split_ifs with hsig
          · simp only [hr, List.eraseIdx_cons_zero]
            exact h.read_ret hr (by simp [hat]) rfl rfl rfl (hok hsig).symm
          · exact h.read_stay hr rfl
              ⟨hbound, fun _ _ _ => hinside (by simp) (by simp) (by simp), by simp,
                fun _ => htail (by simp)⟩
      case take =>
          have hi := hinside (by simp) (by simp) (by simp)
          have ht := htail (by simp)
          have hpos := htake trivial
          have hgo : Inv { s with
              sh := { s.sh with sBufTail := s.sh.sBufTail + 1 }
              readers := [{ r with got := r.got ++ [s.sh.sBuf s.sh.sBufTail], at_ := .mask }]
              removed := s.removed ++ [s.sh.sBuf s.sh.sBufTail] } := by
            refine h.read_go hr rfl ht rfl ?_ (buffered_take ht hpos) rfl ?_
            · rw [fill_take ht hpos]
              exact Nat.le_succ _
            · exact ⟨by simpa using hi, by simp, by simp, by simp⟩
          simpa only [hr, List.set_cons_zero] using hgo
      case mask =>
          have hgo : Inv { s with
              sh := { s.sh with sBufTail := bufMask s.sh.sBufTail }
              readers := [{ r with at_ := .more }]
              removed := s.removed ++ [] } := by
            have hlt : bufMask s.sh.sBufTail < pipeBufsize := Nat.mod_lt _ (by decide)
            refine h.read_go hr rfl (Nat.le_of_lt hlt) rfl (Nat.le_of_eq fill_mask)
              buffered_mask.symm (List.append_nil _).symm ?_
            exact ⟨hbound, by simp, by simp, fun _ => hlt⟩
          simpa only [hr, List.set_cons_zero, List.append_nil] using hgo
      case more =>
          have ht := htail (by simp)
          split_ifs with hmore
          · exact h.read_stay hr rfl
              ⟨hbound, fun _ _ _ => hmore.2, fun _ => fill_pos h.head ht hmore.1, fun _ => ht⟩
          · exact h.read_stay hr rfl ⟨hbound, by simp, by simp, fun _ => ht⟩

/-- A step that keeps the calls and the ring. -/
theorem inv_environment (h : Inv s) {sh : Shared} (hhead : sh.sBufHead = s.sh.sBufHead)
    (htail : sh.sBufTail = s.sh.sBufTail) (hmem : sh.sBuf = s.sh.sBuf) :
    Inv { s with sh := sh } := by
  have hfill : fill sh = fill s.sh := by simp only [fill, hhead, htail]
  have hbuf : buffered sh = buffered s.sh := by simp only [buffered, hfill, htail, hmem]
  refine ⟨by rw [hhead]; exact h.head, by rw [htail]; exact h.tail, fun hr => ?_, h.writers,
    h.readers, fun w hw => ?_, fun r hr => ?_, h.removed, h.placed, ?_⟩
  · rw [htail]
    exact h.settled hr
  · obtain ⟨hbound, hinside, hnext, hbyte⟩ := h.writeInv w hw
    exact ⟨hbound, hinside, by rwa [hhead, hfill], by rwa [hmem, hhead]⟩
  · obtain ⟨hbound, hinside, htake, hread⟩ := h.readInv r hr
    exact ⟨hbound, hinside, by rwa [hfill], by rwa [htail]⟩
  · show s.placed = s.removed ++ buffered sh
    rw [hbuf, h.ring]

theorem inv_step (h : Inv s) {a : Action} (hsound : Sound s a) : Inv (step s a) := by
  rw [step]
  split_ifs
  · exact h
  · cases a with
    | write task buf short =>
        have hw : s.writers = [] := hsound
        have hplaced := h.placed
        simp only [accepting, hw] at hplaced
        refine ⟨h.head, h.tail, h.settled, by simp [openStep, hw], h.readers, ?_, h.readInv,
          h.removed, ?_, h.ring⟩
        · intro x hx
          simp only [openStep, hw, List.nil_append, List.mem_singleton] at hx
          rw [hx]
          exact ⟨Nat.zero_le _, by simp, by simp, by simp⟩
        · simp [openStep, accepting, hw, hplaced, accepted]
    | read task nbytes =>
        have hr : s.readers = [] := hsound
        have hremoved := h.removed
        simp only [delivering, hr] at hremoved
        refine ⟨h.head, h.tail, fun _ => h.settled hr, h.writers, by simp [openStep, hr],
          h.writeInv, ?_, ?_, h.placed, h.ring⟩
        · intro x hx
          simp only [openStep, hr, List.nil_append, List.mem_singleton] at hx
          rw [hx]
          exact ⟨Nat.zero_le _, by simp, by simp, fun _ => h.settled hr⟩
        · simp [openStep, delivering, hr, hremoved, delivered]
    | runWrite k => exact inv_runWrite h hsound
    | runRead k => exact inv_runRead h hsound
    | close => exact inv_environment h rfl rfl rfl
    | setNonblock on => exact inv_environment h rfl rfl rfl
    | setSignal task on => exact inv_environment h rfl rfl rfl

theorem inv_initial : Inv {} := by
  refine ⟨by decide, by decide, fun _ => by decide, Nat.zero_le 1, Nat.zero_le 1, by simp, by simp,
    rfl, rfl, ?_⟩
  simp [buffered, fill, bufMask, pipeBufsize_eq]

/-- In a run of sound steps every byte is accounted for. -/
theorem pipe_integrity (acts : Nat → Action)
    (hsound : ∀ n, Sound (Clocked.stateAt step {} acts n) (acts n)) (n : Nat) :
    Integrity (Clocked.stateAt step {} acts n) :=
  (Clocked.stateAt_invariant_of Sound inv_initial (fun _ _ hok h => inv_step h hok) hsound
    n).integrity

/-- One byte of a write of two is read, then nothing happens. -/
def oneByteRead : Nat → Action
  | 0 => .write 0 [0x41#8, 0x42#8] (by decide)
  | 1 | 2 | 3 | 4 => .runWrite 0
  | 5 => .read 1 1#32
  | 6 | 7 | 8 | 9 | 10 | 11 => .runRead 0
  | _ => .setNonblock false

theorem pipe_integrity_oneByteRead :
    delivered (Clocked.stateAt step {} oneByteRead 12) = [0x41#8] ∧
      Integrity (Clocked.stateAt step {} oneByteRead 12) := by
  refine ⟨by decide, pipe_integrity oneByteRead (fun n => ?_) 12⟩
  by_cases hn : n < 12
  · interval_cases n <;> decide
  · obtain ⟨d, rfl⟩ := Nat.exists_eq_add_of_le (Nat.le_of_not_lt hn)
    rw [Nat.add_comm]
    exact trivial

/-- A write of one byte that completes. -/
def oneByteWrite : Nat → Action
  | 0 => .write 0 [0x41#8] (by decide)
  | _ => .runWrite 0

/-- It returns 0, so the byte in the ring is not reported. -/
theorem pipe_integrity_oneByteWrite :
    (Clocked.stateAt step {} oneByteWrite 6).writers = [] ∧
      ¬Integrity (Clocked.stateAt step {} oneByteWrite 6) := by
  refine ⟨rfl, fun h => ?_⟩
  exact absurd h.placed (by decide)

end Runs

end Pipe
end F32c
