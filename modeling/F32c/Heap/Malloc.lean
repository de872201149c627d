import Mathlib.Data.List.Basic
import Mathlib.Tactic

/-!
# The heap allocator

This module embeds `malloc_init`, `free`, `malloc`, `realloc` and `calloc` of
`stdlib/malloc.c`.  The heap is an array of words, named by their index from the
start of the heap; a pointer is the index of the first word of a payload.

`malloc_init` is given the number of words `off` that its probing loop found: the
loop restores the words it touches, apart from the first one, which is written
afterwards.
-/

namespace F32c
namespace Heap

abbrev Word := BitVec 32
abbrev Byte := BitVec 8
abbrev Mem := Nat → Word

section Headers

/-- `GET_LEN`. -/
def getLen (w : Word) : Nat := (w &&& ~~~0x80000000#32).toNat

/-- `IS_FREE`. -/
def isFree (w : Word) : Bool := w &&& 0x80000000#32 != 0#32

/-- `SET_FREE`. -/
def setFree (w : Word) : Word := w ||| 0x80000000#32

end Headers

section Bytes

def setByte (w : Word) (k : Nat) (b : Byte) : Word :=
  (w &&& ~~~(0xff#32 <<< (8 * k))) ||| (b.setWidth 32 <<< (8 * k))

def readByte (mem : Mem) (a : Nat) : Byte :=
  (mem (a / 4) >>> (8 * (a % 4))).setWidth 8

def writeByte (mem : Mem) (a : Nat) (b : Byte) : Mem :=
  Function.update mem (a / 4) (setByte (mem (a / 4)) (a % 4) b)

/-- `memcpy` of `n` bytes between two pointers. -/
def memcpy (mem : Mem) (dst src : Nat) : Nat → Mem
  | 0 => mem
  | n + 1 =>
      let m := memcpy mem dst src n
      writeByte m (4 * dst + n) (readByte m (4 * src + n))

/-- `bzero` of `n` bytes at a pointer. -/
def bzero (mem : Mem) (dst : Nat) : Nat → Mem
  | 0 => mem
  | n + 1 => writeByte (bzero mem dst n) (4 * dst + n) 0#8

end Bytes

/-- Where the heap is in memory, as a word address, and what the probing found. -/
structure Layout where
  heap : BitVec 30
  off : Word

/-- Ways in which a call does not return. -/
inductive Fault where
  /-- `free` prints a message and exits. -/
  | alreadyFree
  /-- A loop has not finished after the given number of rounds. -/
  | running
deriving DecidableEq, Repr

section Calls

variable (l : Layout)
variable (fuel : Nat)

/-- The index of the terminator that `malloc_init` writes. -/
def heapTop : Nat :=
  let heap : Word := l.heap ++ 0#2
  let ramTop := (heap + 4#32 * l.off) - (heap &&& ~~~0x80000000#32)
  let ramTop := if ramTop.msb then ramTop - 0x2000#32 else ramTop - 0x1000#32
  if heap < ramTop then (ramTop - heap).toNat / 4 - 1 else 0

def mallocInit (mem : Mem) : Mem :=
  let i := heapTop l
  Function.update (Function.update mem 0 (setFree (BitVec.ofNat 32 i))) i 0#32

/-- The loop of `free` that merges the block with the free ones behind it. -/
def merge (mem : Mem) (i : Nat) : Nat → Nat → Except Fault Nat
  | 0, _ => .error .running
  | n + 1, len =>
      if isFree (mem (i + len)) then merge mem i n (len + getLen (mem (i + len)))
      else .ok len

def free (mem : Mem) : Option Nat → Except Fault Mem
  | none => .ok mem
  | some ptr =>
      let i := ptr - 1
      if isFree (mem i) then .error .alreadyFree
      else do
        let len ← merge mem i fuel (mem i).toNat
        return Function.update mem i (setFree (BitVec.ofNat 32 len))

/-- The search of `malloc` for the best free block, as its index and length. -/
def scan (mem : Mem) (size : Nat) : Nat → Nat → Option (Nat × Nat) →
    Except Fault (Option (Nat × Nat))
  | 0, _, _ => .error .running
  | n + 1, i, best =>
      let len := getLen (mem i)
      if 0 < len then
        if isFree (mem i) && decide (size ≤ len) && best.all (fun b => decide (len ≤ b.2)) then
          if len = size then .ok (some (i, len)) else scan mem size n (i + len) (some (i, len))
        else scan mem size n (i + len) best
      else .ok best

/-- The state of the allocator; `started` says that `heap` is not NULL. -/
structure Alloc where
  started : Bool
  mem : Mem

/-- The block at `i` of length `len` is taken, and what is left of it stays free. -/
def carve (mem : Mem) (i len size : Nat) : Mem :=
  let mem := Function.update mem i (BitVec.ofNat 32 size)
  if size < len then Function.update mem (i + size) (setFree (BitVec.ofNat 32 (len - size)))
  else mem

def malloc (a : Alloc) (size : Word) : Except Fault (Alloc × Option Nat) :=
  if size = 0#32 then .ok (a, none)
  else do
    let words := (((size + 3#32) >>> 2) + 1#32).toNat
    let mem := if a.started then a.mem else mallocInit l a.mem
    match ← scan mem words fuel 0 none with
    | none => return ({ started := true, mem := mem }, none)
    | some (bestI, bestLen) =>
        return ({ started := true, mem := carve mem bestI bestLen words }, some (bestI + 1))

/-- `realloc` copies the old block if there is one, and a new one. -/
def copyBlock (mem : Mem) (size : Word) : Option Nat → Option Nat → Mem
  | some oldptr, some newptr =>
      let copysize := (getLen (mem (oldptr - 1)) - 1) * 4
      memcpy mem newptr oldptr (if size.toNat < copysize then size.toNat else copysize)
  | _, _ => mem

def realloc (a : Alloc) (oldptr : Option Nat) (size : Word) :
    Except Fault (Alloc × Option Nat) := do
  let (a, newptr) ← malloc l fuel a size
  let mem ← free fuel (copyBlock a.mem size oldptr newptr) oldptr
  return ({ a with mem := mem }, newptr)

def calloc (a : Alloc) (number size : Word) : Except Fault (Alloc × Option Nat) := do
  let len := number * size
  let (a, mem) ← malloc l fuel a len
  match mem with
  | none => return (a, none)
  | some ptr => return ({ a with mem := bzero a.mem ptr len.toNat }, some ptr)

end Calls

section Programs

/-- What a program does with the heap: calls, and stores into its blocks. -/
inductive Op where
  | malloc (size : Word)
  | calloc (number size : Word)
  | realloc (ptr : Option Nat) (size : Word)
  | free (ptr : Option Nat)
  | store (ptr i : Nat) (v : Word)
deriving DecidableEq

/-- The allocator and the pointers that the program owns. -/
structure State extends Alloc where
  live : Finset Nat

/-- The words of the block that a pointer names. -/
def payload (mem : Mem) (ptr : Nat) : Finset Nat :=
  Finset.Ico ptr (ptr - 1 + getLen (mem (ptr - 1)))

def step (l : Layout) (fuel : Nat) (s : State) : Op → Except Fault State
  | .malloc size => do
      let (a, ptr) ← malloc l fuel s.toAlloc size
      return { a with live := s.live ∪ ptr.toFinset }
  | .calloc number size => do
      let (a, ptr) ← calloc l fuel s.toAlloc number size
      return { a with live := s.live ∪ ptr.toFinset }
  | .realloc old size => do
      let (a, ptr) ← realloc l fuel s.toAlloc old size
      return { a with live := (s.live \ old.toFinset) ∪ ptr.toFinset }
  | .free ptr => do
      let mem ← free fuel s.mem ptr
      return { s with mem := mem, live := s.live \ ptr.toFinset }
  | .store _ i v => return { s with mem := Function.update s.mem i v }

/-- The block that an operation is given. -/
def Op.given : Op → Option Nat
  | .malloc _ | .calloc _ _ => none
  | .realloc ptr _ | .free ptr => ptr
  | .store ptr _ _ => some ptr

/-- The number of bytes that an operation asks for. -/
def Op.request : Op → Word
  | .malloc size | .realloc _ size => size
  | .calloc number size => number * size
  | .free _ | .store _ _ _ => 0#32

/-- What a program may do: it names its own blocks and asks for less than `2^32 - 4` bytes. -/
structure Valid (s : State) (op : Op) : Prop where
  given : ∀ ptr ∈ op.given, ptr ∈ s.live
  request : op.request.toNat < 2 ^ 32 - 4
  inside : ∀ ptr i v, op = .store ptr i v → i ∈ payload s.mem ptr

/-- The states of a program that starts with any memory and no blocks. -/
inductive Reachable (l : Layout) (fuel : Nat) : State → Prop
  | initial (mem : Mem) : Reachable l fuel { started := false, mem := mem, live := ∅ }
  | step {s s' : State} {op : Op} (h : Reachable l fuel s) (valid : Valid s op)
      (hs : Heap.step l fuel s op = .ok s') : Reachable l fuel s'

end Programs

end Heap
end F32c
