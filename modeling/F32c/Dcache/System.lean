import F32c.Dcache.Cache
import F32c.Ring

/-!
# The cache between a processor and a memory

The MEM stage of the processor presents one access at a time and takes the next
one when `MEM_running` holds.  `MEM_WB_mem_data` is loaded when an access leaves
the stage, and again in every clock of a D-cache wait, so the word a load
returns is the one there when the wait is over.

The memory acknowledges a request by a ready clock; which clocks are ready, and
the data lines while they carry no answer, are inputs of the run.
-/

namespace F32c
namespace Dcache

/-- The bits of the byte lanes selected by `sel`. -/
def laneMask (sel : BitVec 4) : Word :=
  (if sel.getLsbD 0 then 0x000000ff#32 else 0#32) |||
    (if sel.getLsbD 1 then 0x0000ff00#32 else 0#32) |||
    (if sel.getLsbD 2 then 0x00ff0000#32 else 0#32) |||
    (if sel.getLsbD 3 then 0xff000000#32 else 0#32)

/-- Overwrite the selected byte lanes of a word. -/
def merge (sel : BitVec 4) (old new : Word) : Word :=
  (old &&& ~~~(laneMask sel)) ||| (new &&& laneMask sel)

theorem merge_full (old new : Word) : merge 0b1111#4 old new = new := by
  have h : laneMask 0b1111#4 = BitVec.allOnes 32 := by decide
  rw [merge, h, BitVec.not_allOnes, BitVec.and_zero, BitVec.zero_or, BitVec.and_allOnes]

/-- A memory of words. -/
abbrev Memory := Addr → Word

def Memory.store (m : Memory) (e : Slot) : Memory :=
  Function.update m e.addr (merge e.byteSel (m e.addr) e.data)

/-- Stores performed in order. -/
def Memory.storeAll (m : Memory) (es : List Slot) : Memory :=
  es.foldl Memory.store m

theorem Memory.storeAll_append (m : Memory) (es fs : List Slot) :
    m.storeAll (es ++ fs) = (m.storeAll es).storeAll fs := by
  simp [Memory.storeAll]

def Op.isLoad (op : Op) : Bool := op.strobe && !op.write

def Op.isStore (op : Op) : Bool := op.strobe && op.write

/-- The store an access asks for. -/
def Op.slot (op : Op) : Slot where
  addr := op.addr
  byteSel := op.byteSel
  data := op.dataOut

/-- The stores of a program, in program order. -/
def stores (ops : List Op) : List Slot :=
  (ops.filter Op.isStore).map Op.slot

/-- The flat memory after a sequence of accesses. -/
def flat (init : Memory) (ops : List Op) : Memory :=
  init.storeAll (stores ops)

theorem flat_append (init : Memory) (ops : List Op) (op : Op) :
    flat init (ops ++ [op]) =
      if op.isStore then (flat init ops).store op.slot else flat init ops := by
  unfold flat stores
  rw [List.filter_append, List.map_append, Memory.storeAll_append]
  by_cases h : op.isStore = true <;> simp [h, Memory.storeAll]

/-- The address lies in the window of the memory that the tags cover. -/
def Config.InWindow (c : Config) (a : Addr) : Prop :=
  dCacheable c a = true ∧
    a.toNat / 2 ^ (c.cachedAddrBits - 2) =
      (c.xramBase.toNat * 2 ^ 26) / 2 ^ (c.cachedAddrBits - 2)

/-- What the processor promises: cached accesses stay in the window, a flush does not write. -/
structure Op.Ok (c : Config) (op : Op) : Prop where
  window : dCacheable c op.addr = true → c.InWindow op.addr
  flush : op.flushDLine = true → op.write = false

/-- Processor, cache and memory; `ops` are the accesses that have left the MEM stage. -/
structure System where
  cache : State
  op : Op
  memData : Word
  mem : Memory
  ops : List Op

/-- Inputs of a clock: the acknowledge, the idle data lines, the next access of the program. -/
structure Input where
  ready : Bool
  lines : Word
  next : Op

section Step

variable (c : Config)

/-- The data lines carry the word of an acknowledged read. -/
def System.dataIn (y : System) (i : Input) : Word :=
  if dmemAddrStrobe c y.cache y.op && i.ready && !dmemWrite c y.cache y.op then
    y.mem (dmemAddr c y.cache y.op)
  else i.lines

def System.memRunning (y : System) (i : Input) : Bool :=
  !cpuDWait c y.cache && (!y.op.strobe || cpuDReady c y.cache y.op i.ready)

def System.step (y : System) (i : Input) : System :=
  let run := y.memRunning c i
  { cache := Dcache.step c y.cache y.op i.ready (y.dataIn c i)
    op := if run then i.next else y.op
    memData :=
      if run || cpuDWait c y.cache then cpuDDataIn c y.cache y.op (y.dataIn c i) else y.memData
    mem :=
      if dmemAddrStrobe c y.cache y.op && i.ready && dmemWrite c y.cache y.op then
        y.mem.store
          { addr := dmemAddr c y.cache y.op
            byteSel := dmemByteSel y.cache y.op
            data := dmemDataOut y.cache y.op }
      else y.mem
    ops := if run then y.ops ++ [y.op] else y.ops }

end Step

/-- The pending stores, oldest first. -/
def queue (c : Config) (s : State) : List Slot :=
  Ring.contents (c.storeBufferSlots + 1) s.sb s.sbTail s.sbQueued

/-- An empty cache and an empty store buffer; the other registers may hold anything. -/
structure State.Init (c : Config) (s : State) : Prop where
  lines : ∀ k, (s.bram k).valid = false
  idle : s.cacheableCycle = false
  head : s.sbHead = 0
  tail : s.sbTail = 0
  queued : s.sbQueued = 0
  empty : s.sbEmpty = true
  full : s.sbFull = false

structure System.Init (c : Config) (y : System) : Prop where
  cache : y.cache.Init c
  op : y.op.Ok c
  ops : y.ops = []

end Dcache
end F32c
