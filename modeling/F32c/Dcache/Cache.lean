import F32c.Clocked
import Mathlib.Tactic

/-!
# The data cache and its store buffer

This module embeds the data side of `f32c_cache` (`rtl/cpu/f32c_cache.vhd`):
the D-cache logic (`G_dcache_logic`), the store buffer (`G_sb`), and the
multiplexers between them, the processor and the data bus.

The block RAM is read on the falling edge, between two rising edges on which it
is written, so the word read within a clock is the one the registers of that
clock select.  `R_d_data_from_bram` is never read and is left out.
-/

namespace F32c
namespace Dcache

/-- Bits 31 to 2 of a byte address. -/
abbrev Addr := BitVec 30

abbrev Word := BitVec 32

/-- Generics, with the ranges the entity asserts. -/
structure Config where
  dAddrBits : Nat
  cachedAddrBits : Nat
  xramBase : BitVec 4
  storeBufferSlots : Nat
  dAddrBits_range : 10 ≤ dAddrBits ∧ dAddrBits ≤ 16
  cachedAddrBits_range : dAddrBits < cachedAddrBits ∧ cachedAddrBits ≤ 32
  slots_range : 1 ≤ storeBufferSlots ∧ storeBufferSlots ≤ 31

/-- The memory access in the MEM stage of the processor. -/
structure Op where
  strobe : Bool
  write : Bool
  byteSel : BitVec 4
  addr : Addr
  dataOut : Word
  flushDLine : Bool
deriving DecidableEq, Repr

/-- A word of the block RAM: the valid bit, the tag and the data. -/
structure Line where
  valid : Bool
  tag : Nat
  data : Word
deriving DecidableEq, Repr

/-- A slot of the store buffer. -/
structure Slot where
  addr : Addr
  byteSel : BitVec 4
  data : Word
deriving DecidableEq, Repr

/-- Registers and memories of the data side. -/
structure State where
  bram : Nat → Line
  tagValid : Bool
  tag : Nat
  cacheableCycle : Bool
  fetchDone : Bool
  rdAddr : Addr
  sb : Nat → Slot
  sbHead : Nat
  sbTail : Nat
  sbQueued : Nat
  sbEmpty : Bool
  sbFull : Bool

section Combinational

variable (c : Config)

/-- `addr(C_d_addr_bits - 1 downto 2)`. -/
def index (a : Addr) : Nat := a.toNat % 2 ^ (c.dAddrBits - 2)

/-- `addr(C_cached_addr_bits - 1 downto C_d_addr_bits)`. -/
def tagOf (a : Addr) : Nat :=
  a.toNat / 2 ^ (c.dAddrBits - 2) % 2 ^ (c.cachedAddrBits - c.dAddrBits)

def dCacheable (a : Addr) : Bool :=
  a.extractLsb' 26 4 == c.xramBase

def dMissCycle (s : State) : Bool :=
  s.cacheableCycle && !s.fetchDone && !(s.tagValid && s.tag == tagOf c s.rdAddr)

def dRdAddr (s : State) (op : Op) : Nat :=
  if dMissCycle c s then index c s.rdAddr else index c op.addr

def dFromBram (s : State) (op : Op) : Line :=
  s.bram (dRdAddr c s op)

def dToBram (s : State) (op : Op) (dmemDataIn : Word) : Line :=
  { valid :=
      if op.flushDLine then false
      else dMissCycle c s || op.byteSel == 0b1111#4
    tag := if dMissCycle c s then tagOf c s.rdAddr else tagOf c op.addr
    data := if dMissCycle c s then dmemDataIn else op.dataOut }

def dBramWrEnable (s : State) (op : Op) (dmemDataReady : Bool) : Bool :=
  (dMissCycle c s && dmemDataReady && s.sbEmpty) ||
    (!dMissCycle c s && dCacheable c op.addr && op.write && op.strobe) || op.flushDLine

def dmemAddr (s : State) (op : Op) : Addr :=
  if !s.sbEmpty then (s.sb s.sbTail).addr
  else if dMissCycle c s then s.rdAddr
  else op.addr

def dmemAddrStrobe (s : State) (op : Op) : Bool :=
  if !s.sbEmpty || dMissCycle c s then true
  else if dCacheable c op.addr && !op.write then false
  else op.strobe

def dmemWrite (s : State) (op : Op) : Bool :=
  if !s.sbEmpty then true
  else if dMissCycle c s then false
  else op.write

def dmemByteSel (s : State) (op : Op) : BitVec 4 :=
  if s.sbEmpty then op.byteSel else (s.sb s.sbTail).byteSel

def dmemDataOut (s : State) (op : Op) : Word :=
  if s.sbEmpty then op.dataOut else (s.sb s.sbTail).data

def cpuDDataIn (s : State) (op : Op) (dmemDataIn : Word) : Word :=
  if dMissCycle c s then dmemDataIn
  else if dCacheable c op.addr then (dFromBram c s op).data
  else dmemDataIn

def cpuDReady (s : State) (op : Op) (dmemDataReady : Bool) : Bool :=
  if dCacheable c op.addr && !op.write then true
  else if !s.sbFull && op.write then true
  else if !s.sbEmpty then false
  else dmemDataReady

def cpuDWait (s : State) : Bool := dMissCycle c s

end Combinational

section Clock

variable (c : Config)

/-- A store enters the buffer. -/
def sbPush (s : State) (op : Op) (dmemDataReady : Bool) : Bool :=
  !s.sbFull && op.strobe && op.write && !dMissCycle c s && (!s.sbEmpty || !dmemDataReady)

/-- The oldest store leaves the buffer. -/
def sbPop (s : State) (dmemDataReady : Bool) : Bool :=
  !s.sbEmpty && dmemDataReady

/-- `R_sb_head` and `R_sb_tail` run over `C_store_buffer_slots + 1` places. -/
def sbNext (k : Nat) : Nat :=
  if c.storeBufferSlots > 1 then
    if k = c.storeBufferSlots then 0 else k + 1
  else k

/-- The process of the D-cache. -/
def stepCache (s : State) (op : Op) (dmemDataReady : Bool) (dmemDataIn : Word) : State :=
  { s with
    bram :=
      if dBramWrEnable c s op dmemDataReady then
        Function.update s.bram
          (if dMissCycle c s then index c s.rdAddr else index c op.addr)
          (dToBram c s op dmemDataIn)
      else s.bram
    tagValid := (dFromBram c s op).valid
    tag := (dFromBram c s op).tag
    fetchDone := s.sbEmpty && dMissCycle c s && dmemDataReady
    rdAddr := if dMissCycle c s then s.rdAddr else op.addr
    cacheableCycle :=
      if dMissCycle c s then s.cacheableCycle
      else dCacheable c op.addr && op.strobe && !op.write }

/-- The process of the store buffer. -/
def stepSb (s : State) (op : Op) (dmemDataReady : Bool) (t : State) : State :=
  let push := sbPush c s op dmemDataReady
  let pop := sbPop s dmemDataReady
  let queued := s.sbQueued + (if push then 1 else 0)
  { t with
    sb :=
      if push then
        Function.update s.sb s.sbHead
          { addr := op.addr, byteSel := op.byteSel, data := op.dataOut }
      else s.sb
    sbHead := if push then sbNext c s.sbHead else s.sbHead
    sbTail := if pop then sbNext c s.sbTail else s.sbTail
    sbQueued := if pop then queued - 1 else queued
    sbEmpty :=
      if pop && queued - 1 == 0 then true
      else if push then false
      else s.sbEmpty
    sbFull :=
      if pop then false
      else if push && s.sbQueued == c.storeBufferSlots - 1 then true
      else s.sbFull }

/-- One rising edge of the clock, reset inactive. -/
def step (s : State) (op : Op) (dmemDataReady : Bool) (dmemDataIn : Word) : State :=
  stepSb c s op dmemDataReady (stepCache c s op dmemDataReady dmemDataIn)

end Clock

end Dcache
end F32c
