import F32c.Core.Pipeline

/-!
# The core behind its instruction cache

This module embeds the instruction side of `f32c_cache` (`rtl/cpu/f32c_cache.vhd`)
and the core it drives.  The block RAM of the cache is addressed by the address
that the core will fetch from next, so the line of that address stands in the
output register of the RAM one clock later, when the address stands in `R_i_addr`.

Of the data side only the register that a D-cache wait comes from is here: what
the tag comparison, the bus and the store buffer answer are inputs.
-/

namespace F32c
namespace Icache

open Core (Addr Word)

section State

/-- Generics of `f32c_cache`; `icacheSize` counts kilobytes. -/
structure Config where
  core : Core.Config
  icacheSize : Nat
  iAddrBits : Nat
  cachedAddrBits : Nat := 25
  xramBase : BitVec 4 := 0x8#4

namespace Config

/-- The generics that the entity hands to `f32c_core`. -/
def coreConfig (k : Config) : Core.Config :=
  { k.core with
    cache := true
    regIfPc := true }

/-- `iaddr_cacheable`. -/
def cacheable (k : Config) : Bool := k.icacheSize != 0

/-- `C_i_tag_bits`. -/
abbrev iTagBits (k : Config) : Nat := 1 + 1 + (k.cachedAddrBits - k.iAddrBits)

abbrev Index (k : Config) : Type := BitVec (k.iAddrBits - 2)

abbrev Tag (k : Config) : Type := BitVec k.iTagBits

end Config

variable (k : Config)

/-- A word of the block RAMs. -/
structure Line where
  tag : k.Tag
  data : Word

/-- The registers of the entity and the block RAM `M_i_bram`. -/
structure State where
  core : Core.State
  iStrobe : Bool
  iAddr : Addr
  bram : k.Index → Line k
  fromIBram : Line k
  dCacheableCycle : Bool

/-- Inputs of a clock. -/
structure Input where
  reset : Bool
  imemDataIn : Word
  imemDataReady : Bool
  /-- the data side answers the core -/
  cpuDDataIn : Word
  cpuDReady : Bool
  /-- a cacheable load is not in the D-cache, and has not been fetched yet -/
  dLineMiss : Bool
  /-- which port of the block RAM comes first where both write one word -/
  flushFirst : Bool
  snoopCycle : Bool
  snoopAddr : Addr
  intr : BitVec 6
  undef : Core.Undef
deriving Inhabited

end State

section Signals

variable (k : Config)

/-- `addr(C_i_addr_bits - 1 downto 2)`. -/
def index (a : Addr) : k.Index := a.extractLsb' 0 (k.iAddrBits - 2)

def addrInXram (a : Addr) : Bool := a.extractLsb' 26 4 == k.xramBase

/-- `icache_tag_in`, of the address in `R_i_addr`. -/
def tagOf (a : Addr) : k.Tag :=
  1#1 ++ BitVec.ofBool (addrInXram k a) ++
    a.extractLsb' (k.iAddrBits - 2) (k.cachedAddrBits - k.iAddrBits)

variable (s : State k) (i : Input)

def icacheLineValid : Bool := k.cacheable && tagOf k s.iAddr == s.fromIBram.tag

def iData : Word := if k.cacheable then s.fromIBram.data else i.imemDataIn

def instrReady : Bool := if k.cacheable then icacheLineValid k s else i.imemDataReady

def imemAddrStrobe : Bool := if k.cacheable then s.iStrobe else true

def icacheWrite : Bool := s.iStrobe && i.imemDataReady

/-- `cpu_d_wait`. -/
def dMissCycle : Bool := s.dCacheableCycle && i.dLineMiss

/-- The port map of the core. -/
def coreInput : Core.Input :=
  { reset := i.reset
    imemDataIn := iData k s i
    imemDataReady := instrReady k s i
    dmemDataIn := i.cpuDDataIn
    dmemDataReady := i.cpuDReady
    dmemCacheWait := dMissCycle k s i
    snoopCycle := i.snoopCycle
    snoopAddr := i.snoopAddr
    intr := i.intr
    undef := i.undef }

/-- `i_addr`. -/
def iAddrNext : Addr := Core.imemAddr k.coreConfig s.core (coreInput k s i)

def cpuDAddr : Addr := Core.dmemAddr s.core

def dCacheable (a : Addr) : Bool := addrInXram k a

end Signals

section Step

variable (k : Config)

/-- Port A: a fetched word is written under the tag of `R_i_addr`, at the index of `i_addr`. -/
def fill (s : State k) (i : Input) (bram : k.Index → Line k) : k.Index → Line k :=
  if icacheWrite k s i then
    Function.update bram (index k (iAddrNext k s i))
      { tag := tagOf k s.iAddr
        data := i.imemDataIn }
  else bram

/-- A cleared tag; its low four bits are kept in the RAM of the data. -/
def flushed (l : Line k) : Line k :=
  { l with tag := l.tag &&& BitVec.ofNat _ 15 }

/-- Port B: an instruction of the core invalidates a line. -/
def flush (s : State k) (bram : k.Index → Line k) : k.Index → Line k :=
  if s.core.exMem.flushILine then
    Function.update bram (index k (cpuDAddr k s)) (flushed k (bram (index k (cpuDAddr k s))))
  else bram

/-- One clock. -/
def step (s : State k) (i : Input) : State k :=
  -- what port A sees: it returns the word that it writes itself
  let seen := fill k s i (if i.flushFirst then flush k s s.bram else s.bram)
  { core := Core.step k.coreConfig s.core (coreInput k s i)
    iStrobe :=
      k.cacheable && !i.reset && !icacheLineValid k s && !(i.imemDataReady && s.iStrobe)
    iAddr := iAddrNext k s i
    bram := if i.flushFirst then seen else flush k s seen
    fromIBram := seen (index k (iAddrNext k s i))
    dCacheableCycle :=
      if dMissCycle k s i then s.dCacheableCycle
      else dCacheable k (cpuDAddr k s) && s.core.exMem.memCycle && !s.core.exMem.memWrite }

end Step

end Icache
end F32c
