import F32c.Core.Redirect
import F32c.Icache.Cache

/-!
# Agreement of the fetches

The cache and the core keep the address of the current fetch twice, in `R_i_addr`
and in `IF_ID_PC`, and a D-cache wait freezes only the second.  The two differ only
while the core waits with a redirect outstanding, and then the core takes nothing
that was fetched.  This carries the coherence of the lines and the agreement of
every latched instruction with the memory.

Two things can happen in a wait that this does not cover, and that corrupt a line or
an instruction.  From a `R_i_addr` that ran ahead to a line that is not there, the
cache falls back to a line that it has, and the memory may still answer this
pointless request.  And an instruction to be cancelled lets the ID stage run in the
middle of a wait.
-/

namespace F32c
namespace Icache

open Core (Addr Word pcMask redirecting)

section Statement

variable (k : Config)

/-- Program counters carry only the bits of `C_PC_mask`. -/
def Masked (a : Addr) : Prop := a &&& pcMask k.coreConfig = a

/-- Of two program counters that share a line and its tag both fetch the same word. -/
def Covered (mem : Addr → Word) : Prop :=
  ∀ a b, Masked k a → Masked k b → index k a = index k b → tagOf k a = tagOf k b → mem a = mem b

/-- Every valid line holds the word of its address. -/
def Coherent (mem : Addr → Word) (bram : k.Index → Line k) : Prop :=
  ∀ a, Masked k a → (bram (index k a)).tag = tagOf k a → (bram (index k a)).data = mem a

/-- Out of reset, with no valid line and no branch or memory access on its way. -/
structure Start (s : State k) : Prop where
  reset : s.core.rReset = false
  masked : Masked k s.core.ifId.pc
  addr : s.iAddr = s.core.ifId.pc
  strobe : s.iStrobe = true → k.cacheable = true
  invalid : ∀ n, (s.bram n).tag.msb = false
  out : s.fromIBram.tag.msb = false
  load : s.dCacheableCycle = false
  ex : s.core.idEx.memCycle = false
  mem : s.core.exMem.memCycle = false
  noBranch : s.core.exMem.takeBranch = false ∧ s.core.exMem.branchTaken = false
  noEntry : s.core.ifId.eip = false ∧ s.core.idEx.eip = false

/-- What the instruction memory does in a clock, and what does not happen in a D-cache wait. -/
structure Served (mem : Addr → Word) (s : State k) (i : Input) : Prop where
  running : i.reset = false
  word : imemAddrStrobe k s = true → i.imemDataReady = true → i.imemDataIn = mem s.iAddr
  fresh : icacheWrite k s i = true → icacheLineValid k s = false
  settled : dMissCycle k s i = true → instrReady k s i = true →
    redirecting k.coreConfig s.core = false → s.core.idEx.cancelNext = false

end Statement

section Lines

variable {k : Config} {mem : Addr → Word} {s : State k} {i : Input}
variable {bram : k.Index → Line k}

theorem tagOf_msb (a : Addr) : (tagOf k a).msb = true := by
  have htop : (1#1 ++ BitVec.ofBool (addrInXram k a)).msb = true := by
    cases addrInXram k a <;> rfl
  simp [tagOf, BitVec.msb_append, htop]

theorem coherent_of_invalid (h : ∀ n, (bram n).tag.msb = false) : Coherent k mem bram := by
  intro a _ htag
  have hmsb := h (index k a)
  simp [htag, tagOf_msb] at hmsb

theorem and_fifteen {n : Nat} (t : BitVec n) :
    (t &&& BitVec.ofNat n 15).msb = false ∨ t &&& BitVec.ofNat n 15 = t := by
  by_cases hn : n ≤ 4
  · right
    have hones : BitVec.ofNat n 15 = BitVec.allOnes n := by
      interval_cases n <;> rfl
    rw [hones, BitVec.and_allOnes]
  · left
    have hfifteen : (BitVec.ofNat n 15).msb = false := by
      have hlt : 15 < 2 ^ (n - 1) :=
        Nat.lt_of_lt_of_le (by decide) (Nat.pow_le_pow_right (by decide) (by omega : 4 ≤ n - 1))
      rw [BitVec.msb_eq_getLsbD_last, BitVec.getLsbD_ofNat, Nat.testBit_lt_two_pow hlt]
      exact Bool.and_false _
    rw [BitVec.msb_and, hfifteen, Bool.and_false]

/-- A cleared line is invalid, unless the tag is so short that all of it is kept. -/
theorem flushed_tag (l : Line k) : (flushed k l).tag.msb = false ∨ flushed k l = l := by
  rcases and_fifteen l.tag with hclear | hkept
  · exact .inl hclear
  · right
    rw [flushed, hkept]

theorem Coherent.flush (h : Coherent k mem bram) : Coherent k mem (flush k s bram) := by
  unfold Icache.flush
  split
  · intro a ha htag
    by_cases hn : index k a = index k (cpuDAddr k s)
    · rw [hn, Function.update_self] at htag ⊢
      rcases flushed_tag (bram (index k (cpuDAddr k s))) with hclear | hkept
      · simp [htag, tagOf_msb] at hclear
      · rw [hkept, ← hn] at htag ⊢
        exact h a ha htag
    · rw [Function.update_of_ne hn] at htag ⊢
      exact h a ha htag
  · exact h

/-- A word that is stored at the index of its own address keeps the lines coherent. -/
theorem Coherent.fill (h : Coherent k mem bram) (hcovered : Covered k mem)
    (hmasked : Masked k s.iAddr)
    (hwrite : icacheWrite k s i = true →
      index k (iAddrNext k s i) = index k s.iAddr ∧ i.imemDataIn = mem s.iAddr) :
    Coherent k mem (fill k s i bram) := by
  unfold Icache.fill
  split
  · rename_i hw
    obtain ⟨hindex, hword⟩ := hwrite hw
    intro a ha htag
    by_cases hn : index k a = index k (iAddrNext k s i)
    · rw [hn, Function.update_self] at htag ⊢
      exact hword.trans (hcovered _ _ hmasked ha (hindex.symm.trans hn.symm) htag)
    · rw [Function.update_of_ne hn] at htag ⊢
      exact h a ha htag
  · exact h

end Lines

section Run

variable {k : Config} {mem : Addr → Word} {s : State k} {i : Input}

/-- The cache and the core agree on the current fetch, or the core is about to drop it. -/
structure Inv (k : Config) (mem : Addr → Word) (s : State k) : Prop where
  reset : s.core.rReset = false
  bram : Coherent k mem s.bram
  out : s.fromIBram.tag = tagOf k s.iAddr → s.fromIBram.data = mem s.iAddr
  masked : Masked k s.iAddr
  strobe : s.iStrobe = true → k.cacheable = true
  fetch : Core.FetchInv k.coreConfig s.dCacheableCycle s.core
  addr : s.iAddr = s.core.ifId.pc ∨
    s.iStrobe = false ∧ redirecting k.coreConfig s.core = true

theorem Start.inv (h : Start k s) : Inv k mem s := by
  refine ⟨h.reset, coherent_of_invalid h.invalid, ?_, ?_, h.strobe, ?_, .inl h.addr⟩
  · intro htag
    have hout := h.out
    simp [htag, tagOf_msb] at hout
  · rw [h.addr]
    exact h.masked
  · refine ⟨h.masked, fun _ => h.ex, fun _ => h.mem, fun _ => ?_, fun _ => .inr ⟨h.load, h.mem, h.ex⟩⟩
    exact ⟨by simp [h.noEntry], by simp [h.noEntry], by simp [h.noEntry],
      fun _ => ⟨h.noBranch.1, h.noBranch.2, h.mem⟩⟩

theorem clkRun_eq : Core.clkRun k.coreConfig (coreInput k s i) = !dMissCycle k s i := by
  simp [Core.clkRun, Config.coreConfig, coreInput]

theorem iAddrNext_eq :
    iAddrNext k s i =
      if instrReady k s i then
        Core.ifPcNext k.coreConfig s.core (coreInput k s i) &&& pcMask k.coreConfig
      else s.core.ifId.pc := by
  rfl

namespace Inv

/-- The core is given the word at `R_i_addr`. -/
theorem iData_eq (h : Inv k mem s) (hs : Served k mem s i) (hready : instrReady k s i = true) :
    iData k s i = mem s.iAddr := by
  cases hc : k.cacheable with
  | true =>
      simp only [instrReady, icacheLineValid, hc, if_true, Bool.true_and, beq_iff_eq] at hready
      simp only [iData, hc, if_true]
      exact h.out hready.symm
  | false =>
      simp only [instrReady, hc, Bool.false_eq_true, if_false] at hready
      simp only [iData, hc, Bool.false_eq_true, if_false]
      exact hs.word (by simp [imemAddrStrobe, hc]) hready

/-- A word is stored at the index that it was fetched from. -/
theorem write (h : Inv k mem s) (hs : Served k mem s i) (hwrite : icacheWrite k s i = true) :
    index k (iAddrNext k s i) = index k s.iAddr ∧ i.imemDataIn = mem s.iAddr := by
  have hfresh := hs.fresh hwrite
  simp only [icacheWrite, Bool.and_eq_true] at hwrite
  obtain ⟨hstrobe, hanswer⟩ := hwrite
  have hc := h.strobe hstrobe
  constructor
  · have haddr : s.iAddr = s.core.ifId.pc := by
      rcases h.addr with heq | ⟨hno, -⟩
      · exact heq
      · simp [hstrobe] at hno
    have hnext : iAddrNext k s i = s.core.ifId.pc := by
      simp [iAddrNext_eq, instrReady, hc, hfresh]
    rw [hnext, haddr]
  · exact hs.word (by simp [imemAddrStrobe, hc, hstrobe]) hanswer

theorem masked_iAddrNext (h : Inv k mem s) : Masked k (iAddrNext k s i) := by
  rw [iAddrNext_eq, Masked]
  split
  · rw [BitVec.and_assoc, BitVec.and_self]
  · exact h.fetch.masked

/-- In a wait `R_i_addr` leaves the frozen program counter only for an outstanding redirect. -/
theorem addr_of_wait (h : Inv k mem s) (hs : Served k mem s i)
    (hwait : dMissCycle k s i = true) :
    iAddrNext k s i = s.core.ifId.pc ∨
      (step k s i).iStrobe = false ∧ redirecting k.coreConfig s.core = true := by
  rw [iAddrNext_eq]
  cases hready : instrReady k s i with
  | false => exact .inl (by simp)
  | true =>
      cases hred : redirecting k.coreConfig s.core with
      | true =>
          right
          cases hc : k.cacheable <;> simp_all [step, instrReady]
      | false =>
          left
          have hload : s.dCacheableCycle = true := by
            simp only [dMissCycle, Bool.and_eq_true] at hwait
            exact hwait.1
          have hfetch := h.fetch
          rw [hload] at hfetch
          rw [if_pos rfl, hfetch.pcNext_of_wait rfl (by simp [clkRun_eq, hwait]) hready hred
            (hs.settled hwait hready hred)]
          exact h.fetch.masked

theorem bram_step (h : Inv k mem s) (hcovered : Covered k mem) (hs : Served k mem s i) :
    Coherent k mem (step k s i).bram ∧
      ((step k s i).fromIBram.tag = tagOf k (step k s i).iAddr →
        (step k s i).fromIBram.data = mem (step k s i).iAddr) := by
  have hseen : Coherent k mem (fill k s i (if i.flushFirst then flush k s s.bram else s.bram)) := by
    apply Coherent.fill _ hcovered h.masked (h.write hs)
    split
    · exact h.bram.flush
    · exact h.bram
  constructor
  · simp only [step]
    cases hfirst : i.flushFirst with
    | true => simpa [hfirst] using hseen
    | false => simpa [hfirst] using hseen.flush (s := s)
  · exact hseen _ h.masked_iAddrNext

/-- One clock. -/
theorem next (h : Inv k mem s) (hcovered : Covered k mem) (hs : Served k mem s i) :
    Inv k mem (step k s i) := by
  obtain ⟨hbram, hout⟩ := h.bram_step hcovered hs
  have hreset : (step k s i).core.rReset = false := by
    have hrun : (coreInput k s i).reset = false := hs.running
    simp [step, Core.step, h.reset, hrun]
  refine ⟨hreset, hbram, hout, h.masked_iAddrNext, ?_, ?_, ?_⟩
  · simp only [step, Bool.and_eq_true]
    exact fun hstrobe => hstrobe.1.1.1
  · cases hwait : dMissCycle k s i with
    | true =>
        simp only [step, hwait, if_true]
        exact h.fetch.held (by simp [clkRun_eq, hwait])
    | false =>
        refine h.fetch.next rfl (by simp [clkRun_eq, hwait]) h.reset ?_
        simp only [step, hwait, Bool.false_eq_true, if_false, Bool.and_eq_true]
        exact fun hload => hload.1.2
  · cases hwait : dMissCycle k s i with
    | true =>
        have hclk : Core.clkRun k.coreConfig (coreInput k s i) = false := by
          simp [clkRun_eq, hwait]
        obtain ⟨hpc, -, hred, -, -⟩ := Core.step_held (s := s.core) hclk
        simp only [step, hpc, hred]
        exact h.addr_of_wait hs hwait
    | false =>
        left
        exact (Core.ifIdNext_pc (by simp [clkRun_eq, hwait]) h.reset).1.symm

end Inv

/-- What a clock does to `IF_ID_instruction`; a fetched word comes with its program counter. -/
inductive Latches (c : Core.Config) (mem : Addr → Word) (s s' : Core.State) : Prop
  | fetched (word : s'.ifId.instruction = Core.endian c (mem s.ifId.pc))
      (pc4 : s'.ifId.pc4 = (s.ifId.pc + 1) &&& pcMask c)
      (epc : c.arch = .rv32 ∨ c.exceptions = true → s'.ifId.epc = s.ifId.pc)
  | handler (enters : Core.entersHandler c s = true) (jump : s'.ifId.instruction = Core.jrK0)
  | annulled (slot : Core.idAnnuls c s = true) (nop : s'.ifId.instruction = 0#32)
  | kept (same : s'.ifId.instruction = s.ifId.instruction)
      (bubble : s'.ifId.bubble = s.ifId.bubble ∨ s'.ifId.bubble = true)

theorem Inv.latches (h : Inv k mem s) (hs : Served k mem s i) :
    Latches k.coreConfig mem s.core (step k s i).core := by
  cases htakes : Core.idTakes k.coreConfig s.core (coreInput k s i) with
  | false =>
      rcases Core.ifIdNext_of_holds htakes h.reset with ⟨hsame, hbubble⟩ | ⟨hnop, hslot⟩
      · exact .kept hsame hbubble
      · exact .annulled hslot hnop
  | true =>
      obtain ⟨hready, hred⟩ := Core.ready_of_takes htakes
      obtain ⟨hinstr, hpc4, hepc⟩ := Core.ifIdNext_of_takes htakes h.reset
      cases henters : Core.entersHandler k.coreConfig s.core with
      | true =>
          refine .handler henters ?_
          rwa [henters, if_pos rfl] at hinstr
      | false =>
          have haddr : s.iAddr = s.core.ifId.pc := by
            rcases h.addr with heq | ⟨-, hout⟩
            · exact heq
            · simp [hred hout] at henters
          rw [henters, if_neg Bool.false_ne_true] at hinstr
          refine .fetched ?_ hpc4 hepc
          rw [← haddr, ← h.iData_eq hs hready]
          exact hinstr

end Run

section Agreement

def driftConfig : Config :=
  { core :=
      { arch := .mi32
        bigEndian := false
        multEnable := false
        branchLikely := true
        signExtend := true
        exceptions := true
        branchPrediction := false
        pcMask := 0x81ffffff#32 }
    icacheSize := 2
    iAddrBits := 11 }

/-- `beq $0, $0` to word 16, with `lw $1, 0($2)` in its delay slot and `li $3, 1` behind. -/
def driftCode (a : Addr) : Word :=
  if index driftConfig a = 0 then 0x1000000f#32
  else if index driftConfig a = 1 then 0x8c410000#32
  else if index driftConfig a = 2 then 0x24030001#32
  else 0#32

/-- With `entry` the reset has left the core at the entry into the handler. -/
def driftState (entry : Bool) : State driftConfig :=
  { core :=
      { (default : Core.State) with
        exMem := { (default : Core.ExMem) with eip := entry }
        mR := fun r => if r = 2#5 then 0x80000000#32 else 0#32 }
    iStrobe := false
    iAddr := 0#30
    bram := fun _ => { tag := 0#_, data := 0#32 }
    fromIBram := { tag := 0#_, data := 0#32 }
    dCacheableCycle := false }

/-- The third word comes in the middle of the wait for the load, and then once more. -/
def driftInput (entry : Bool) (t : Nat) : Input :=
  { (default : Input) with
    imemDataIn := if t = 1 then 0x1000000f#32 else if t = 4 then 0x8c410000#32 else 0x24030001#32
    imemDataReady := t == 1 || !entry && (t == 4 || t == 10 || t == 13)
    cpuDReady := true
    dLineMiss := !entry && decide (t < 14) }

def driftAt (entry : Bool) (t : Nat) : State driftConfig :=
  Clocked.stateAt (step driftConfig) (driftState entry) (driftInput entry) t

theorem driftCode_covered : Covered driftConfig driftCode := by
  intro a b _ _ hindex _
  simp only [driftCode, hindex]

theorem driftState_start (entry : Bool) : Start driftConfig (driftState entry) := by
  refine ⟨rfl, ?_, rfl, nofun, fun _ => ?_, ?_, rfl, rfl, rfl, ⟨rfl, rfl⟩, rfl, rfl⟩
  · exact BitVec.zero_and
  · exact BitVec.msb_zero
  · exact BitVec.msb_zero

theorem driftInput_word (entry : Bool) (t : Nat)
    (hready : (driftInput entry t).imemDataReady = true) :
    (driftInput entry t).imemDataIn = driftCode (driftAt entry t).iAddr := by
  have htime : t = 1 ∨ entry = false ∧ (t = 4 ∨ t = 10 ∨ t = 13) := by
    simpa [driftInput, or_assoc] using hready
  rcases htime with rfl | ⟨rfl, rfl | rfl | rfl⟩
  · cases entry <;> decide +kernel
  all_goals decide +kernel

theorem driftInput_served (t : Nat) :
    Served driftConfig driftCode (driftAt true t) (driftInput true t) := by
  refine ⟨rfl, fun _ => driftInput_word true t, fun hwrite => ?_, fun hwait => ?_⟩
  · simp only [icacheWrite, Bool.and_eq_true] at hwrite
    have htime : t = 1 := by simpa [driftInput] using hwrite.2
    subst htime
    decide +kernel
  · simp [dMissCycle, driftInput] at hwait

-- a word that is answered twice in a wait is stored at the index of the branch target
example :
    icacheWrite driftConfig (driftAt false 13) (driftInput false 13) = true ∧
      icacheLineValid driftConfig (driftAt false 13) = true ∧
      index driftConfig (iAddrNext driftConfig (driftAt false 13) (driftInput false 13)) ≠
        index driftConfig (driftAt false 13).iAddr := by
  decide +kernel

-- and executed there
example :
    (driftAt false 16).core.ifId.bubble = false ∧
      (driftAt false 16).core.ifId.epc = (driftAt false 15).core.ifId.pc ∧
      (driftAt false 16).core.ifId.instruction ≠ driftCode (driftAt false 15).core.ifId.pc := by
  decide +kernel

end Agreement

end Icache
end F32c
