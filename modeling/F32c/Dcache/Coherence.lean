import F32c.Dcache.StoreBuffer
import F32c.Dcache.System

/-!
# The cache is a flat memory

The memory with the pending stores applied in order is the flat memory of the
accesses that have left the MEM stage.  A valid line holds the word of that flat
memory, with one exception: a full-word store is written into its line as soon
as it is in the MEM stage, and when the buffer has no room the line runs ahead of
the stores that have left.

A load is completed at once with the word of its line and repaired during the
wait when the line was another one; `Inv.answer` says that no wrong word
survives the wait.
-/

namespace F32c
namespace Dcache

section StoreBuffer

variable {c : Config} {s : State} {op : Op} {ready : Bool} {din : Word}

/-- Head, tail and flags agree with the number of stores queued. -/
structure SbInv (c : Config) (s : State) : Prop where
  head : s.sbHead =
    if c.storeBufferSlots > 1 then (s.sbTail + s.sbQueued) % (c.storeBufferSlots + 1)
    else s.sbTail
  tail : s.sbTail ≤ c.storeBufferSlots
  queued : s.sbQueued ≤ c.storeBufferSlots
  empty : s.sbEmpty = (s.sbQueued == 0)
  full : s.sbFull = (s.sbQueued == c.storeBufferSlots)

/-- The store buffer of the cache. -/
def State.sbuf (s : State) : Sb where
  mem := s.sb
  head := s.sbHead
  tail := s.sbTail
  queued := s.sbQueued
  empty := s.sbEmpty
  full := s.sbFull

/-- What the store buffer sees of the cache and the processor. -/
def sbInput (c : Config) (s : State) (op : Op) (ready : Bool) : SbInput where
  strobe := op.strobe
  write := op.write
  store := op.slot
  cacheable := dCacheable c op.addr
  miss := dMissCycle c s
  rdAddr := s.rdAddr
  ready := ready
  reset := false

/-- In the cache the store buffer makes the step that it makes by itself. -/
theorem step_sbuf :
    (step c s op ready din).sbuf = Sb.step c.storeBufferSlots s.sbuf (sbInput c s op ready) := rfl

theorem sbInv_iff : SbInv c s ↔ Sb.Inv c.storeBufferSlots s.sbuf := by
  constructor
  · rintro ⟨hhead, htail, hqueued, hempty, hfull⟩
    exact ⟨hhead, htail, hqueued, hempty, hfull⟩
  · rintro ⟨hhead, htail, hqueued, hempty, hfull⟩
    exact ⟨hhead, htail, hqueued, hempty, hfull⟩

theorem queue_eq : queue c s = s.sbuf.queue c.storeBufferSlots := rfl

theorem sbInv_step (h : SbInv c s) : SbInv c (step c s op ready din) := by
  rw [sbInv_iff, step_sbuf]
  exact Sb.inv_step c.slots_range.1 (sbInv_iff.1 h)

/-- A store that enters is queued last, one that leaves was the oldest. -/
theorem queue_step (h : SbInv c s) :
    queue c (step c s op ready din) =
      (if sbPop s ready then (queue c s).tail else queue c s) ++
        (if sbPush c s op ready then [op.slot] else []) := by
  rw [queue_eq, queue_eq, step_sbuf]
  exact Sb.queue_clock (sbInv_iff.1 h)

theorem SbInv.not_full_of_empty (h : SbInv c s) (he : s.sbEmpty = true) : s.sbFull = false :=
  (sbInv_iff.1 h).not_full_of_empty c.slots_range.1 he

theorem queue_eq_nil_iff (h : SbInv c s) : s.sbEmpty = true ↔ queue c s = [] := by
  rw [h.empty, ← List.length_eq_zero_iff]
  simp [queue]

/-- The oldest store is the one on the bus. -/
theorem queue_eq_cons (h : SbInv c s) (he : s.sbEmpty = false) :
    queue c s = s.sb s.sbTail :: (queue c s).tail :=
  Sb.queue_eq_cons (sbInv_iff.1 h) he

end StoreBuffer

section Memory

variable {c : Config} {y : System} {i : Input}

/-- A store leaves the MEM stage into the buffer, or straight to the memory. -/
theorem store_leaves (h : SbInv c y.cache) :
    (y.memRunning c i && y.op.isStore) =
      (sbPush c y.cache y.op i.ready ||
        (y.cache.sbEmpty && i.ready && !dMissCycle c y.cache && y.op.isStore)) := by
  have hfull := h.not_full_of_empty
  unfold System.memRunning Op.isStore sbPush cpuDWait cpuDReady
  cases y.cache.sbEmpty <;> cases y.cache.sbFull <;> cases i.ready <;>
    cases dMissCycle c y.cache <;> cases y.op.strobe <;> cases y.op.write <;>
    cases dCacheable c y.op.addr <;> simp at hfull ⊢

/-- The memory with the pending stores applied changes only by the store that leaves. -/
theorem memory_step (h : SbInv c y.cache) :
    (y.step c i).mem.storeAll (queue c (y.step c i).cache) =
      if y.memRunning c i && y.op.isStore then
        (y.mem.storeAll (queue c y.cache)).store y.op.slot
      else y.mem.storeAll (queue c y.cache) := by
  rw [store_leaves h]
  change (y.step c i).mem.storeAll (queue c (Dcache.step c y.cache y.op i.ready (y.dataIn c i))) = _
  rw [queue_step h]
  cases he : y.cache.sbEmpty with
  | false =>
      have hcons := queue_eq_cons h he
      have hmem : (y.step c i).mem =
          if i.ready then y.mem.store (y.cache.sb y.cache.sbTail) else y.mem := by
        simp [System.step, dmemAddrStrobe, dmemWrite, dmemAddr, dmemByteSel, dmemDataOut, he]
      have hdrain : (y.step c i).mem.storeAll
          (if sbPop y.cache i.ready then (queue c y.cache).tail else queue c y.cache) =
            y.mem.storeAll (queue c y.cache) := by
        rw [hmem]
        cases hr : i.ready with
        | false => simp [sbPop, he]
        | true =>
            simp only [sbPop, he, Bool.not_false, Bool.true_and, if_true]
            rw [hcons]
            rfl
      rw [Memory.storeAll_append, hdrain]
      cases hpu : sbPush c y.cache y.op i.ready <;> simp [Memory.storeAll]
  | true =>
      have hnil := (queue_eq_nil_iff h).mp he
      have hmem : (y.step c i).mem =
          if i.ready && !dMissCycle c y.cache && y.op.isStore then y.mem.store y.op.slot
          else y.mem := by
        cases hm : dMissCycle c y.cache <;> cases hw : y.op.write <;>
          simp [System.step, dmemAddrStrobe, dmemWrite, dmemAddr, dmemByteSel, dmemDataOut, he,
            Op.isStore, Op.slot, hm, hw, Bool.and_comm]
      have hpop : sbPop y.cache i.ready = false := by simp [sbPop, he]
      rw [hnil, hpop, hmem]
      cases hm : dMissCycle c y.cache <;> cases hr : i.ready <;> cases hw : y.op.write <;>
        cases hs : y.op.strobe <;>
        simp [sbPush, he, h.not_full_of_empty he, Op.isStore, hm, hw, hs, Memory.storeAll]

end Memory

section Lines

variable {c : Config}

/-- Within the window an address is determined by its line and its tag. -/
theorem eq_of_index_tag {a b : Addr} (ha : c.InWindow a) (hb : c.InWindow b)
    (hi : index c a = index c b) (ht : tagOf c a = tagOf c b) : a = b := by
  obtain ⟨hd, -⟩ := c.dAddrBits_range
  obtain ⟨hc, -⟩ := c.cachedAddrBits_range
  have hsplit : 2 ^ (c.cachedAddrBits - 2) =
      2 ^ (c.dAddrBits - 2) * 2 ^ (c.cachedAddrBits - c.dAddrBits) := by
    rw [← Nat.pow_add]
    congr 1
    omega
  have hhigh : a.toNat / 2 ^ (c.dAddrBits - 2) / 2 ^ (c.cachedAddrBits - c.dAddrBits) =
      b.toNat / 2 ^ (c.dAddrBits - 2) / 2 ^ (c.cachedAddrBits - c.dAddrBits) := by
    rw [Nat.div_div_eq_div_mul, Nat.div_div_eq_div_mul, ← hsplit, ha.2, hb.2]
  have hmid : a.toNat / 2 ^ (c.dAddrBits - 2) = b.toNat / 2 ^ (c.dAddrBits - 2) := by
    rw [← Nat.div_add_mod (a.toNat / 2 ^ (c.dAddrBits - 2)) (2 ^ (c.cachedAddrBits - c.dAddrBits)),
      ← Nat.div_add_mod (b.toNat / 2 ^ (c.dAddrBits - 2)) (2 ^ (c.cachedAddrBits - c.dAddrBits)),
      hhigh]
    congr 1
  apply BitVec.eq_of_toNat_eq
  rw [← Nat.div_add_mod a.toNat (2 ^ (c.dAddrBits - 2)),
    ← Nat.div_add_mod b.toNat (2 ^ (c.dAddrBits - 2)), hmid]
  congr 1

/-- The line selected by an address is valid for that address. -/
def Hit (c : Config) (bram : Nat → Line) (a : Addr) : Prop :=
  (bram (index c a)).valid = true ∧ (bram (index c a)).tag = tagOf c a

/-- A full-word store in the MEM stage. -/
def Op.isWordStore (op : Op) : Bool :=
  op.isStore && op.byteSel == 0b1111#4

/-- The invariant of processor, cache and memory. -/
structure Inv (c : Config) (init : Memory) (y : System) : Prop where
  sb : SbInv c y.cache
  memory : y.mem.storeAll (queue c y.cache) = flat init y.ops
  lines : ∀ a, c.InWindow a → Hit c y.cache.bram a →
    (y.cache.bram (index c a)).data = flat init y.ops a ∨
      y.op.isWordStore = true ∧ y.op.addr = a ∧
        (y.cache.bram (index c a)).data = y.op.dataOut
  op : y.op.Ok c
  pending : y.cache.cacheableCycle = true → c.InWindow y.cache.rdAddr ∧
    ∃ l, y.ops.getLast? = some l ∧ l.isLoad = true ∧ l.addr = y.cache.rdAddr
  miss : dMissCycle c y.cache = true → ¬Hit c y.cache.bram y.cache.rdAddr
  answer : cpuDWait c y.cache = false → ∀ l, y.ops.getLast? = some l → l.isLoad = true →
    y.memData = flat init y.ops l.addr

end Lines

section Step

variable {c : Config} {init : Memory} {y : System} {i : Input}

/-- During a wait nothing leaves the MEM stage. -/
theorem step_of_miss (hm : dMissCycle c y.cache = true) :
    (y.step c i).op = y.op ∧ (y.step c i).ops = y.ops ∧
      (y.step c i).memData = y.dataIn c i := by
  simp [System.step, System.memRunning, cpuDWait, cpuDDataIn, hm]

/-- The answer to a miss comes from a memory that has all the stores. -/
theorem dataIn_of_refill (h : Inv c init y) (hm : dMissCycle c y.cache = true)
    (he : y.cache.sbEmpty = true) (hr : i.ready = true) :
    y.dataIn c i = flat init y.ops y.cache.rdAddr := by
  have hnil := (queue_eq_nil_iff h.sb).mp he
  have hmem : y.mem = flat init y.ops := by
    have := h.memory
    rwa [hnil] at this
  simp [System.dataIn, dmemAddrStrobe, dmemWrite, dmemAddr, hm, he, hr, hmem]

theorem step_bram_of_miss (hm : dMissCycle c y.cache = true) :
    (y.step c i).cache.bram =
      if (i.ready && y.cache.sbEmpty) || y.op.flushDLine then
        Function.update y.cache.bram (index c y.cache.rdAddr)
          { valid := !y.op.flushDLine, tag := tagOf c y.cache.rdAddr, data := y.dataIn c i }
      else y.cache.bram := by
  cases hf : y.op.flushDLine <;>
    simp [System.step, step, stepSb, stepCache, dBramWrEnable, dToBram, hm, hf]

theorem step_bram_of_hit (hm : dMissCycle c y.cache = false) :
    (y.step c i).cache.bram =
      if (dCacheable c y.op.addr && y.op.isStore) || y.op.flushDLine then
        Function.update y.cache.bram (index c y.op.addr)
          { valid := !y.op.flushDLine && y.op.byteSel == 0b1111#4
            tag := tagOf c y.op.addr
            data := y.op.dataOut }
      else y.cache.bram := by
  cases hf : y.op.flushDLine <;>
    simp [System.step, step, stepSb, stepCache, dBramWrEnable, dToBram, Op.isStore, hm, hf,
      Bool.and_assoc, Bool.and_comm y.op.write]

/-- A refill brings the word of the flat memory, a flush leaves no valid line. -/
theorem inv_step_lines_miss (h : Inv c init y) (hm : dMissCycle c y.cache = true)
    (a : Addr) (ha : c.InWindow a) (hit : Hit c (y.step c i).cache.bram a) :
    ((y.step c i).cache.bram (index c a)).data = flat init y.ops a ∨
      y.op.isWordStore = true ∧ y.op.addr = a ∧
        ((y.step c i).cache.bram (index c a)).data = y.op.dataOut := by
  have hpend : c.InWindow y.cache.rdAddr := (h.pending (by
    simp [dMissCycle] at hm
    exact hm.1.1)).1
  rw [Hit, step_bram_of_miss hm] at hit
  rw [step_bram_of_miss hm]
  split_ifs at hit ⊢ with hen
  · by_cases hidx : index c a = index c y.cache.rdAddr
    · rw [hidx, Function.update_self] at hit ⊢
      have hflush : y.op.flushDLine = false := by simpa using hit.1
      have heq : a = y.cache.rdAddr := eq_of_index_tag ha hpend hidx hit.2.symm
      have hrefill : i.ready = true ∧ y.cache.sbEmpty = true := by simpa [hflush] using hen
      left
      rw [heq]
      exact dataIn_of_refill h hm hrefill.2 hrefill.1
    · rw [Function.update_of_ne hidx] at hit ⊢
      exact h.lines a ha hit
  · exact h.lines a ha hit

/-- A store writes its own line, and only a full word leaves it valid. -/
theorem inv_step_lines_hit (h : Inv c init y) (hm : dMissCycle c y.cache = false)
    (a : Addr) (ha : c.InWindow a) (hit : Hit c (y.step c i).cache.bram a) :
    ((y.step c i).cache.bram (index c a)).data = flat init (y.ops ++ [y.op]) a ∧
      (y.op.isWordStore = true ∧ y.op.addr = a ∧
          ((y.step c i).cache.bram (index c a)).data = y.op.dataOut ∨
        ((y.step c i).cache.bram (index c a)).data = flat init y.ops a) := by
  rw [Hit, step_bram_of_hit hm] at hit
  rw [step_bram_of_hit hm, flat_append]
  by_cases hwrite : ((dCacheable c y.op.addr && y.op.isStore) || y.op.flushDLine) = true ∧
      index c a = index c y.op.addr
  · obtain ⟨hen, hidx⟩ := hwrite
    rw [if_pos hen, hidx, Function.update_self] at hit ⊢
    obtain ⟨hvalid, htag⟩ := hit
    simp only [Bool.and_eq_true, Bool.not_eq_true', beq_iff_eq] at hvalid
    have hstore : dCacheable c y.op.addr = true ∧ y.op.isStore = true := by
      simpa [hvalid.1] using hen
    have heq : a = y.op.addr := eq_of_index_tag ha (h.op.window hstore.1) hidx htag.symm
    rw [if_pos hstore.2, heq]
    refine ⟨?_, Or.inl ⟨by simp [Op.isWordStore, hstore.2, hvalid.2], rfl, rfl⟩⟩
    simp [Memory.store, Op.slot, hvalid.2, merge_full]
  · -- the line is not written, so no store to this address is in the MEM stage
    have hsame : (if ((dCacheable c y.op.addr && y.op.isStore) || y.op.flushDLine) = true then
        Function.update y.cache.bram (index c y.op.addr)
          { valid := !y.op.flushDLine && y.op.byteSel == 0b1111#4
            tag := tagOf c y.op.addr
            data := y.op.dataOut }
        else y.cache.bram) (index c a) = y.cache.bram (index c a) := by
      split_ifs with hen
      · exact Function.update_of_ne (fun hidx => hwrite ⟨hen, hidx⟩) _ _
      · rfl
    have hother : y.op.isStore = true → y.op.addr ≠ a := by
      rintro hstore rfl
      exact hwrite ⟨by simp [ha.1, hstore], rfl⟩
    rw [hsame] at hit ⊢
    have hdata : (y.cache.bram (index c a)).data = flat init y.ops a := by
      rcases h.lines a ha hit with hd | ⟨hword, haddr, -⟩
      · exact hd
      · simp only [Op.isWordStore, Bool.and_eq_true] at hword
        exact absurd haddr (hother hword.1)
    refine ⟨?_, Or.inr hdata⟩
    split_ifs with hstore
    · rw [hdata, Memory.store, Function.update_of_ne]
      exact fun heq => hother hstore heq.symm
    · exact hdata

theorem inv_step_lines (h : Inv c init y) :
    ∀ a, c.InWindow a → Hit c (y.step c i).cache.bram a →
      ((y.step c i).cache.bram (index c a)).data = flat init (y.step c i).ops a ∨
        (y.step c i).op.isWordStore = true ∧ (y.step c i).op.addr = a ∧
          ((y.step c i).cache.bram (index c a)).data = (y.step c i).op.dataOut := by
  intro a ha hit
  cases hm : dMissCycle c y.cache with
  | true =>
      obtain ⟨hop, hops, -⟩ := step_of_miss (i := i) hm
      rw [hop, hops]
      exact inv_step_lines_miss h hm a ha hit
  | false =>
      obtain ⟨hleft, hstays⟩ := inv_step_lines_hit h hm a ha hit
      cases hrun : y.memRunning c i with
      | true =>
          left
          rw [hleft]
          simp [System.step, hrun]
      | false =>
          have hop : (y.step c i).op = y.op := by simp [System.step, hrun]
          have hops : (y.step c i).ops = y.ops := by simp [System.step, hrun]
          rw [hop, hops]
          exact hstays.symm

/-- A cached load leaves the MEM stage in the clock it is presented. -/
theorem memRunning_of_cached_load (hm : dMissCycle c y.cache = false)
    (hc : dCacheable c y.op.addr = true) (hload : y.op.isLoad = true) :
    y.memRunning c i = true := by
  simp only [Op.isLoad, Bool.and_eq_true, Bool.not_eq_true'] at hload
  simp [System.memRunning, cpuDWait, cpuDReady, hm, hc, hload]

theorem step_cacheableCycle :
    (y.step c i).cache.cacheableCycle =
      if dMissCycle c y.cache then y.cache.cacheableCycle
      else dCacheable c y.op.addr && y.op.isLoad := by
  simp [System.step, step, stepSb, stepCache, Op.isLoad, Bool.and_assoc]

theorem step_rdAddr :
    (y.step c i).cache.rdAddr = if dMissCycle c y.cache then y.cache.rdAddr else y.op.addr := by
  rfl

theorem step_fetchDone :
    (y.step c i).cache.fetchDone = (y.cache.sbEmpty && dMissCycle c y.cache && i.ready) := by
  rfl

theorem inv_step_pending (h : Inv c init y) :
    (y.step c i).cache.cacheableCycle = true → c.InWindow (y.step c i).cache.rdAddr ∧
      ∃ l, (y.step c i).ops.getLast? = some l ∧ l.isLoad = true ∧
        l.addr = (y.step c i).cache.rdAddr := by
  rw [step_cacheableCycle, step_rdAddr]
  cases hm : dMissCycle c y.cache with
  | true =>
      rw [(step_of_miss (i := i) hm).2.1]
      simpa using h.pending
  | false =>
      simp only [Bool.false_eq_true, if_false, Bool.and_eq_true]
      rintro ⟨hc, hload⟩
      have hrun := memRunning_of_cached_load (i := i) hm hc hload
      exact ⟨h.op.window hc, y.op, by simp [System.step, hrun], hload, rfl⟩

/-- The tag register after a clock is the tag read from the line in that clock. -/
theorem step_dMissCycle :
    dMissCycle c (y.step c i).cache =
      ((y.step c i).cache.cacheableCycle && !(y.step c i).cache.fetchDone &&
        !((dFromBram c y.cache y.op).valid &&
          (dFromBram c y.cache y.op).tag == tagOf c (y.step c i).cache.rdAddr)) := by
  rfl

theorem inv_step_miss (h : Inv c init y) :
    dMissCycle c (y.step c i).cache = true →
      ¬Hit c (y.step c i).cache.bram (y.step c i).cache.rdAddr := by
  rw [step_dMissCycle, step_rdAddr, step_cacheableCycle, step_fetchDone]
  cases hm : dMissCycle c y.cache with
  | true =>
      -- no refill in this clock, so the line is the old one or was flushed
      have hold := h.miss hm
      simp only [if_true, Bool.and_true, Bool.and_eq_true, Bool.not_eq_true', Bool.and_eq_false_iff]
      rintro ⟨⟨-, hnone⟩, -⟩ hit
      rw [Hit, step_bram_of_miss hm] at hit
      split_ifs at hit with hen
      · have hflush : y.op.flushDLine = true := by
          rcases hnone with hn | hn <;> simpa [hn] using hen
        rw [Function.update_self, hflush] at hit
        cases hit.1
      · exact hold hit
  | false =>
      simp only [Bool.false_eq_true, if_false, Bool.and_false, Bool.false_and, Bool.not_false,
        Bool.and_true, Bool.and_eq_true, Bool.not_eq_true']
      rintro ⟨⟨-, hload⟩, hother⟩ hit
      have hstore : y.op.isStore = false := by
        simp only [Op.isLoad, Bool.and_eq_true, Bool.not_eq_true'] at hload
        simp [Op.isStore, hload]
      rw [Hit, step_bram_of_hit hm, hstore] at hit
      split_ifs at hit with hen
      · have hflush : y.op.flushDLine = true := by simpa using hen
        rw [Function.update_self, hflush] at hit
        cases hit.1
      · simp [dFromBram, dRdAddr, hm, hit.1, hit.2] at hother

/-- An uncached load is answered by a memory that has all the stores. -/
theorem dataIn_of_uncached_load (h : Inv c init y) (hm : dMissCycle c y.cache = false)
    (hc : dCacheable c y.op.addr = false) (hload : y.op.isLoad = true)
    (hrun : y.memRunning c i = true) : y.dataIn c i = flat init y.ops y.op.addr := by
  simp only [Op.isLoad, Bool.and_eq_true, Bool.not_eq_true'] at hload
  have hready : y.cache.sbEmpty = true ∧ i.ready = true := by
    cases he : y.cache.sbEmpty <;>
      simp [System.memRunning, cpuDWait, cpuDReady, hm, hc, hload, he] at hrun ⊢
    exact hrun
  have hnil := (queue_eq_nil_iff h.sb).mp hready.1
  have hmem : y.mem = flat init y.ops := by
    have := h.memory
    rwa [hnil] at this
  simp [System.dataIn, dmemAddrStrobe, dmemWrite, dmemAddr, hm, hc, hload, hready, hmem]

theorem inv_step_answer (h : Inv c init y) :
    cpuDWait c (y.step c i).cache = false →
      ∀ l, (y.step c i).ops.getLast? = some l → l.isLoad = true →
        (y.step c i).memData = flat init (y.step c i).ops l.addr := by
  intro hwait l hl hload
  rw [cpuDWait, step_dMissCycle, step_cacheableCycle, step_fetchDone, step_rdAddr] at hwait
  cases hm : dMissCycle c y.cache with
  | true =>
      obtain ⟨-, hops, hdata⟩ := step_of_miss (i := i) hm
      have hcycle : y.cache.cacheableCycle = true := by
        simp [dMissCycle] at hm
        exact hm.1.1
      obtain ⟨-, l', hl', -, haddr⟩ := h.pending hcycle
      rw [hops] at hl ⊢
      rw [hl'] at hl
      cases hl
      -- the wait ends by a refill: the line itself never matched
      have hrefill : y.cache.sbEmpty = true ∧ i.ready = true := by
        by_contra hnone
        have hfetch : (y.cache.sbEmpty && i.ready) = false := by
          by_contra hf
          exact hnone (by simpa using hf)
        have hother := h.miss hm
        simp only [Hit] at hother
        simp [hm, hcycle, hfetch, dFromBram, dRdAddr] at hwait
        exact hother hwait
      rw [hdata, haddr]
      exact dataIn_of_refill h hm hrefill.1 hrefill.2
  | false =>
      cases hrun : y.memRunning c i with
      | true =>
          have hops : (y.step c i).ops = y.ops ++ [y.op] := by simp [System.step, hrun]
          rw [hops, List.getLast?_concat] at hl
          cases hl
          have hstore : y.op.isStore = false := by
            simp only [Op.isLoad, Bool.and_eq_true, Bool.not_eq_true'] at hload
            simp [Op.isStore, hload]
          rw [hops, flat_append, hstore]
          cases hc : dCacheable c y.op.addr with
          | true =>
              have hhit : Hit c y.cache.bram y.op.addr := by
                simpa [hm, hc, hload, dFromBram, dRdAddr, Hit] using hwait
              have hdata : (y.step c i).memData = (y.cache.bram (index c y.op.addr)).data := by
                simp [System.step, hrun, cpuDDataIn, hm, hc, dFromBram, dRdAddr]
              rw [hdata]
              rcases h.lines y.op.addr (h.op.window hc) hhit with hflat | ⟨hword, -, -⟩
              · simpa using hflat
              · simp [Op.isWordStore, hstore] at hword
          | false =>
              have hdata : (y.step c i).memData = y.dataIn c i := by
                simp [System.step, hrun, cpuDDataIn, hm, hc]
              rw [hdata]
              simpa using dataIn_of_uncached_load h hm hc hload hrun
      | false =>
          have hops : (y.step c i).ops = y.ops := by simp [System.step, hrun]
          have hdata : (y.step c i).memData = y.memData := by
            simp [System.step, hrun, cpuDWait, hm]
          rw [hops] at hl ⊢
          rw [hdata]
          exact h.answer (by simp [cpuDWait, hm]) l hl hload

theorem inv_step (h : Inv c init y) (hnext : i.next.Ok c) : Inv c init (y.step c i) where
  sb := sbInv_step h.sb
  memory := by
    rw [memory_step h.sb, h.memory]
    cases hrun : y.memRunning c i with
    | false => simp [System.step, hrun]
    | true =>
        have hops : (y.step c i).ops = y.ops ++ [y.op] := by simp [System.step, hrun]
        rw [hops, flat_append]
        simp
  lines := inv_step_lines h
  op := by
    cases hrun : y.memRunning c i with
    | false => simpa [System.step, hrun] using h.op
    | true => simpa [System.step, hrun] using hnext
  pending := inv_step_pending h
  miss := inv_step_miss h
  answer := inv_step_answer h

theorem inv_of_init (h : y.Init c) : Inv c y.mem y where
  sb :=
    { head := by rw [h.cache.head, h.cache.tail, h.cache.queued]; simp
      tail := by rw [h.cache.tail]; exact Nat.zero_le _
      queued := by rw [h.cache.queued]; exact Nat.zero_le _
      empty := by rw [h.cache.empty, h.cache.queued]; rfl
      full := by
        have := c.slots_range
        rw [h.cache.full, h.cache.queued]
        simp
        omega }
  memory := by simp [queue, h.cache.queued, h.ops, flat, stores, Memory.storeAll]
  lines := by
    intro a _ hit
    rw [Hit, h.cache.lines] at hit
    cases hit.1
  op := h.op
  pending := by simp [h.cache.idle]
  miss := by simp [dMissCycle, h.cache.idle]
  answer := by simp [h.ops]

/-- Ready clocks an access may still need before it leaves the MEM stage. -/
def waitRank (c : Config) (y : System) : Nat :=
  (if dMissCycle c y.cache then c.storeBufferSlots + 2 else 0) + y.cache.sbQueued

theorem step_sbQueued (hpush : sbPush c y.cache y.op i.ready = false) :
    (y.step c i).cache.sbQueued =
      if !y.cache.sbEmpty && i.ready then y.cache.sbQueued - 1 else y.cache.sbQueued := by
  simp [System.step, step, stepSb, stepCache, hpush, sbPop]

/-- While an access stays in the MEM stage, every ready clock brings it closer to leaving. -/
theorem waitRank_step (h : Inv c init y) (hrun : y.memRunning c i = false) :
    waitRank c (y.step c i) ≤ waitRank c y ∧
      (i.ready = true → waitRank c (y.step c i) < waitRank c y) := by
  have hempty := h.sb.empty
  unfold waitRank
  cases hm : dMissCycle c y.cache with
  | true =>
      have hpush : sbPush c y.cache y.op i.ready = false := by simp [sbPush, hm]
      rw [step_sbQueued hpush]
      cases hr : i.ready with
      | false =>
          simp only [Bool.and_false, Bool.false_eq_true, if_false, if_true, false_imp_iff, and_true]
          split_ifs <;> omega
      | true =>
          cases he : y.cache.sbEmpty with
          | true =>
              have hdone : dMissCycle c (y.step c i).cache = false := by
                simp [step_dMissCycle, step_fetchDone, he, hm, hr]
              simp [hdone]
          | false =>
              have hpos : y.cache.sbQueued ≠ 0 := by
                intro hz
                rw [hempty, hz] at he
                cases he
              simp only [Bool.not_false, Bool.and_true, if_true, true_imp_iff]
              split_ifs <;> omega
  | false =>
      have hstrobe : y.op.strobe = true := by
        by_contra hs
        simp [System.memRunning, cpuDWait, hm, hs] at hrun
      have hnotload : (dCacheable c y.op.addr && y.op.isLoad) = false := by
        by_contra hl
        simp only [Bool.not_eq_false, Bool.and_eq_true] at hl
        rw [memRunning_of_cached_load hm hl.1 hl.2] at hrun
        cases hrun
      have hmiss : dMissCycle c (y.step c i).cache = false := by
        rw [step_dMissCycle, step_cacheableCycle]
        simp [hm, hnotload]
      have hleaves := store_leaves (i := i) h.sb
      rw [hrun, Bool.false_and] at hleaves
      have hpush : sbPush c y.cache y.op i.ready = false := (Bool.or_eq_false_iff.mp hleaves.symm).1
      rw [hmiss, step_sbQueued hpush]
      cases hr : i.ready with
      | false => simp
      | true =>
          have hfull : y.cache.sbEmpty = false := by
            by_contra he
            simp only [Bool.not_eq_false] at he
            have hnf := h.sb.not_full_of_empty he
            simp [System.memRunning, cpuDWait, cpuDReady, hm, hstrobe, he, hnf, hr] at hrun
          have hpos : y.cache.sbQueued ≠ 0 := by
            intro hz
            rw [hempty, hz] at hfull
            cases hfull
          simp [hfull]
          omega

end Step

section Runs

variable {c : Config}

theorem inv_run {y : System} {inp : Nat → Input} (h : y.Init c)
    (hok : ∀ n, (inp n).next.Ok c) (n : Nat) :
    Inv c y.mem (Clocked.stateAt (System.step c) y inp n) :=
  Clocked.stateAt_invariant_of (fun _ i => i.next.Ok c) (inv_of_init h)
    (fun _ _ hi hinv => inv_step hinv hi) hok n

/--
For every sequence of stores, loads and flushes and every pattern of
acknowledges: when the wait of a load is over, the word it returns is the one of
the flat memory at its address, that is the latest store to each byte in program
order, or the initial memory.  Every valid line holds the memory word with the
pending stores applied in order, except that a full-word store in the MEM stage
may be in its line already.  With acknowledges that keep coming, every access
leaves the MEM stage.
-/
theorem cache_flat_memory
    (c : Config) (y : System) (inp : Nat → Input)
    (h : y.Init c) (hok : ∀ n, (inp n).next.Ok c) :
    (∀ n l, cpuDWait c (Clocked.stateAt (System.step c) y inp n).cache = false →
      (Clocked.stateAt (System.step c) y inp n).ops.getLast? = some l → l.isLoad = true →
      (Clocked.stateAt (System.step c) y inp n).memData =
        flat y.mem (Clocked.stateAt (System.step c) y inp n).ops l.addr) ∧
    (∀ n a, c.InWindow a → Hit c (Clocked.stateAt (System.step c) y inp n).cache.bram a →
      ((Clocked.stateAt (System.step c) y inp n).cache.bram (index c a)).data =
          (Clocked.stateAt (System.step c) y inp n).mem.storeAll
            (queue c (Clocked.stateAt (System.step c) y inp n).cache) a ∨
        (Clocked.stateAt (System.step c) y inp n).op.isWordStore = true ∧
          (Clocked.stateAt (System.step c) y inp n).op.addr = a ∧
          ((Clocked.stateAt (System.step c) y inp n).cache.bram (index c a)).data =
            (Clocked.stateAt (System.step c) y inp n).op.dataOut) ∧
    ((∀ n, ∃ m, n ≤ m ∧ (inp m).ready = true) →
      ∀ n, ∃ m, n ≤ m ∧
        (Clocked.stateAt (System.step c) y inp m).memRunning c (inp m) = true) := by
  have hinv := inv_run h hok
  refine ⟨?_, ?_, ?_⟩
  · intro n l hwait hl hload
    exact (hinv n).answer hwait l hl hload
  · intro n a ha hit
    rw [(hinv n).memory]
    exact (hinv n).lines a ha hit
  · intro hready
    exact Clocked.stateAt_progress_fair
      (fun (y : System) i => y.memRunning c i = true) (fun i => i.ready = true) (waitRank c)
      (fun n hn => waitRank_step (hinv n) (by simpa using hn)) hready

/-- A cache of 4 KB before 32 MB of memory, with one slot in the store buffer. -/
def smallCache : Config where
  dAddrBits := 12
  cachedAddrBits := 25
  xramBase := 8
  storeBufferSlots := 1
  dAddrBits_range := by decide
  cachedAddrBits_range := by decide
  slots_range := by decide

/-- A full-word store to the `k`-th cached word. -/
def wordStore (k : Nat) : Op where
  strobe := true
  write := true
  byteSel := 0b1111#4
  addr := BitVec.ofNat 30 (0x20000000 + k)
  dataOut := 5
  flushDLine := false

theorem wordStore_ok : (wordStore 0).Ok smallCache ∧ (wordStore 1).Ok smallCache :=
  ⟨⟨fun _ => ⟨by decide, by decide⟩, by decide⟩, ⟨fun _ => ⟨by decide, by decide⟩, by decide⟩⟩

/-- All lines invalid, a zeroed memory, and the store of word 0 in the MEM stage. -/
def storing : System where
  cache :=
    { bram := fun _ => ⟨false, 0, 0⟩
      tagValid := false
      tag := 0
      cacheableCycle := false
      fetchDone := false
      rdAddr := 0
      sb := fun _ => ⟨0, 0, 0⟩
      sbHead := 0
      sbTail := 0
      sbQueued := 0
      sbEmpty := true
      sbFull := false }
  op := wordStore 0
  memData := 0
  mem := fun _ => 0
  ops := []

theorem storing_init : storing.Init smallCache :=
  ⟨⟨fun _ => rfl, rfl, rfl, rfl, rfl, rfl, rfl⟩, wordStore_ok.1, rfl⟩

/-- The memory does not answer, and the next access is the store of word 1. -/
def stalledStore : Input where
  ready := false
  lines := 0
  next := wordStore 1

theorem cache_flat_memory_storing :
    Hit smallCache
        (Clocked.stateAt (System.step smallCache) storing (fun _ => stalledStore) 1).cache.bram
        (wordStore 0).addr ∧
      (((Clocked.stateAt (System.step smallCache) storing (fun _ => stalledStore) 1).cache.bram
          (index smallCache (wordStore 0).addr)).data =
        (Clocked.stateAt (System.step smallCache) storing (fun _ => stalledStore) 1).mem.storeAll
          (queue smallCache
            (Clocked.stateAt (System.step smallCache) storing (fun _ => stalledStore) 1).cache)
          (wordStore 0).addr ∨
        (Clocked.stateAt (System.step smallCache) storing (fun _ => stalledStore) 1).op.isWordStore
            = true ∧
          (Clocked.stateAt (System.step smallCache) storing (fun _ => stalledStore) 1).op.addr =
            (wordStore 0).addr ∧
          ((Clocked.stateAt (System.step smallCache) storing (fun _ => stalledStore) 1).cache.bram
              (index smallCache (wordStore 0).addr)).data =
            (Clocked.stateAt (System.step smallCache) storing (fun _ => stalledStore) 1).op.dataOut) :=
  have hit : Hit smallCache
      (Clocked.stateAt (System.step smallCache) storing (fun _ => stalledStore) 1).cache.bram
      (wordStore 0).addr := ⟨by decide, by decide⟩
  ⟨hit, (cache_flat_memory smallCache storing (fun _ => stalledStore) storing_init
    (fun _ => wordStore_ok.2)).2.1 1 _ (wordStore_ok.1.window (by decide)) hit⟩

/-- The line of a store that waits for room in the buffer runs ahead of the memory. -/
theorem line_ahead_of_stores :
    smallCache.InWindow (wordStore 1).addr ∧
      Hit smallCache
        (Clocked.stateAt (System.step smallCache) storing (fun _ => stalledStore) 2).cache.bram
        (wordStore 1).addr ∧
      ((Clocked.stateAt (System.step smallCache) storing (fun _ => stalledStore) 2).cache.bram
          (index smallCache (wordStore 1).addr)).data ≠
        (Clocked.stateAt (System.step smallCache) storing (fun _ => stalledStore) 2).mem.storeAll
          (queue smallCache
            (Clocked.stateAt (System.step smallCache) storing (fun _ => stalledStore) 2).cache)
          (wordStore 1).addr :=
  ⟨⟨by decide, by decide⟩, ⟨by decide, by decide⟩, by decide⟩

end Runs

end Dcache
end F32c
