import F32c.Vector.Load

/-!
# Storing a vector register

The FIFO takes the elements of the register ahead of the bus: it starts in the clock
behind the request, while the first header is read, and asks for elements as long as it
has less than two.  An element needs two clocks from the request of the FIFO to its place
in it, which is why the bus must not take two elements in consecutive clocks.
-/

namespace F32c
namespace Vector

variable {V : Nat} {c : Config}

section Fifo

variable {d : Dma V} {i : DmaInput} {h h' k : Nat} {prev taken : Bool}

/--
How full the FIFO is after `h` words of headers; `prev` says that an element was taken in
the clock before.
-/
structure Filled (h : Nat) (prev : Bool) (d : Dma V) : Prop where
  reset : d.wdataFifoReset = false
  le : d.level.toNat + d.bramRdataReady.toNat ≤ 3
  start : d.level.toNat = 0 → h ≤ 1 ∨ h ≤ 2 ∧ d.bramRdataReady = true
  low : d.level.toNat = 1 → prev = false → d.bramRdataReady = true

theorem Filled.pos (hf : Filled h prev d) (hh : 3 ≤ h) : 0 < d.level.toNat := by
  by_contra hzero
  have := hf.start (by omega)
  omega

theorem needRefill_eq : d.needRefill = decide (d.level.toNat < 2) := by
  rw [needRefill_level, BitVec.ult]
  rfl

/-- The level of the FIFO when an element comes or goes. -/
theorem level_balance : ∀ (a b : BitVec 2) (ready taken : Bool),
    (a - b).toNat + ready.toNat ≤ 3 → taken.toNat ≤ (a - b).toNat + ready.toNat →
      ((if ready then a + 1 else a) - (if taken then b + 1 else b)).toNat + taken.toNat =
        (a - b).toNat + ready.toNat := by
  decide

theorem Filled.step (hf : Filled h prev d)
    (hout : (d.control i).indexOut = if taken then d.indexOut + 1 else d.indexOut)
    (hreset : (d.control i).wdataFifoReset = false) (htaken : taken = true → prev = false ∧ 3 ≤ h)
    (hh : h ≤ h' ∧ h' ≤ h + 1) :
    Filled h' taken (d.step i) ∧
      (d.step i).level.toNat + taken.toNat = d.level.toNat + d.bramRdataReady.toNat ∧
      (d.step i).bramRdataReady = decide (d.level.toNat < 2) := by
  obtain ⟨hin, hready, -, hout', hreset'⟩ := @step_fifo V d i
  rw [hf.reset, Bool.not_false, Bool.true_and, needRefill_eq] at hready
  rw [hf.reset, if_neg (by simp)] at hin
  have hle := hf.le
  have hpos : taken.toNat ≤ d.level.toNat := by
    cases htk : taken with
    | false => exact Nat.zero_le _
    | true => exact hf.pos (htaken htk).2
  have hlevel : (d.step i).level.toNat + taken.toNat =
      d.level.toNat + d.bramRdataReady.toNat := by
    rw [Dma.level, hin, hout', hout]
    exact level_balance _ _ _ _ hle (by rw [Dma.level] at hpos; omega)
  refine ⟨⟨hreset'.trans hreset, ?_, fun hzero => ?_, fun hone htk => ?_⟩, hlevel, hready⟩
  · rw [hready]
    have hbit := Bool.toNat_le d.bramRdataReady
    by_cases hlow : d.level.toNat < 2
    · rw [decide_eq_true hlow, Bool.toNat_true]
      cases htk : taken with
      | false =>
          rw [htk, Bool.toNat_false] at hlevel
          omega
      | true =>
          rw [htk, Bool.toNat_true] at hlevel
          omega
    · rw [decide_eq_false hlow, Bool.toNat_false]
      omega
  · rw [hready]
    cases htk : taken with
    | false =>
        rw [htk, Bool.toNat_false] at hlevel
        have hstart := hf.start (by omega)
        rcases hstart with hh1 | ⟨-, hr⟩
        · exact .inr ⟨by omega, decide_eq_true (by omega)⟩
        · rw [hr, Bool.toNat_true] at hlevel
          omega
    | true =>
        -- the only element cannot be taken before the next one is on its way
        rw [htk, Bool.toNat_true] at hlevel hpos
        have hr := hf.low (by omega) (htaken htk).1
        rw [hr, Bool.toNat_true] at hlevel
        omega
  · rw [hready, decide_eq_true_eq]
    rw [htk, Bool.toNat_false] at hlevel
    omega

/-- When nothing more is taken the FIFO settles. -/
theorem Filled.settled (hf : Filled h prev d) (hh : 3 ≤ h)
    (hout : (d.control i).indexOut = d.indexOut) (hreset : (d.control i).wdataFifoReset = false) :
    Settled (d.step i) := by
  have hrest : false = true → prev = false ∧ 3 ≤ h := fun htk => absurd htk Bool.false_ne_true
  have hstay : h ≤ h ∧ h ≤ h + 1 := ⟨Nat.le_refl h, Nat.le_succ h⟩
  obtain ⟨hnext, hlevel, hready⟩ := hf.step hout hreset hrest hstay
  have hpos := hf.pos hh
  have hle := hf.le
  rw [Bool.toNat_false, Nat.add_zero] at hlevel
  have hof : ∀ m : Nat, m < 4 → (d.step i).level.toNat = m →
      (d.step i).level = BitVec.ofNat 2 m := by
    intro m hm heq
    rw [← heq, BitVec.ofNat_toNat, BitVec.setWidth_eq]
  cases hr : d.bramRdataReady with
  | true =>
      rw [hr, Bool.toNat_true] at hlevel hle
      obtain h1 | h2 : d.level.toNat = 1 ∨ d.level.toNat = 2 := by omega
      · exact .two hnext.reset (hof 2 (by omega) (by omega))
      · refine .three hnext.reset (hof 3 (by omega) (by omega)) ?_
        rw [hready, decide_eq_false (by omega)]
  | false =>
      rw [hr, Bool.toNat_false] at hlevel
      obtain h1 | h2 | h3 : d.level.toNat = 1 ∨ d.level.toNat = 2 ∨ d.level.toNat = 3 := by omega
      · refine .one hnext.reset (hof 1 (by omega) (by omega)) ?_
        rw [hready, decide_eq_true (by omega)]
      · exact .two hnext.reset (hof 2 (by omega) (by omega))
      · refine .three hnext.reset (hof 3 (by omega) (by omega)) ?_
        rw [hready, decide_eq_false (by omega)]

/-- What the FIFO and the block RAM behind it hold when `k` elements of `val` were taken. -/
structure Fetched (val : Nat → Word) (k : Nat) (d : Dma V) (ramOut : Word) : Prop where
  fifo : ∀ m, m < d.level.toNat → d.wdataFifo (d.indexOut + BitVec.ofNat 2 m) = val (k + m)
  out : d.bramRdataReady = true → ramOut = val (k + d.level.toNat)

theorem indexIn_eq : d.indexIn = d.indexOut + BitVec.ofNat 2 d.level.toNat := by
  rw [Dma.level, BitVec.ofNat_toNat, BitVec.setWidth_eq, BitVec.add_comm, BitVec.sub_add_cancel]

theorem index_inj {x : BitVec 2} {m n : Nat} (hm : m < 4) (hn : n < 4) :
    x + BitVec.ofNat 2 m = x + BitVec.ofNat 2 n ↔ m = n := by
  rw [BitVec.add_right_inj]
  constructor
  · intro heq
    have hval := congrArg BitVec.toNat heq
    rwa [BitVec.toNat_ofNat, BitVec.toNat_ofNat, Nat.mod_eq_of_lt hm, Nat.mod_eq_of_lt hn] at hval
  · rintro rfl
    rfl

variable {val : Nat → Word} {ramOut ramOut' : Word}

/-- The element that comes is put behind the ones in the FIFO. -/
theorem Fetched.step (hf : Fetched val k d i.bramRdata) (hfill : Filled h prev d)
    (hout : (d.control i).indexOut = if taken then d.indexOut + 1 else d.indexOut)
    (hlevel : (d.step i).level.toNat + taken.toNat = d.level.toNat + d.bramRdataReady.toNat)
    (hnext : ramOut' = val (k + d.level.toNat + d.bramRdataReady.toNat)) :
    Fetched val (k + taken.toNat) (d.step i) ramOut' := by
  obtain ⟨-, -, hfifo, hout', -⟩ := @step_fifo V d i
  have hle := hfill.le
  have hindex : ∀ m, (d.step i).indexOut + BitVec.ofNat 2 m =
      d.indexOut + BitVec.ofNat 2 (m + taken.toNat) := by
    intro m
    rw [hout', hout]
    cases taken with
    | false => rfl
    | true =>
        rw [if_pos rfl, Bool.toNat_true, BitVec.ofNat_add, BitVec.add_assoc,
          BitVec.add_comm (BitVec.ofNat 2 m)]
        rfl
  constructor
  · intro m hm
    rw [hindex, hfifo, show k + taken.toNat + m = k + (m + taken.toNat) by omega]
    by_cases hlast : m + taken.toNat < d.level.toNat
    · split
      · rw [indexIn_eq, Function.update_of_ne, hf.fifo _ hlast]
        rw [Ne, index_inj (by omega) (by omega)]
        omega
      · exact hf.fifo _ hlast
    · have hready : d.bramRdataReady = true := by
        cases hr : d.bramRdataReady with
        | true => rfl
        | false =>
            rw [hr, Bool.toNat_false] at hlevel
            omega
      rw [hready, Bool.toNat_true] at hlevel
      rw [if_pos ⟨hfill.reset, hready⟩, show m + taken.toNat = d.level.toNat by omega, ← indexIn_eq,
        Function.update_self]
      exact hf.out hready
  · intro _
    rw [hnext, show k + d.level.toNat + d.bramRdataReady.toNat =
      k + taken.toNat + (d.step i).level.toNat by omega]

end Fifo

section Index

variable {v : Vec V} {i : VecInput} {r t size : Nat} {start stop : BitVec V}

/-- The element of the register that the FIFO gets as the `m`-th one: behind the end of the
range it is the last one again. -/
def source (ram : Nat → BitVec V → Word) (r : Nat) (start : BitVec V) (size m : Nat) : Word :=
  ram (r / 2) (place start (min m (size - 1)))

/-- The port reads, and `t` elements have been asked for. -/
structure Reading (start : BitVec V) (size : Nat) (v : Vec V) (r t : Nat) : Prop where
  write : v.write r = false
  incrementDelay : (v.incrementDelay r).msb = true
  addr : v.addr r = place start (min t (size - 1))

theorem Reading.step (hv : Reading start size v r t) (ha : Attached v r stop)
    (hsize : size = rangeSize start stop) :
    Reading start size (v.step c i) r (t + i.bramNext.toNat) ∧ (v.step c i).ram = v.ram ∧
      (v.step c i).ramOut r = source v.ram r start size t := by
  have hpos : 0 < size := hsize ▸ Nat.succ_pos _
  have hoff : ∀ p, v.write p = false := by
    intro p
    by_cases hp : p = r
    · rw [hp]
      exact hv.write
    · exact ha.write p hp
  have hram : v.ramNext i = v.ram := ramNext_of_none hoff
  have hreset := ha.indexReset r
  have hmoves : v.moves i r = i.bramNext := by simp [Vec.moves, ha.ioFlowcontrol]
  have hstop : v.addr r = v.addrStop r ↔ min t (size - 1) + 1 = size := by
    rw [hv.addr, ha.addrStop, place_eq_stop (by omega), hsize]
  refine ⟨⟨writeNext_of_false hreset hv.write, ?_, ?_⟩, hram, ?_⟩
  · change (v.delayNext i r).msb = true
    rw [Vec.delayNext, if_neg (by simp [hreset]), if_neg (by simp [hv.incrementDelay])]
    exact hv.incrementDelay
  · change v.addrNext i r = _
    rw [Vec.addrNext, if_neg (by simp [hreset]), hmoves, hv.incrementDelay]
    cases i.bramNext with
    | false =>
        rw [if_neg (by simp)]
        exact hv.addr
    | true =>
        by_cases hend : v.addr r = v.addrStop r
        · rw [if_neg (by simp [hend]), hv.addr, Bool.toNat_true]
          rw [hstop] at hend
          rw [show min (t + 1) (size - 1) = min t (size - 1) by omega]
        · rw [if_pos (by simp [hend]), hv.addr, place_succ, Bool.toNat_true]
          rw [hstop] at hend
          rw [show min (t + 1) (size - 1) = min t (size - 1) + 1 by omega]
  · change (if c.bramPassThru then v.ramNext i (r / 2) else v.ram (r / 2)) (v.addr r) = _
    rw [hram, ite_self, hv.addr]
    rfl

end Index

section Run

variable {y₀ y : System V} {i : Input} {r : Nat} {segs : List Segment} {h h' k : Nat}
variable {prev : Bool}

/-- The element `m` of the range of the port. -/
def registerWord (y₀ : System V) (r : Nat) (segs : List Segment) (m : Nat) : Word :=
  source y₀.vec.ram r (y₀.vec.addrStart r) (elements segs).length m

/-- The system after `h` header words and `k` elements of a store. -/
structure Storing (y₀ : System V) (r : Nat) (segs : List Segment) (y : System V) (h k : Nat)
    (prev : Bool) : Prop where
  walk : Walk y₀.mem segs true y.dma h k
  filled : Filled h prev y.dma
  fetched : Fetched (registerWord y₀ r segs) k y.dma (y.vec.ramOut r)
  vec : Attached y.vec r (y₀.vec.addrStop r)
  reading : Reading (y₀.vec.addrStart r) (elements segs).length y.vec r
    (k + y.dma.level.toNat + y.dma.bramRdataReady.toNat)
  ram : y.vec.ram = y₀.vec.ram
  mem : ∀ a, a ∉ elements segs → y.mem a = y₀.mem a

/-- The write of an element, as the bus sees it. -/
def storeWrites (y₀ : System V) (r : Nat) (segs : List Segment) : List (Addr × Word) :=
  (elements segs).zip ((List.range (elements segs).length).map fun m =>
    y₀.vec.ram (r / 2) (place (y₀.vec.addrStart r) m))

theorem storeWrites_getElem {a : Addr} (h : (elements segs)[k]? = some a) :
    (storeWrites y₀ r segs)[k]? = some (a, registerWord y₀ r segs k) := by
  obtain ⟨hlt, -⟩ := List.getElem?_eq_some_iff.1 h
  rw [storeWrites, List.getElem?_zip_eq_some]
  refine ⟨h, ?_⟩
  rw [List.getElem?_map, List.getElem?_range hlt, Option.map_some, registerWord, source,
    Nat.min_eq_left (by omega)]

theorem length_storeWrites : (storeWrites y₀ r segs).length = (elements segs).length := by
  simp [storeWrites]

/-- The bus in a clock of a store. -/
theorem Storing.bus (hs : Storing y₀ r segs y h k prev) :
    y.busWrite i =
        (if y.dataReady i && !y.dma.headerMode then some (y.dma.ramAddr, y.dma.dataOut)
          else none) ∧
      y.dma.bramNext (y.dmaInput i) = decide (y.dma.level.toNat < 2) := by
  have hactive := hs.walk.active
  constructor
  · rw [System.busWrite, hs.walk.dataWrite_eq, Bool.true_and]
  · simp [Dma.bramNext, hactive.storeMode, hactive.next, needRefill_eq]

/-- The FIFO, the port and the memory behind a clock of a store. -/
structure StoreParts (y₀ : System V) (r : Nat) (segs : List Segment) (y : System V) (h k : Nat)
    (prev : Bool) : Prop where
  filled : Filled h prev y.dma
  fetched : Fetched (registerWord y₀ r segs) k y.dma (y.vec.ramOut r)
  vec : Attached y.vec r (y₀.vec.addrStop r)
  reading : Reading (y₀.vec.addrStart r) (elements segs).length y.vec r
    (k + y.dma.level.toNat + y.dma.bramRdataReady.toNat)
  ram : y.vec.ram = y₀.vec.ram
  mem : ∀ a, a ∉ elements segs → y.mem a = y₀.mem a

theorem StoreParts.storing (hp : StoreParts y₀ r segs y h k prev)
    (hw : Walk y₀.mem segs true y.dma h k) : Storing y₀ r segs y h k prev :=
  ⟨hw, hp.filled, hp.fetched, hp.vec, hp.reading, hp.ram, hp.mem⟩

variable (hsize : (elements segs).length = rangeSize (y₀.vec.addrStart r) (y₀.vec.addrStop r))

include hsize in
theorem Storing.parts (hs : Storing y₀ r segs y h k prev) (hcpu : i.cpu = none)
    (hprev : (y.dataReady i && !y.dma.headerMode) = true → prev = false)
    (hhead : (y.dataReady i && !y.dma.headerMode) = true → y.dma.ramAddr ∈ elements segs)
    (hh : h ≤ h' ∧ h' ≤ h + 1) :
    StoreParts y₀ r segs (y.step c i) h' (k + (y.dataReady i && !y.dma.headerMode).toNat)
      (y.dataReady i && !y.dma.headerMode) := by
  obtain ⟨hbus, hnext⟩ := hs.bus (i := i)
  have hout := hs.walk.control_indexOut (i := y.dmaInput i)
  rw [Bool.true_and, show (y.dmaInput i).dataReady = y.dataReady i from rfl] at hout
  have hreset := hs.walk.control_reset (i := y.dmaInput i) (.inr hs.filled.reset)
  have htaken : (y.dataReady i && !y.dma.headerMode) = true → prev = false ∧ 3 ≤ h := by
    intro htk
    refine ⟨hprev htk, hs.walk.count.2 ?_⟩
    simp only [Bool.and_eq_true, Bool.not_eq_true'] at htk
    exact htk.2
  generalize (y.dataReady i && !y.dma.headerMode) = taken at *
  obtain ⟨hfilled, hlevel, hready⟩ := hs.filled.step hout hreset htaken hh
  have hdata : (y.dmaInput i).bramRdata = y.vec.ramOut r := by
    change y.vec.ramOut (y.vec.arg1 functionIo) = _
    rw [hs.vec.arg1]
  obtain ⟨hreading, hram, hramOut⟩ := hs.reading.step (c := c) (i := y.vecInput i) hs.vec hsize
  refine ⟨hfilled, ?_, hs.vec.step hcpu, ?_, hram.trans hs.ram, ?_⟩
  · refine Fetched.step (i := y.dmaInput i) (hdata ▸ hs.fetched) hs.filled hout hlevel ?_
    rw [hs.ram] at hramOut
    exact hramOut
  · change Reading _ _ (y.vec.step c (y.vecInput i)) r
      (k + taken.toNat + (y.dma.step (y.dmaInput i)).level.toNat +
        (y.dma.step (y.dmaInput i)).bramRdataReady.toNat)
    rw [show k + taken.toNat + (y.dma.step (y.dmaInput i)).level.toNat =
      k + y.dma.level.toNat + y.dma.bramRdataReady.toNat by omega, hready, ← hnext]
    exact hreading
  · intro a ha
    rw [mem_step, hbus, ← hs.mem a ha]
    cases htk : taken with
    | false => rfl
    | true =>
        rw [if_pos rfl]
        apply Function.update_of_ne
        rintro rfl
        exact ha (hhead htk)

/-- All elements have been written. -/
structure StoreEnding (y₀ : System V) (r : Nat) (segs : List Segment) (y : System V) : Prop where
  ending : Ending true y.dma
  parts : ∃ h, 3 ≤ h ∧ StoreParts y₀ r segs y h (elements segs).length true

theorem Storing.dataOut (hs : Storing y₀ r segs y h k prev) (hmode : y.dma.headerMode = false) :
    y.dma.dataOut = registerWord y₀ r segs k := by
  have hfirst := hs.fetched.fifo 0 (hs.filled.pos (hs.walk.count.2 hmode))
  rwa [BitVec.add_zero] at hfirst

variable (hV : 2 ≤ V ∧ V ≤ 16) (hapart : ∀ a ∈ headers segs, a ∉ elements segs)

include hsize hV hapart in
/-- A clock of a store: the bus is not ready, or it has a header word, or it takes an element. -/
theorem Storing.step (hs : Storing y₀ r segs y h k prev) (hcpu : i.cpu = none)
    (hprev : prev = true → y.busWrite i = none) :
    if y.dataReady i then
      if y.dma.headerMode then
        Storing y₀ r segs (y.step c i) (h + 1) k false ∧ y.busWrite i = none
      else y.busWrite i = (storeWrites y₀ r segs)[k]? ∧ (elements segs)[k]? = some y.dma.ramAddr ∧
        (Storing y₀ r segs (y.step c i) h (k + 1) true ∨
          k + 1 = (elements segs).length ∧ StoreEnding y₀ r segs (y.step c i))
    else Storing y₀ r segs (y.step c i) h k false ∧ y.busWrite i = none := by
  have hfits : (elements segs).length ≤ 2 ^ V := hsize ▸ rangeSize_le
  obtain ⟨hbus, -⟩ := hs.bus (i := i)
  have hprev' : (y.dataReady i && !y.dma.headerMode) = true → prev = false := by
    intro htk
    rw [hbus, htk] at hprev
    simpa using hprev
  cases hready : y.dataReady i with
  | false =>
      rw [if_neg (by simp)]
      have hparts := hs.parts (c := c) hsize hcpu hprev' (by simp [hready])
        ⟨Nat.le_refl h, by omega⟩
      rw [hready, Bool.false_and] at hparts
      exact ⟨hparts.storing (hs.walk.step_wait hready), busWrite_of_wait hready⟩
  | true =>
      rw [if_pos rfl]
      cases hmode : y.dma.headerMode with
      | true =>
          rw [if_pos rfl]
          have hin : y.dataIn i = y₀.mem y.dma.ramAddr := by
            rw [System.dataIn, if_pos (by simp [hready, hs.walk.dataWrite_eq, hmode]),
              hs.mem _ (hapart _ (hs.walk.header_mem hmode))]
          have hparts := hs.parts (c := c) hsize hcpu hprev' (by simp [hmode])
            ⟨Nat.le_succ h, Nat.le_refl (h + 1)⟩
          rw [hmode, Bool.not_true, Bool.and_false] at hparts hbus
          exact ⟨hparts.storing (hs.walk.step_header hV hfits hready hmode hin), hbus⟩
      | false =>
          rw [if_neg (by simp)]
          obtain ⟨hhead, hgo⟩ := hs.walk.step_element hV hfits (i := y.dmaInput i) hready hmode
          have hmem : y.dma.ramAddr ∈ elements segs := List.mem_of_getElem? hhead
          have hparts := hs.parts (c := c) hsize hcpu hprev' (fun _ => hmem)
            ⟨Nat.le_refl h, by omega⟩
          rw [hready, hmode, Bool.not_false, Bool.and_true] at hparts hbus
          refine ⟨?_, hhead, ?_⟩
          · rw [hbus, if_pos rfl, hs.dataOut hmode, storeWrites_getElem hhead]
          · rcases hgo with hwalk | ⟨hlast, hending⟩
            · exact .inl (hparts.storing hwalk)
            · exact .inr ⟨hlast, hending, h, hs.walk.count.2 hmode, hlast ▸ hparts⟩

/-- The segments hold what was written, and nothing else has changed. -/
structure StoreDone (y₀ : System V) (segs : List Segment) (y : System V) : Prop where
  rest : Rest y
  ram : y.vec.ram = y₀.vec.ram
  mem : ∀ a, a ∉ elements segs → y.mem a = y₀.mem a

include hsize in
/-- The clock behind the last element. -/
theorem StoreEnding.step (he : StoreEnding y₀ r segs y) (hcpu : i.cpu = none) :
    StoreDone y₀ segs (y.step c i) := by
  obtain ⟨h, hh, hparts⟩ := he.parts
  have hreq : (y.dmaInput i).request = false := hparts.vec.ioRequest
  have hcontrol := control_idle (i := y.dmaInput i) he.ending.state hreq
  obtain ⟨hstate, hstrobe, hwrite, hdone, hnext, -⟩ :=
    step_idle (i := y.dmaInput i) he.ending.state hreq
  obtain ⟨hreading, hram, -⟩ :=
    hparts.reading.step (c := c) (i := y.vecInput i) hparts.vec hsize
  have hvec := hparts.vec.step (c := c) (j := y.vecInput i) hcpu
  have hsettled : Settled (y.dma.step (y.dmaInput i)) := by
    apply hparts.filled.settled hh
    · rw [hcontrol]
    · rw [hcontrol]
      exact hparts.filled.reset
  have hdma : DmaRest (y.dma.step (y.dmaInput i)) :=
    ⟨hstate, hstrobe.trans he.ending.addrStrobe, hwrite.trans he.ending.dataWrite,
      hdone.trans he.ending.done, hnext, hsettled⟩
  have hmem := mem_of_none (c := c)
    (busWrite_of_wait (dataReady_of_quiet (i := i) he.ending.addrStrobe))
  refine ⟨⟨hdma, hvec.ioRequest, hvec.indexReset, fun p => ?_⟩, hram.trans hparts.ram,
    fun a ha => by rw [hmem]; exact hparts.mem a ha⟩
  by_cases hp : p = r
  · rw [hp]
    exact hreading.write
  · exact hvec.write p hp

theorem StoreDone.step (hd : StoreDone y₀ segs y) (hcpu : i.cpu = none) :
    StoreDone y₀ segs (y.step c i) := by
  obtain ⟨hrest, hram, hmem⟩ := hd.rest.step (c := c) hcpu
  exact ⟨hrest, hram.trans hd.ram, fun a ha => by rw [hmem]; exact hd.mem a ha⟩

include hsize hV in
/-- The first clock of a store: the FIFO is emptied, and the index stays. -/
theorem Started.store_step (hs : Started y₀ r segs true 31#5 y) (hcpu : i.cpu = none) :
    (∃ h, h ≤ 1 ∧ (y.dataReady i = true → h = 1) ∧ Storing y₀ r segs (y.step c i) h 0 false) ∧
      y.busWrite i = none ∧ y.transfer i = none := by
  have hfits : (elements segs).length ≤ 2 ^ V := hsize ▸ rangeSize_le
  have hactive := hs.walk.active
  have hmode : y.dma.headerMode = true := by
    by_contra hdata
    have := hs.walk.count.2 (by simpa using hdata)
    omega
  have hwrite : y.dma.dataWrite = false := by rw [hs.walk.dataWrite_eq, hmode]; rfl
  have hbus : y.busWrite i = none := by rw [System.busWrite, if_neg (by simp [hwrite])]
  refine ⟨?_, hbus, by rw [System.transfer, if_neg (by simp [hmode])]⟩
  have hwalk : ∃ h, h ≤ 1 ∧ (y.dataReady i = true → h = 1) ∧
      Walk y₀.mem segs true (y.step c i).dma h 0 := by
    cases hready : y.dataReady i with
    | false => exact ⟨0, by omega, by simp, hs.walk.step_wait hready⟩
    | true =>
        refine ⟨1, by omega, fun _ => rfl, hs.walk.step_header hV hfits hready hmode ?_⟩
        change y.dataIn i = _
        rw [System.dataIn, if_pos (by simp [hready, hwrite]), hs.mem]
  obtain ⟨h, hh, hgo, hwalk⟩ := hwalk
  refine ⟨h, hh, hgo, ?_⟩
  obtain ⟨hin, hrdy, -, hout, hreset⟩ := @step_fifo V y.dma (y.dmaInput i)
  rw [hs.walk.control_indexOut, hmode, Bool.not_true, Bool.and_false, Bool.and_false,
    if_neg (by simp)] at hout
  rw [hs.fifo, if_pos rfl] at hin
  rw [hs.fifo, Bool.not_true, Bool.false_and] at hrdy
  rw [hs.walk.control_reset (.inl hmode)] at hreset
  change (y.step c i).dma.indexOut = _ at hout
  change (y.step c i).dma.indexIn = _ at hin
  change (y.step c i).dma.bramRdataReady = _ at hrdy
  change (y.step c i).dma.wdataFifoReset = _ at hreset
  have hlevel : (y.step c i).dma.level.toNat = 0 := by
    rw [Dma.level, hin, hout, BitVec.sub_self]
    rfl
  have hnext : (y.vecInput i).bramNext = false := by
    have hfull : y.dma.needRefill = false := by
      rw [needRefill_eq]
      rcases hs.level with hl | hl <;> rw [hl] <;> rfl
    simp [System.vecInput, Dma.bramNext, hactive.storeMode, hactive.next, hfull]
  have hreading : Reading (y₀.vec.addrStart r) (elements segs).length y.vec r 0 := by
    refine ⟨hs.write, by rw [hs.incrementDelay]; rfl, ?_⟩
    rw [hs.addr, Nat.zero_min, place_zero]
  obtain ⟨hreading', hram, -⟩ := hreading.step (c := c) (i := y.vecInput i) hs.vec hsize
  rw [hnext, Bool.toNat_false] at hreading'
  refine ⟨hwalk, ⟨hreset, ?_, fun _ => .inl hh, fun hone => by omega⟩, ⟨fun m hm => by omega, ?_⟩,
    hs.vec.step hcpu, ?_, hram.trans hs.ram, ?_⟩
  · rw [hlevel, hrdy]
    decide
  · intro hr
    rw [hrdy] at hr
    simp at hr
  · rw [hlevel, hrdy]
    exact hreading'
  · intro a _
    rw [mem_of_none hbus, hs.mem]

end Run

section Phases

variable {y₀ y : System V} {i : Input} {inp : Nat → Input} {r : Nat} {segs : List Segment}
variable {moved : List Addr} {written : List (Addr × Word)} {prev : Bool}

/-- Where a store is, when the writes `written` were made; `prev` says that the last one was
made in the clock before. -/
inductive StorePhase (y₀ : System V) (r : Nat) (segs : List Segment) (y : System V)
    (moved : List Addr) (written : List (Addr × Word)) (prev : Bool) : Prop
  | starting (hs : Started y₀ r segs true 31#5 y) (hmoved : moved = []) (hwritten : written = [])
  | moving (h k : Nat) (hs : Storing y₀ r segs y h k prev)
      (hmoved : moved = (elements segs).take k) (hwritten : written = (storeWrites y₀ r segs).take k)
  | ending (he : StoreEnding y₀ r segs y) (hmoved : moved = elements segs)
      (hwritten : written = storeWrites y₀ r segs)
  | done (hd : StoreDone y₀ segs y) (hmoved : moved = elements segs)
      (hwritten : written = storeWrites y₀ r segs)

theorem take_succ_of_getElem {α : Type} {l : List α} {k : Nat} {a : Option α} (h : a = l[k]?) :
    l.take k ++ a.toList = l.take (k + 1) := by
  rw [List.take_add_one, h]

theorem StorePhase.step (hp : StorePhase y₀ r segs y moved written prev) (hV : 2 ≤ V ∧ V ≤ 16)
    (hsize : (elements segs).length = rangeSize (y₀.vec.addrStart r) (y₀.vec.addrStop r))
    (hapart : ∀ a ∈ headers segs, a ∉ elements segs) (hcpu : i.cpu = none)
    (hprev : prev = true → y.busWrite i = none) :
    StorePhase y₀ r segs (y.step c i) (moved ++ (y.transfer i).toList)
      (written ++ (y.busWrite i).toList) (y.busWrite i).isSome := by
  cases hp with
  | starting hs hmoved hwritten =>
      obtain ⟨⟨h, -, -, hs'⟩, hbus, htransfer⟩ := hs.store_step (c := c) hsize hV hcpu
      rw [hbus, htransfer, hmoved, hwritten]
      exact .moving h 0 hs' rfl rfl
  | moving h k hs hmoved hwritten =>
      have hstep := hs.step (c := c) hsize hV hapart hcpu hprev
      rw [System.transfer, hmoved, hwritten]
      cases hready : y.dataReady i with
      | false =>
          rw [hready, if_neg (by simp)] at hstep
          rw [hstep.2]
          exact .moving h k hstep.1 (by simp) (by simp)
      | true =>
          rw [hready, if_pos rfl] at hstep
          cases hmode : y.dma.headerMode with
          | true =>
              rw [hmode, if_pos rfl] at hstep
              rw [hstep.2]
              exact .moving (h + 1) k hstep.1 (by simp) (by simp)
          | false =>
              rw [hmode, if_neg (by simp)] at hstep
              obtain ⟨hbus, hhead, hgo⟩ := hstep
              have hsome : (y.busWrite i).isSome = true := by
                rw [hbus, storeWrites_getElem hhead]
                rfl
              rw [take_succ_of_getElem hbus, hsome, Bool.not_false, Bool.and_true, if_pos rfl,
                take_succ_of_getElem hhead.symm]
              rcases hgo with hs' | ⟨hlast, he⟩
              · exact .moving h (k + 1) hs' rfl rfl
              · refine .ending he ?_ ?_
                · rw [hlast, List.take_length]
                · rw [hlast, ← @length_storeWrites V y₀ r segs, List.take_length]
  | ending he hmoved hwritten =>
      have hquiet := dataReady_of_quiet (i := i) he.ending.addrStrobe
      rw [transfer_of_wait hquiet, busWrite_of_wait hquiet, hmoved, hwritten]
      exact .done (he.step hsize hcpu) (by simp) (by simp)
  | done hd hmoved hwritten =>
      have hquiet := dataReady_of_quiet (i := i) hd.rest.dma.addrStrobe
      rw [transfer_of_wait hquiet, busWrite_of_wait hquiet, hmoved, hwritten]
      exact .done (hd.step hcpu) (by simp) (by simp)

/-- What holds in every phase of a store. -/
theorem StorePhase.kept (hp : StorePhase y₀ r segs y moved written prev) :
    y.vec.ram = y₀.vec.ram ∧ (∀ a, a ∉ elements segs → y.mem a = y₀.mem a) ∧
      written <+: storeWrites y₀ r segs := by
  cases hp with
  | starting hs _ hwritten =>
      exact ⟨hs.ram, fun a _ => by rw [hs.mem], hwritten ▸ List.nil_prefix⟩
  | moving h k hs _ hwritten => exact ⟨hs.ram, hs.mem, hwritten ▸ List.take_prefix _ _⟩
  | ending he _ hwritten =>
      obtain ⟨h, -, hparts⟩ := he.parts
      exact ⟨hparts.ram, hparts.mem, hwritten ▸ List.prefix_rfl⟩
  | done hd _ hwritten => exact ⟨hd.ram, hd.mem, hwritten ▸ List.prefix_rfl⟩

/-- The unit says that it is done when the store is. -/
theorem StorePhase.of_done (hp : StorePhase y₀ r segs y moved written prev)
    (hdone : y.dma.doneOut = true) :
    written = storeWrites y₀ r segs ∧ moved = elements segs ∧ StoreDone y₀ segs y := by
  rw [Dma.doneOut] at hdone
  cases hp with
  | starting hs =>
      rw [hs.walk.active.done] at hdone
      simp at hdone
  | moving h k hs =>
      rw [hs.walk.active.done] at hdone
      simp at hdone
  | ending he =>
      rw [he.ending.next] at hdone
      simp at hdone
  | done hd hmoved hwritten => exact ⟨hwritten, hmoved, hd⟩

theorem StoreDone.doneOut (hd : StoreDone y₀ segs y) : y.dma.doneOut = true := by
  rw [Dma.doneOut, hd.rest.dma.done, hd.rest.dma.next]
  rfl

variable (hi : Issued c y inp (storeCommand r) r segs) (hV : 2 ≤ V ∧ V ≤ 16)
variable (hc : c.vectorsBits ≤ 3) (hr : r < 2 ^ (c.vectorsBits + 1))
variable (hapart : ∀ a ∈ headers segs, a ∉ elements segs)
variable (hgap : ∀ t, (y.at c inp t).busWrite (inp t) ≠ none →
  (y.at c inp (t + 1)).busWrite (inp (t + 1)) = none)

include hi hV hc hr hapart hgap in
theorem Issued.store_phase (n : Nat) :
    StorePhase y r segs (y.at c inp (n + 2)) (y.trace System.transfer c inp (n + 2))
      (y.trace System.busWrite c inp (n + 2))
      ((y.at c inp (n + 1)).busWrite (inp (n + 1))).isSome := by
  induction n with
  | zero =>
      rw [hi.commanded.trace_start (fun _ _ => transfer_of_wait) (Nat.le_refl 2),
        hi.commanded.trace_start (fun _ _ => busWrite_of_wait) (Nat.le_refl 2)]
      exact .starting (hi.commanded.started hi.list hi.head (ioCommand_store hc hr)) rfl rfl
  | succ n ih =>
      have hprev : ((y.at c inp (n + 1)).busWrite (inp (n + 1))).isSome = true →
          (y.at c inp (n + 2)).busWrite (inp (n + 2)) = none := by
        intro hsome
        exact hgap (n + 1) (Option.isSome_iff_ne_none.1 hsome)
      rw [show n + 1 + 2 = n + 2 + 1 by omega, trace_succ _ (n + 2), trace_succ _ (n + 2)]
      exact ih.step (c := c) hV hi.total hapart (hi.quiet (n + 1)) hprev

/-- A store under way, in a run in which the memory keeps its distance between writes. -/
def StoringAt (c : Config) (y : System V) (inp : Nat → Input) (r : Nat) (segs : List Segment)
    (t m : Nat) : Prop :=
  2 ≤ t ∧ ∃ h k prev, h + k = m ∧ Storing y r segs (y.at c inp t) h k prev ∧
    (prev = true → (y.at c inp t).busWrite (inp t) = none)

include hi hV hapart hgap in
theorem StoringAt.step {t m : Nat} (hs : StoringAt c y inp r segs t m) :
    if (inp t).grant then
      StoreEnding y r segs (y.at c inp (t + 1)) ∨ StoringAt c y inp r segs (t + 1) (m + 1)
    else StoringAt c y inp r segs (t + 1) m := by
  obtain ⟨ht, h, k, prev, hm, hs, hprev⟩ := hs
  have hcpu : (inp t).cpu = none := by
    obtain ⟨n, rfl⟩ := Nat.exists_eq_add_of_le' ht
    exact hi.quiet (n + 1)
  have hready : (y.at c inp t).dataReady (inp t) = (inp t).grant := by
    rw [System.dataReady, hs.walk.active.addrStrobe, Bool.true_and]
  have hnext := hs.step (c := c) hi.total hV hapart hcpu hprev
  rw [hready] at hnext
  split at hnext
  · rename_i hgrant
    rw [if_pos hgrant]
    split at hnext
    · exact .inr ⟨by omega, h + 1, k, false, by omega, hnext.1, by simp⟩
    · obtain ⟨hbus, hhead, hgo⟩ := hnext
      rcases hgo with hs' | ⟨-, he⟩
      · refine .inr ⟨by omega, h, k + 1, true, by omega, hs', fun _ => hgap t ?_⟩
        rw [hbus, storeWrites_getElem hhead]
        exact Option.some_ne_none _
      · exact .inl he
  · rename_i hgrant
    rw [if_neg hgrant]
    exact ⟨by omega, h, k, false, hm, hnext.1, by simp⟩

include hi hV hc hr hapart hgap in
/-- If the memory answers again and again, the store comes to its end. -/
theorem Issued.store_ends (hfair : ∀ t, ∃ t', t ≤ t' ∧ (inp t').grant = true) :
    ∃ n, 2 ≤ n ∧ StoreDone y segs (y.at c inp n) := by
  obtain ⟨⟨h, -, -, hstart⟩, -⟩ := (hi.commanded.started hi.list hi.head (ioCommand_store hc hr)).store_step (c := c)
    hi.total hV (hi.quiet 1)
  have hending : ∃ n, 3 ≤ n ∧ StoreEnding y r segs (y.at c inp n) := by
    refine @Clocked.exists_of_steps (StoringAt c y inp r segs)
      (fun t => StoreEnding y r segs (y.at c inp t)) (fun t => (inp t).grant = true)
      (4 * (elements segs).length + 3) ?_ ?_ ?_ hfair 3 (h + 0)
      ⟨by omega, h, 0, false, rfl, hstart, by simp⟩
    · intro t m hs hnot
      have hnext := hs.step hi hV hapart hgap
      rwa [if_neg hnot] at hnext
    · intro t m hs hgrant
      have hnext := hs.step hi hV hapart hgap
      rwa [if_pos hgrant] at hnext
    · rintro t m ⟨-, h, k, prev, hm, hs, -⟩
      have hcount := hs.walk.count
      have hlt := hs.walk.lt
      omega
  obtain ⟨n, hn, he⟩ := hending
  refine ⟨n + 1, by omega, he.step hi.total ?_⟩
  obtain ⟨m, rfl⟩ := Nat.exists_eq_add_of_le' hn
  exact hi.quiet (m + 2)

end Phases

end Vector
end F32c
