import F32c.Vector.Port

/-!
# Loading a vector register

The element on the bus goes to a register of the I/O unit first, and from there to the
element of the vector register that the index points at, in every clock until the next
element comes.  The first advance of the index is taken by the delay of the command, so
the index follows the elements.
-/

namespace F32c
namespace Vector

variable {V : Nat} {c : Config}

section Index

variable {v : Vec V} {i : VecInput} {r : Nat} {start stop : BitVec V}

/--
What the vector unit has of the elements `val` after `k` of them have come: the last one is
still in the register of the I/O unit.
-/
structure Loaded (start : BitVec V) (size : Nat) (val : Nat → Word)
    (ram : Nat → BitVec V → Word) (v : Vec V) (r k : Nat) : Prop where
  write : v.write r = true
  first : k = 0 → v.addr r = start ∧ v.incrementDelay r = 0#5
  index : ∀ m, k = m + 1 → v.addr r = place start m ∧ v.incrementDelay r = 31#5 ∧ v.wdata = val m
  stored : ∀ m, m + 1 < k → v.ram (r / 2) (place start m) = val m
  other : ∀ q a, (q = r / 2 → ∀ m, m < size → a ≠ place start m) → v.ram q a = ram q a

variable {size : Nat} {val : Nat → Word} {ram : Nat → BitVec V → Word} {k : Nat}

/-- The block RAM in a clock of a load. -/
theorem Loaded.ramNext (h : Loaded start size val ram v r k) (ha : Attached v r stop)
    (hsize : size ≤ 2 ^ V) (hk : k ≤ size) (hpos : 0 < size) :
    (∀ m, m < k → v.ramNext i (r / 2) (place start m) = val m) ∧
      ∀ q a, (q = r / 2 → ∀ m, m < size → a ≠ place start m) → v.ramNext i q a = ram q a := by
  have hsingle := ramNext_of_single (i := i) ha.write
  have hdata : v.dataIn i r = v.wdata := by rw [Vec.dataIn, if_pos ha.result]
  constructor
  · intro m hm
    obtain ⟨n, rfl⟩ : ∃ n, k = n + 1 := ⟨k - 1, by omega⟩
    obtain ⟨haddr, -, hwdata⟩ := h.index n rfl
    rw [hsingle, if_pos rfl, Vec.writePort, if_pos h.write, hdata, hwdata, haddr]
    by_cases hn : m = n
    · subst hn
      rw [Function.update_self]
    · rw [Function.update_of_ne, h.stored m (by omega)]
      rw [Ne, place_inj (by omega) (by omega)]
      exact hn
  · intro q a hout
    rw [hsingle]
    split
    · rename_i hq
      have hne : a ≠ v.addr r := by
        cases k with
        | zero =>
            rw [(h.first rfl).1, ← (place_zero : place start 0 = start)]
            exact hout hq 0 hpos
        | succ n =>
            rw [(h.index n rfl).1]
            exact hout hq n (by omega)
      rw [Vec.writePort, if_pos h.write, Function.update_of_ne hne]
      exact h.other q a hout
    · exact h.other q a hout

/-- A clock without an element. -/
theorem Loaded.wait (h : Loaded start size val ram v r k) (ha : Attached v r stop)
    (hsize : size ≤ 2 ^ V) (hk : k ≤ size) (hpos : 0 < size) (hnext : i.bramNext = false)
    (hwe : i.bramWe = false) : Loaded start size val ram (v.step c i) r k := by
  obtain ⟨hstored, hother⟩ := h.ramNext (i := i) ha hsize hk hpos
  have hmoves : v.moves i r = false := by simp [Vec.moves, ha.ioFlowcontrol, hnext]
  have hreset := ha.indexReset r
  have hwrite : (v.step c i).write r = v.write r := by
    change v.writeNext i r = _
    rw [Vec.writeNext, if_neg (by simp [hreset]), if_neg (by simp [hmoves])]
  have haddr : (v.step c i).addr r = v.addr r := by
    change v.addrNext i r = _
    rw [Vec.addrNext, if_neg (by simp [hreset]), if_neg (by simp [hmoves])]
  have hdelay : (v.step c i).incrementDelay r = v.incrementDelay r := by
    change v.delayNext i r = _
    rw [Vec.delayNext, if_neg (by simp [hreset]), if_neg (by simp [hmoves])]
  have hwdata : (v.step c i).wdata = v.wdata := by
    change (if i.bramWe then i.bramWdata else v.wdata) = _
    rw [if_neg (by simp [hwe])]
  refine ⟨hwrite.trans h.write, ?_, ?_, fun m hm => hstored m (by omega), hother⟩
  · rw [haddr, hdelay]
    exact h.first
  · rw [haddr, hdelay, hwdata]
    exact h.index

/-- A clock with the next element. -/
theorem Loaded.element (h : Loaded start size val ram v r k) (ha : Attached v r stop)
    (hsize : size ≤ rangeSize start stop) (hk : k < size) (hnext : i.bramNext = true)
    (hwe : i.bramWe = true) (hdata : i.bramWdata = val k) :
    Loaded start size val ram (v.step c i) r (k + 1) := by
  have hle : size ≤ 2 ^ V := hsize.trans rangeSize_le
  obtain ⟨hstored, hother⟩ := h.ramNext (i := i) ha hle (by omega) (by omega)
  have hmoves : v.moves i r = true := by simp [Vec.moves, hnext]
  have hreset := ha.indexReset r
  have hwdata : (v.step c i).wdata = val k := by
    change (if i.bramWe then i.bramWdata else v.wdata) = _
    rw [if_pos hwe, hdata]
  cases k with
  | zero =>
      obtain ⟨haddr, hdelay⟩ := h.first rfl
      refine ⟨?_, by omega, ?_, fun m hm => by omega, hother⟩
      · change v.writeNext i r = _
        rw [Vec.writeNext, if_neg (by simp [hreset]), if_neg (by simp [hdelay]), h.write]
      · intro m hm
        obtain rfl : m = 0 := by omega
        refine ⟨?_, ?_, hwdata⟩
        · change v.addrNext i r = _
          rw [Vec.addrNext, if_neg (by simp [hreset]), if_neg (by simp [hdelay]), haddr, place_zero]
        · change v.delayNext i r = _
          rw [Vec.delayNext, if_neg (by simp [hreset]), if_pos (by simp [hmoves, hdelay]), hdelay]
          rfl
  | succ n =>
      obtain ⟨haddr, hdelay, -⟩ := h.index n rfl
      have hmsb : (v.incrementDelay r).msb = true := by rw [hdelay]; rfl
      have hstop : v.addr r ≠ v.addrStop r := by
        rw [haddr, ha.addrStop, Ne, place_eq_stop (by omega)]
        omega
      refine ⟨?_, by omega, ?_, fun m hm => hstored m (by omega), hother⟩
      · change v.writeNext i r = _
        rw [Vec.writeNext, if_neg (by simp [hreset]), if_neg (by simp [hstop]), h.write]
      · intro m hm
        obtain rfl : m = n + 1 := by omega
        refine ⟨?_, ?_, hwdata⟩
        · change v.addrNext i r = _
          rw [Vec.addrNext, if_neg (by simp [hreset]), if_pos (by simp [hmoves, hmsb, hstop]), haddr,
            place_succ]
        · change v.delayNext i r = _
          rw [Vec.delayNext, if_neg (by simp [hreset]), if_neg (by simp [hmsb]), hdelay]

/-- The advance behind the last element ends the writes. -/
theorem Loaded.finish (h : Loaded start size val ram v r size) (ha : Attached v r stop)
    (hsize : size = rangeSize start stop) (hnext : i.bramNext = true) :
    (v.step c i).write r = false ∧
      (∀ m, m < size → (v.step c i).ram (r / 2) (place start m) = val m) ∧
      ∀ q a, (q = r / 2 → ∀ m, m < size → a ≠ place start m) → (v.step c i).ram q a = ram q a := by
  have hle : size ≤ 2 ^ V := hsize ▸ rangeSize_le
  have hpos : 0 < size := hsize ▸ Nat.succ_pos _
  refine ⟨?_, h.ramNext ha hle (Nat.le_refl _) hpos⟩
  obtain ⟨n, hn⟩ : ∃ n, size = n + 1 := ⟨size - 1, by omega⟩
  obtain ⟨haddr, hdelay, -⟩ := h.index n hn
  have hstop : v.addr r = v.addrStop r := by
    rw [haddr, ha.addrStop, place_eq_stop (by omega)]
    omega
  have hmsb : (v.incrementDelay r).msb = true := by rw [hdelay]; rfl
  change v.writeNext i r = _
  rw [Vec.writeNext, if_neg (by simp [ha.indexReset r]),
    if_pos (by simp [Vec.moves, hnext, hmsb, hstop])]

end Index

section Run

variable {y₀ y : System V} {i : Input} {r : Nat} {segs : List Segment} {h k : Nat}

/-- The word in the memory for the element `m` of a list of segments. -/
def element (mem : Mem) (segs : List Segment) (m : Nat) : Word := mem ((elements segs).getD m 0)

/-- The places of the register that a transfer does not touch. -/
def Outside (y₀ : System V) (r : Nat) (segs : List Segment) (q : Nat) (a : BitVec V) : Prop :=
  q = r / 2 → ∀ m, m < (elements segs).length → a ≠ place (y₀.vec.addrStart r) m

/-- The system after `h` header words and `k` elements of a load. -/
structure Loading (y₀ : System V) (r : Nat) (segs : List Segment) (y : System V) (h k : Nat) :
    Prop where
  walk : Walk y₀.mem segs false y.dma h k
  settled : Settled y.dma
  vec : Attached y.vec r (y₀.vec.addrStop r)
  loaded : Loaded (y₀.vec.addrStart r) (elements segs).length (element y₀.mem segs) y₀.vec.ram
    y.vec r k
  mem : y.mem = y₀.mem

/-- All elements have come, and the last one is not yet in its place. -/
structure LoadEnding (y₀ : System V) (r : Nat) (segs : List Segment) (y : System V) : Prop where
  ending : Ending false y.dma
  settled : Settled y.dma
  vec : Attached y.vec r (y₀.vec.addrStop r)
  loaded : Loaded (y₀.vec.addrStart r) (elements segs).length (element y₀.mem segs) y₀.vec.ram
    y.vec r (elements segs).length
  mem : y.mem = y₀.mem

/-- The register holds the elements of the segments, and nothing else has changed. -/
structure LoadDone (y₀ : System V) (r : Nat) (segs : List Segment) (y : System V) : Prop where
  rest : Rest y
  stored : ∀ m, m < (elements segs).length →
    y.vec.ram (r / 2) (place (y₀.vec.addrStart r) m) = element y₀.mem segs m
  other : ∀ q a, Outside y₀ r segs q a → y.vec.ram q a = y₀.vec.ram q a
  mem : y.mem = y₀.mem

/-- The bus in a clock of a load. -/
theorem Loading.bus (hl : Loading y₀ r segs y h k) :
    y.busWrite i = none ∧ y.dma.bramWe (y.dmaInput i) = (y.dataReady i && !y.dma.headerMode) ∧
      y.dma.bramNext (y.dmaInput i) = (y.dataReady i && !y.dma.headerMode) ∧
      (y.dataReady i = true → y.dataIn i = y₀.mem y.dma.ramAddr) := by
  have hactive := hl.walk.active
  have hwrite : y.dma.dataWrite = false := by rw [hl.walk.dataWrite_eq, Bool.false_and]
  refine ⟨?_, ?_, ?_, fun hready => ?_⟩
  · rw [System.busWrite, if_neg (by simp [hwrite])]
  · simp [Dma.bramWe, hactive.storeMode, System.dmaInput]
  · simp [Dma.bramNext, hactive.storeMode, hactive.next, System.dmaInput]
  · rw [System.dataIn, if_pos (by simp [hready, hwrite]), hl.mem]

theorem Loading.settled_step (hl : Loading y₀ r segs y h k) :
    Settled (y.dma.step (y.dmaInput i)) := by
  apply hl.settled.step
  · rw [hl.walk.control_indexOut]
    simp
  · exact hl.walk.control_reset (.inr hl.settled.reset)

/-- A clock in which no element comes. -/
theorem Loading.step_wait (hl : Loading y₀ r segs y h k) (hcpu : i.cpu = none) {h' : Nat}
    (hno : (y.dataReady i && !y.dma.headerMode) = false)
    (hwalk : Walk y₀.mem segs false (y.step c i).dma h' k)
    (hfits : (elements segs).length ≤ 2 ^ V) : Loading y₀ r segs (y.step c i) h' k := by
  obtain ⟨hbus, hwe, hnext, -⟩ := hl.bus (i := i)
  rw [hno] at hwe hnext
  have hlt := hl.walk.lt
  exact ⟨hwalk, hl.settled_step, hl.vec.step hcpu,
    hl.loaded.wait hl.vec hfits (by omega) (by omega) hnext hwe, (mem_of_none hbus).trans hl.mem⟩

variable (hV : 2 ≤ V ∧ V ≤ 16)
variable (hsize : (elements segs).length ≤ rangeSize (y₀.vec.addrStart r) (y₀.vec.addrStop r))

include hV hsize in
/-- A clock of a load: the bus is not ready, or it has a header word or an element. -/
theorem Loading.step (hl : Loading y₀ r segs y h k) (hcpu : i.cpu = none) :
    if y.dataReady i then
      if y.dma.headerMode then Loading y₀ r segs (y.step c i) (h + 1) k
      else (elements segs)[k]? = some y.dma.ramAddr ∧
        (Loading y₀ r segs (y.step c i) h (k + 1) ∨
          k + 1 = (elements segs).length ∧ LoadEnding y₀ r segs (y.step c i))
    else Loading y₀ r segs (y.step c i) h k := by
  have hfits : (elements segs).length ≤ 2 ^ V := hsize.trans rangeSize_le
  obtain ⟨hbus, hwe, hnext, hin⟩ := hl.bus (i := i)
  cases hready : y.dataReady i with
  | false =>
      rw [if_neg (by simp)]
      exact hl.step_wait hcpu (by simp [hready]) (hl.walk.step_wait hready) hfits
  | true =>
      rw [if_pos rfl]
      cases hmode : y.dma.headerMode with
      | true =>
          rw [if_pos rfl]
          exact hl.step_wait hcpu (by simp [hmode])
            (hl.walk.step_header hV hfits hready hmode (hin hready)) hfits
      | false =>
          rw [if_neg (by simp)]
          rw [hready, hmode] at hwe hnext
          have hlt := hl.walk.lt
          obtain ⟨hhead, hgo⟩ := hl.walk.step_element hV hfits (i := y.dmaInput i) hready hmode
          have hdata : y.dataIn i = element y₀.mem segs k := by
            rw [hin hready, element, List.getD_eq_getElem?_getD, hhead, Option.getD_some]
          have hloaded := hl.loaded.element (c := c) (i := y.vecInput i) hl.vec hsize hlt hnext hwe
            hdata
          have hmem := (mem_of_none (c := c) hbus).trans hl.mem
          refine ⟨hhead, ?_⟩
          rcases hgo with hwalk | ⟨hlast, hending⟩
          · exact .inl ⟨hwalk, hl.settled_step, hl.vec.step hcpu, hloaded, hmem⟩
          · exact .inr ⟨hlast, hending, hl.settled_step, hl.vec.step hcpu, hlast ▸ hloaded, hmem⟩

/-- The clock behind the last element. -/
theorem LoadEnding.step (he : LoadEnding y₀ r segs y)
    (hsize : (elements segs).length = rangeSize (y₀.vec.addrStart r) (y₀.vec.addrStop r))
    (hcpu : i.cpu = none) : LoadDone y₀ r segs (y.step c i) := by
  have hreq : (y.dmaInput i).request = false := he.vec.ioRequest
  have hcontrol := control_idle (i := y.dmaInput i) he.ending.state hreq
  obtain ⟨hstate, hstrobe, hwrite, hdone, hnext, -⟩ :=
    step_idle (i := y.dmaInput i) he.ending.state hreq
  have hbramNext : (y.vecInput i).bramNext = true := by
    simp [System.vecInput, Dma.bramNext, he.ending.next]
  obtain ⟨hoff, hstored, hother⟩ :=
    he.loaded.finish (c := c) (i := y.vecInput i) he.vec hsize hbramNext
  have hvec := he.vec.step (c := c) (j := y.vecInput i) hcpu
  have hsettled : Settled (y.dma.step (y.dmaInput i)) := by
    apply he.settled.step
    · rw [hcontrol]
    · rw [hcontrol]
      exact he.settled.reset
  have hdma : DmaRest (y.dma.step (y.dmaInput i)) :=
    ⟨hstate, hstrobe.trans he.ending.addrStrobe, hwrite.trans he.ending.dataWrite,
      hdone.trans he.ending.done, hnext, hsettled⟩
  refine ⟨⟨hdma, hvec.ioRequest, hvec.indexReset, fun p => ?_⟩, hstored, hother, ?_⟩
  · by_cases hp : p = r
    · rw [hp]
      exact hoff
    · exact hvec.write p hp
  · exact (mem_of_none (busWrite_of_wait (dataReady_of_quiet he.ending.addrStrobe))).trans he.mem

theorem LoadDone.step (hd : LoadDone y₀ r segs y) (hcpu : i.cpu = none) :
    LoadDone y₀ r segs (y.step c i) := by
  obtain ⟨hrest, hram, hmem⟩ := hd.rest.step (c := c) hcpu
  exact ⟨hrest, fun m hm => by rw [hram]; exact hd.stored m hm,
    fun q a ha => by rw [hram]; exact hd.other q a ha, hmem.trans hd.mem⟩

end Run

section Phases

variable {c : Config} {y₀ y : System V} {i : Input} {inp : Nat → Input} {r : Nat}
variable {segs : List Segment} {moved : List Addr}

/-- Where a load is, when the elements at the addresses `moved` have come. -/
inductive LoadPhase (y₀ : System V) (r : Nat) (segs : List Segment) (y : System V)
    (moved : List Addr) : Prop
  | moving (h k : Nat) (hl : Loading y₀ r segs y h k) (hmoved : moved = (elements segs).take k)
  | ending (he : LoadEnding y₀ r segs y) (hmoved : moved = elements segs)
  | done (hd : LoadDone y₀ r segs y) (hmoved : moved = elements segs)

theorem LoadPhase.step (hp : LoadPhase y₀ r segs y moved) (hV : 2 ≤ V ∧ V ≤ 16)
    (hsize : (elements segs).length = rangeSize (y₀.vec.addrStart r) (y₀.vec.addrStop r))
    (hcpu : i.cpu = none) :
    LoadPhase y₀ r segs (y.step c i) (moved ++ (y.transfer i).toList) ∧ y.busWrite i = none := by
  cases hp with
  | moving h k hl hmoved =>
      refine ⟨?_, hl.bus.1⟩
      have hstep := hl.step (c := c) hV hsize.le hcpu
      rw [System.transfer]
      cases hready : y.dataReady i with
      | false =>
          rw [hready, if_neg (by simp)] at hstep
          exact .moving h k hstep (by simp [hmoved])
      | true =>
          rw [hready, if_pos rfl] at hstep
          cases hmode : y.dma.headerMode with
          | true =>
              rw [hmode, if_pos rfl] at hstep
              exact .moving (h + 1) k hstep (by simp [hmoved])
          | false =>
              rw [hmode, if_neg (by simp)] at hstep
              obtain ⟨hhead, hgo⟩ := hstep
              have htake : (elements segs).take k ++ [y.dma.ramAddr] =
                  (elements segs).take (k + 1) := by
                rw [List.take_add_one, hhead, Option.toList_some]
              rcases hgo with hl' | ⟨hlast, he⟩
              · exact .moving h (k + 1) hl' (by simpa [hmoved] using htake)
              · refine .ending he ?_
                simpa [hmoved, hlast] using htake
  | ending he hmoved =>
      have hquiet := dataReady_of_quiet (i := i) he.ending.addrStrobe
      refine ⟨.done (he.step hsize hcpu) ?_, busWrite_of_wait hquiet⟩
      rw [transfer_of_wait hquiet, hmoved]
      simp
  | done hd hmoved =>
      have hquiet := dataReady_of_quiet (i := i) hd.rest.dma.addrStrobe
      refine ⟨.done (hd.step hcpu) ?_, busWrite_of_wait hquiet⟩
      rw [transfer_of_wait hquiet, hmoved]
      simp

/-- What holds in every phase of a load. -/
theorem LoadPhase.kept (hp : LoadPhase y₀ r segs y moved) :
    y.mem = y₀.mem ∧ (∀ q a, Outside y₀ r segs q a → y.vec.ram q a = y₀.vec.ram q a) ∧
      moved <+: elements segs := by
  cases hp with
  | moving h k hl hmoved =>
      exact ⟨hl.mem, fun q a ha => hl.loaded.other q a ha, hmoved ▸ List.take_prefix _ _⟩
  | ending he hmoved =>
      exact ⟨he.mem, fun q a ha => he.loaded.other q a ha, hmoved ▸ List.prefix_rfl⟩
  | done hd hmoved => exact ⟨hd.mem, hd.other, hmoved ▸ List.prefix_rfl⟩

/-- The unit says that it is done when the load is. -/
theorem LoadPhase.of_done (hp : LoadPhase y₀ r segs y moved) (hdone : y.dma.doneOut = true) :
    moved = elements segs ∧ LoadDone y₀ r segs y := by
  rw [Dma.doneOut] at hdone
  cases hp with
  | moving h k hl _ =>
      rw [hl.walk.active.done] at hdone
      simp at hdone
  | ending he _ =>
      rw [he.ending.next] at hdone
      simp at hdone
  | done hd hmoved => exact ⟨hmoved, hd⟩

theorem LoadDone.doneOut (hd : LoadDone y₀ r segs y) : y.dma.doneOut = true := by
  rw [Dma.doneOut, hd.rest.dma.done, hd.rest.dma.next]
  rfl

variable (hV : 2 ≤ V ∧ V ≤ 16)
variable (hc : c.vectorsBits ≤ 3) (hr : r < 2 ^ (c.vectorsBits + 1))

include hc hr in
theorem Commanded.loading (h : Commanded c y inp (loadCommand r)) (hlist : ListAt V y.mem segs)
    (hhead : segs.head?.map Segment.hdr = some (wordAddr y.vec.vaddress)) :
    Loading y r segs (y.at c inp 2) 0 0 := by
  have hs := h.started hlist hhead (ioCommand_load hc hr)
  refine ⟨hs.walk, hs.settled rfl, hs.vec, ?_, hs.mem⟩
  exact ⟨hs.write, fun _ => ⟨hs.addr, hs.incrementDelay⟩, fun m hm => by omega,
    fun m hm => by omega, fun q a _ => by rw [hs.ram]⟩

variable (hi : Issued c y inp (loadCommand r) r segs)

include hi hc hr in
theorem Issued.loading : Loading y r segs (y.at c inp 2) 0 0 :=
  hi.commanded.loading hc hr hi.list hi.head

include hi hV hc hr in
theorem Issued.load_phase (n : Nat) :
    LoadPhase y r segs (y.at c inp (n + 2)) (y.trace System.transfer c inp (n + 2)) ∧
      y.trace System.busWrite c inp (n + 2) = [] := by
  induction n with
  | zero =>
      rw [hi.commanded.trace_start (fun _ _ => transfer_of_wait) (Nat.le_refl 2),
        hi.commanded.trace_start (fun _ _ => busWrite_of_wait) (Nat.le_refl 2)]
      exact ⟨.moving 0 0 (hi.loading hc hr) rfl, rfl⟩
  | succ n ih =>
      obtain ⟨hphase, hbus⟩ := ih.1.step (c := c) hV hi.total (hi.quiet (n + 1))
      rw [show n + 1 + 2 = n + 2 + 1 by omega, trace_succ _ (n + 2), trace_succ _ (n + 2), ih.2, hbus]
      exact ⟨hphase, rfl⟩

/-- A load under way. -/
def LoadingAt (c : Config) (y : System V) (inp : Nat → Input) (r : Nat) (segs : List Segment)
    (t m : Nat) : Prop :=
  2 ≤ t ∧ ∃ h k, h + k = m ∧ Loading y r segs (y.at c inp t) h k

include hi hV in
theorem LoadingAt.step {t m : Nat} (hl : LoadingAt c y inp r segs t m) :
    if (inp t).grant then
      LoadEnding y r segs (y.at c inp (t + 1)) ∨ LoadingAt c y inp r segs (t + 1) (m + 1)
    else LoadingAt c y inp r segs (t + 1) m := by
  obtain ⟨ht, h, k, hm, hl⟩ := hl
  have hcpu : (inp t).cpu = none := by
    obtain ⟨n, rfl⟩ := Nat.exists_eq_add_of_le' ht
    exact hi.quiet (n + 1)
  have hready : (y.at c inp t).dataReady (inp t) = (inp t).grant := by
    rw [System.dataReady, hl.walk.active.addrStrobe, Bool.true_and]
  have hnext := hl.step (c := c) hV hi.total.le hcpu
  rw [hready] at hnext
  split at hnext
  · rename_i hgrant
    rw [if_pos hgrant]
    split at hnext
    · exact .inr ⟨by omega, h + 1, k, by omega, hnext⟩
    · rcases hnext.2 with hl' | ⟨-, he⟩
      · exact .inr ⟨by omega, h, k + 1, by omega, hl'⟩
      · exact .inl he
  · rename_i hgrant
    rw [if_neg hgrant]
    exact ⟨by omega, h, k, hm, hnext⟩

include hi hV hc hr in
/-- If the memory answers again and again, the load comes to its end. -/
theorem Issued.load_ends (hfair : ∀ t, ∃ t', t ≤ t' ∧ (inp t').grant = true) :
    ∃ n, 2 ≤ n ∧ LoadDone y r segs (y.at c inp n) := by
  have hending : ∃ n, 2 ≤ n ∧ LoadEnding y r segs (y.at c inp n) := by
    refine @Clocked.exists_of_steps (LoadingAt c y inp r segs)
      (fun t => LoadEnding y r segs (y.at c inp t)) (fun t => (inp t).grant = true)
      (4 * (elements segs).length + 3) ?_ ?_ ?_ hfair 2 0
      ⟨Nat.le_refl 2, 0, 0, rfl, hi.loading hc hr⟩
    · intro t m hl hnot
      have hnext := hl.step hV hi
      rwa [if_neg hnot] at hnext
    · intro t m hl hgrant
      have hnext := hl.step hV hi
      rwa [if_pos hgrant] at hnext
    · rintro t m ⟨-, h, k, hm, hl⟩
      have hcount := hl.walk.count
      have hlt := hl.walk.lt
      omega
  obtain ⟨n, hn, he⟩ := hending
  refine ⟨n + 1, by omega, he.step hi.total ?_⟩
  obtain ⟨m, rfl⟩ := Nat.exists_eq_add_of_le' hn
  exact hi.quiet (m + 1)

end Phases

end Vector
end F32c
