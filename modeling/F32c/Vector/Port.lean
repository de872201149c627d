import F32c.Vector.Walk

/-!
# One register port at work

A command for the I/O unit reaches the DMA unit two clocks later, when the index of the
port is at the start of its range.  The other ports are not written meanwhile, and what the
FIFO still fetches after an earlier command has come to its end.
-/

namespace F32c
namespace Vector

variable {V : Nat} {c : Config}

section Range

/-- The element `m` places behind `start`. -/
def place (start : BitVec V) (m : Nat) : BitVec V := start + BitVec.ofNat V m

/-- The number of elements from `start` to `stop`. -/
def rangeSize (start stop : BitVec V) : Nat := (stop - start).toNat + 1

variable {start stop : BitVec V} {m n : Nat}

theorem place_zero : place start 0 = start := by
  simp [place]

theorem place_succ : place start m + 1 = place start (m + 1) := by
  rw [place, place, BitVec.add_assoc, BitVec.ofNat_add]
  rfl

theorem rangeSize_le : rangeSize start stop ≤ 2 ^ V := (stop - start).isLt

theorem place_inj (hm : m < 2 ^ V) (hn : n < 2 ^ V) : place start m = place start n ↔ m = n := by
  rw [place, place, BitVec.add_right_inj]
  constructor
  · intro h
    have hval := congrArg BitVec.toNat h
    rwa [BitVec.toNat_ofNat, BitVec.toNat_ofNat, Nat.mod_eq_of_lt hm, Nat.mod_eq_of_lt hn] at hval
  · rintro rfl
    rfl

theorem place_stop : place start (rangeSize start stop - 1) = stop := by
  rw [rangeSize, Nat.add_sub_cancel, place, BitVec.ofNat_toNat, BitVec.setWidth_eq,
    BitVec.add_comm, BitVec.sub_add_cancel]

/-- The range ends with its last element. -/
theorem place_eq_stop (hm : m < rangeSize start stop) :
    place start m = stop ↔ m + 1 = rangeSize start stop := by
  have hle := @rangeSize_le V start stop
  have hpos : 0 < rangeSize start stop := Nat.succ_pos _
  have hstop : place start m = stop ↔ place start m = place start (rangeSize start stop - 1) := by
    rw [place_stop]
  rw [hstop, place_inj (by omega) (by omega)]
  omega

end Range

section Commands

/-- `0xE3000000` with the port as argument and as result: load, delay 0. -/
def loadCommand (r : Nat) : Word := 0xe3000000#32 + BitVec.ofNat 32 (r * 17)

/-- `0xE381F000` with the port as argument and as result: store, no delay. -/
def storeCommand (r : Nat) : Word := 0xe381f000#32 + BitVec.ofNat 32 (r * 17)

/-- The fields of a command for the I/O unit. -/
structure IoCommand (c : Config) (w : Word) (r : Nat) (store : Bool) (delay : BitVec 5) : Prop where
  execute : w.extractLsb' 28 4 = 0xe#4
  function : w.extractLsb' 24 2 = functionIo
  store : w.getLsbD 23 = store
  delay : w.extractLsb' 12 5 = delay
  result : cmdPort c w 0 = r
  arg1 : cmdPort c w 4 = r

theorem ioCommand_load {r : Nat} (hc : c.vectorsBits ≤ 3) (hr : r < 2 ^ (c.vectorsBits + 1)) :
    IoCommand c (loadCommand r) r false 0#5 := by
  obtain ⟨vb, pass⟩ := c
  dsimp only at hc hr
  interval_cases vb <;> interval_cases r <;> constructor <;> decide +revert

theorem ioCommand_store {r : Nat} (hc : c.vectorsBits ≤ 3) (hr : r < 2 ^ (c.vectorsBits + 1)) :
    IoCommand c (storeCommand r) r true 0b11111#5 := by
  obtain ⟨vb, pass⟩ := c
  dsimp only at hc hr
  interval_cases vb <;> interval_cases r <;> constructor <;> decide +revert

variable {v : Vec V} {i : VecInput}

/-- The command is decoded. -/
theorem decode_ioCommand {w : Word} {r : Nat} {store : Bool} {delay : BitVec 5}
    (hcmd : IoCommand c w r store delay) (hcpu : i.cpu = some (cVcommand, w)) :
    v.decode c i =
      { v with
        ioRequest := true
        ioStoreMode := store
        ioFlowcontrol := Function.update v.ioFlowcontrol r true
        indexReset := Function.update v.indexReset r true
        incrementDelayStart := Function.update v.incrementDelayStart r delay
        arg1 := Function.update v.arg1 functionIo r
        result := Function.update v.result r functionIo
        writeRequest := Function.update v.writeRequest r !store } := by
  rw [Vec.decode, hcpu]
  dsimp only
  have hsame : (if cVcommand = cVaddress then { v with vaddress := w } else v) = v :=
    if_neg (by decide)
  rw [hsame, if_pos rfl, if_neg (by rw [hcmd.execute]; decide), if_pos hcmd.execute, Vec.execute,
    hcmd.function, hcmd.store, hcmd.delay, hcmd.result, hcmd.arg1, if_pos rfl]

theorem decode_none (hcpu : i.cpu = none) :
    v.decode c i =
      { v with
        ioRequest := false
        indexReset := fun _ => false
        writeRequest := fun _ => false } := by
  rw [Vec.decode, hcpu]

end Commands

section Port

variable {v : Vec V} {i : VecInput} {r : Nat}

/-- At most one port is written. -/
theorem ramNext_of_single (h : ∀ p, p ≠ r → v.write p = false) (k : Nat) :
    v.ramNext i k = if k = r / 2 then v.writePort i r (v.ram k) else v.ram k := by
  have hother : ∀ p m, p ≠ r → v.writePort i p m = m := by
    intro p m hp
    rw [Vec.writePort, if_neg (by simp [h p hp])]
  unfold Vec.ramNext
  split
  · rename_i hk
    subst hk
    rcases Nat.mod_two_eq_zero_or_one r with heven | hodd
    · rw [hother (2 * (r / 2) + 1) _ (by omega), show 2 * (r / 2) = r by omega]
    · rw [hother (2 * (r / 2)) _ (by omega), show 2 * (r / 2) + 1 = r by omega]
  · rw [hother (2 * k + 1) _ (by omega), hother (2 * k) _ (by omega)]

/-- A port that is not reset is not written either, unless it was before. -/
theorem writeNext_of_false {p : Nat} (hreset : v.indexReset p = false) (h : v.write p = false) :
    v.writeNext i p = false := by
  rw [Vec.writeNext, if_neg (by simp [hreset])]
  split
  · rfl
  · exact h

end Port

section Fifo

variable {d : Dma V} {i : DmaInput}

/-- How many elements are in the FIFO. -/
def Dma.level (d : Dma V) : BitVec 2 := d.indexIn - d.indexOut

/-- The FIFO fills up to three elements, and then waits. -/
inductive Settled (d : Dma V) : Prop
  | one (hreset : d.wdataFifoReset = false) (hlevel : d.level = 1#2)
      (hready : d.bramRdataReady = true)
  | two (hreset : d.wdataFifoReset = false) (hlevel : d.level = 2#2)
  | three (hreset : d.wdataFifoReset = false) (hlevel : d.level = 3#2)
      (hready : d.bramRdataReady = false)

/-- The state machine does not fill the FIFO. -/
theorem control_fifo : (d.control i).indexIn = d.indexIn ∧
    (d.control i).wdataFifo = d.wdataFifo := by
  unfold Dma.control
  dsimp only
  split
  · unfold Dma.idleStep
    split <;> exact ⟨rfl, rfl⟩
  · split
    · unfold Dma.readAck Dma.jumpNext
      split_ifs <;> exact ⟨rfl, rfl⟩
    · exact ⟨rfl, rfl⟩
  · split
    · unfold Dma.writeAck Dma.jumpNext
      split_ifs <;> exact ⟨rfl, rfl⟩
    · exact ⟨rfl, rfl⟩

/-- The FIFO in a clock. -/
theorem step_fifo :
    (d.step i).indexIn =
        (if d.wdataFifoReset then d.indexOut
          else if d.bramRdataReady then d.indexIn + 1 else d.indexIn) ∧
      (d.step i).bramRdataReady = (!d.wdataFifoReset && d.needRefill) ∧
      (d.step i).wdataFifo =
        (if d.wdataFifoReset = false ∧ d.bramRdataReady = true
          then Function.update d.wdataFifo d.indexIn i.bramRdata else d.wdataFifo) ∧
      (d.step i).indexOut = (d.control i).indexOut ∧
      (d.step i).wdataFifoReset = (d.control i).wdataFifoReset := by
  obtain ⟨hin, hfifo⟩ := @control_fifo V d i
  unfold Dma.step
  split
  · rename_i hreset
    simp [hreset, hfifo]
  · rename_i hreset
    split
    · rename_i hready
      simp [hreset, hready]
    · rename_i hready
      simp [hreset, hready, hin, hfifo]

theorem needRefill_level : d.needRefill = d.level.ult 2#2 := by
  rfl

/-- The level of the FIFO when nothing is taken from it. -/
theorem step_level (hout : (d.control i).indexOut = d.indexOut) (hreset : d.wdataFifoReset = false) :
    (d.step i).level = if d.bramRdataReady then d.level + 1 else d.level := by
  obtain ⟨hin, -, -, hout', -⟩ := @step_fifo V d i
  have hsucc : ∀ x y : BitVec 2, x + 1 - y = x - y + 1 := by decide
  rw [Dma.level, hin, hout', hout, if_neg (by simp [hreset])]
  split
  · rw [hsucc]
    rfl
  · rfl

/-- A settled FIFO has two elements or more in the next clock. -/
theorem Settled.level_next (h : Settled d) (hout : (d.control i).indexOut = d.indexOut) :
    (d.step i).level = 2#2 ∨ (d.step i).level = 3#2 := by
  cases h with
  | one hreset hlevel hready =>
      left
      rw [step_level hout hreset, if_pos hready, hlevel]
      rfl
  | two hreset hlevel =>
      rw [step_level hout hreset, hlevel]
      split
      · exact .inr rfl
      · exact .inl rfl
  | three hreset hlevel hready =>
      right
      rw [step_level hout hreset, if_neg (by simp [hready]), hlevel]

theorem Settled.step (h : Settled d) (hout : (d.control i).indexOut = d.indexOut)
    (hkeep : (d.control i).wdataFifoReset = false) : Settled (d.step i) := by
  obtain ⟨-, hready', -, -, hreset'⟩ := @step_fifo V d i
  rw [hkeep] at hreset'
  cases h with
  | one hreset hlevel hready =>
      refine .two hreset' ?_
      rw [step_level hout hreset, if_pos hready, hlevel]
      rfl
  | two hreset hlevel =>
      have hnext := step_level (d := d) hout hreset
      rw [needRefill_level, hlevel, hreset] at hready'
      rw [hlevel] at hnext
      cases hready : d.bramRdataReady with
      | true =>
          rw [hready] at hnext
          exact .three hreset' hnext hready'
      | false =>
          rw [hready] at hnext
          exact .two hreset' hnext
  | three hreset hlevel hready =>
      rw [needRefill_level, hlevel, hreset] at hready'
      refine .three hreset' ?_ hready'
      rw [step_level hout hreset, if_neg (by simp [hready]), hlevel]

end Fifo

section Rest

/-- The DMA unit waits for a request, with a FIFO that does not move the index. -/
structure DmaRest (d : Dma V) : Prop where
  state : d.state = .idle
  addrStrobe : d.addrStrobe = false
  dataWrite : d.dataWrite = false
  done : d.done = true
  next : d.next = false
  settled : Settled d

/-- No command is going on. -/
structure Rest (y : System V) : Prop where
  dma : DmaRest y.dma
  ioRequest : y.vec.ioRequest = false
  indexReset : ∀ p, y.vec.indexReset p = false
  write : ∀ p, y.vec.write p = false

variable {d : Dma V} {i : DmaInput}

theorem control_idle (hstate : d.state = .idle) (hreq : i.request = false) :
    d.control i = { d with next := false } := by
  unfold Dma.control Dma.idleStep
  dsimp only
  rw [hstate]
  dsimp only
  rw [if_neg (by simp [hreq])]

theorem step_idle (hstate : d.state = .idle) (hreq : i.request = false) :
    (d.step i).state = .idle ∧ (d.step i).addrStrobe = d.addrStrobe ∧
      (d.step i).dataWrite = d.dataWrite ∧ (d.step i).done = d.done ∧
      (d.step i).next = false ∧ (d.step i).storeMode = d.storeMode := by
  unfold Dma.step
  rw [control_idle hstate hreq]
  dsimp only
  split
  · exact ⟨hstate, rfl, rfl, rfl, rfl, rfl⟩
  · split <;> exact ⟨hstate, rfl, rfl, rfl, rfl, rfl⟩

theorem Settled.reset (h : Settled d) : d.wdataFifoReset = false := by
  cases h <;> assumption

theorem DmaRest.step (h : DmaRest d) (hreq : i.request = false) : DmaRest (d.step i) := by
  obtain ⟨hstate, hstrobe, hwrite, hdone, hnext, -⟩ := step_idle h.state hreq
  refine ⟨hstate, hstrobe.trans h.addrStrobe, hwrite.trans h.dataWrite, hdone.trans h.done, hnext, ?_⟩
  apply h.settled.step
  · rw [control_idle h.state hreq]
  · rw [control_idle h.state hreq]
    exact h.settled.reset

variable {v : Vec V} {j : VecInput} {r : Nat}

/-- A clock of the vector unit in which no port is written. -/
theorem ramNext_of_none (h : ∀ p, v.write p = false) : v.ramNext j = v.ram := by
  funext k
  rw [ramNext_of_single (r := 0) (fun p _ => h p)]
  split
  · rw [Vec.writePort, if_neg (by simp [h 0])]
  · rfl

/-- The port `r` is under the control of the I/O unit, and no other port is written. -/
structure Attached (v : Vec V) (r : Nat) (stop : BitVec V) : Prop where
  ioRequest : v.ioRequest = false
  indexReset : ∀ p, v.indexReset p = false
  ioFlowcontrol : v.ioFlowcontrol r = true
  result : v.result r = functionIo
  arg1 : v.arg1 functionIo = r
  addrStop : v.addrStop r = stop
  write : ∀ p, p ≠ r → v.write p = false

variable {stop : BitVec V}

theorem Attached.step (h : Attached v r stop) (hcpu : j.cpu = none) :
    Attached (v.step c j) r stop := by
  unfold Vec.step
  rw [decode_none hcpu]
  exact ⟨rfl, fun _ => rfl, h.ioFlowcontrol, h.result, h.arg1, h.addrStop,
    fun p hp => writeNext_of_false (h.indexReset p) (h.write p hp)⟩

end Rest

section Start

variable {y : System V} {i₀ i₁ : Input} {w : Word} {r : Nat} {store : Bool} {delay : BitVec 5}

/-- The two clocks from a command to the start of the walk. -/
def System.start (c : Config) (y : System V) (i₀ i₁ : Input) : System V :=
  (y.step c i₀).step c i₁

/-- The vector unit one clock after a command. -/
theorem vec_command (h : Rest y) (hcmd : IoCommand c w r store delay)
    (hcpu : i₀.cpu = some (cVcommand, w)) :
    (y.step c i₀).vec.ioRequest = true ∧ (y.step c i₀).vec.ioStoreMode = store ∧
      (y.step c i₀).vec.vaddress = y.vec.vaddress ∧
      (∀ p, (y.step c i₀).vec.indexReset p = true ↔ p = r) ∧
      (∀ p, (y.step c i₀).vec.write p = false) ∧
      (y.step c i₀).vec.writeRequest r = !store ∧
      (y.step c i₀).vec.addrStart = y.vec.addrStart ∧
      (y.step c i₀).vec.addrStop = y.vec.addrStop ∧
      (y.step c i₀).vec.incrementDelayStart r = delay ∧
      (y.step c i₀).vec.ioFlowcontrol r = true ∧ (y.step c i₀).vec.result r = functionIo ∧
      (y.step c i₀).vec.arg1 functionIo = r ∧ (y.step c i₀).vec.ram = y.vec.ram := by
  have hdecode := decode_ioCommand (v := y.vec) (i := y.vecInput i₀) hcmd hcpu
  unfold System.step Vec.step
  dsimp only
  rw [hdecode]
  refine ⟨rfl, rfl, rfl, ?_, ?_, ?_, rfl, rfl, ?_, ?_, ?_, ?_, ?_⟩
  · intro p
    by_cases hp : p = r
    · simp [hp]
    · simp [hp, h.indexReset p]
  · exact fun p => writeNext_of_false (h.indexReset p) (h.write p)
  · simp
  · simp
  · simp
  · simp
  · simp
  · exact ramNext_of_none h.write

/-- The port is at the start of its range. -/
theorem vec_start (h : Rest y) (hcmd : IoCommand c w r store delay)
    (hcpu : i₀.cpu = some (cVcommand, w)) (hquiet : i₁.cpu = none) :
    Attached (y.start c i₀ i₁).vec r (y.vec.addrStop r) ∧
      (y.start c i₀ i₁).vec.addr r = y.vec.addrStart r ∧
      (y.start c i₀ i₁).vec.incrementDelay r = delay ∧
      (y.start c i₀ i₁).vec.write r = !store ∧ (y.start c i₀ i₁).vec.ram = y.vec.ram := by
  obtain ⟨-, -, -, hreset, hwrite, hreq, hstart, hstop, hdelay, hflow, hresult, harg, hram⟩ :=
    vec_command h hcmd hcpu
  unfold System.start
  generalize y.step c i₀ = y₁ at *
  have hdecode := decode_none (c := c) (v := y₁.vec) (i := y₁.vecInput i₁) hquiet
  have hr : y₁.vec.indexReset r = true := (hreset r).2 rfl
  unfold System.step Vec.step
  dsimp only
  rw [hdecode]
  refine ⟨⟨rfl, fun _ => rfl, hflow, hresult, harg, congrFun hstop r, ?_⟩, ?_, ?_, ?_, ?_⟩
  · intro p hp
    have hp' : y₁.vec.indexReset p = false := by
      rw [Bool.eq_false_iff]
      exact fun hreset' => hp ((hreset p).1 hreset')
    exact writeNext_of_false hp' (hwrite p)
  · rw [Vec.addrNext, if_pos hr, hstart]
  · rw [Vec.delayNext, if_pos hr, hdelay]
  · rw [Vec.writeNext, if_pos hr, hreq]
  · exact (ramNext_of_none hwrite).trans hram

theorem control_request {d : Dma V} {i : DmaInput} (h : DmaRest d) (hreq : i.request = true) :
    d.control i =
      { d with
        next := false
        ramAddr := i.addr
        bramAddr := 0
        storeMode := i.storeMode
        wdataFifoReset := i.storeMode
        lengthRemaining := headerLength
        headerMode := true
        done := false
        addrStrobe := true
        state := .waitReadDataAck } := by
  unfold Dma.control Dma.idleStep
  dsimp only
  rw [h.state]
  dsimp only
  rw [if_pos hreq]

/-- A request takes the DMA unit to the first word of the list. -/
theorem dma_request {d : Dma V} {i : DmaInput} {mem : Mem} {s : Segment} {rest : List Segment}
    (h : DmaRest d) (hreq : i.request = true) (hlist : ListAt V mem (s :: rest))
    (haddr : i.addr = s.hdr) :
    Walk mem (s :: rest) i.storeMode (d.step i) 0 0 ∧
      (d.step i).wdataFifoReset = i.storeMode ∧
      ((d.step i).level = 2#2 ∨ (d.step i).level = 3#2) ∧
      (i.storeMode = false → Settled (d.step i)) := by
  have hcontrol := control_request h hreq
  have hout : (d.control i).indexOut = d.indexOut := by rw [hcontrol]
  have hreset : (d.control i).wdataFifoReset = i.storeMode := by rw [hcontrol]
  refine ⟨?_, step_fifo.2.2.2.2.trans hreset, h.settled.level_next hout, ?_⟩
  · apply Walk.step
    rw [hcontrol]
    refine .header 0 s rest (by omega) (by omega) List.suffix_rfl hlist rfl ⟨rfl, rfl, rfl, rfl⟩ rfl rfl
      h.dataWrite ?_ rfl (by omega) (by omega) ?_
    · simp [haddr]
    · simp
  · exact fun hload => h.settled.step hout (hreset.trans hload)

end Start

section Run

variable {y : System V} {i : Input} {inp : Nat → Input}

/-- The address of an element that is moved in this clock. -/
def System.transfer (y : System V) (i : Input) : Option Addr :=
  if y.dataReady i && !y.dma.headerMode then some y.dma.ramAddr else none

/-- The system after `n` clocks. -/
abbrev System.at (c : Config) (y : System V) (inp : Nat → Input) (n : Nat) : System V :=
  Clocked.stateAt (System.step c) y inp n

/-- The events of the first `n` clocks. -/
def System.trace {α : Type} (event : System V → Input → Option α) (c : Config) (y : System V)
    (inp : Nat → Input) (n : Nat) : List α :=
  (List.range n).flatMap fun t => (event (y.at c inp t) (inp t)).toList

theorem trace_succ {α : Type} (event : System V → Input → Option α) (n : Nat) :
    y.trace event c inp (n + 1) =
      y.trace event c inp n ++ (event (y.at c inp n) (inp n)).toList := by
  rw [System.trace, System.trace, List.range_succ, List.flatMap_append, List.flatMap_singleton]

/-- Without a request on the bus nothing happens there. -/
theorem dataReady_of_quiet (h : y.dma.addrStrobe = false) : y.dataReady i = false := by
  rw [System.dataReady, h, Bool.false_and]

theorem transfer_of_wait (h : y.dataReady i = false) : y.transfer i = none := by
  simp [System.transfer, h]

theorem busWrite_of_wait (h : y.dataReady i = false) : y.busWrite i = none := by
  simp [System.busWrite, h]

theorem mem_step (c : Config) (y : System V) (i : Input) :
    (y.step c i).mem = (match y.busWrite i with
      | some (a, w) => Function.update y.mem a w
      | none => y.mem) := by
  rfl

theorem mem_of_none (h : y.busWrite i = none) : (y.step c i).mem = y.mem := by
  rw [mem_step, h]

/-- A clock without a command leaves a system at rest as it is. -/
theorem Rest.step (h : Rest y) (hcpu : i.cpu = none) :
    Rest (y.step c i) ∧ (y.step c i).vec.ram = y.vec.ram ∧ (y.step c i).mem = y.mem := by
  have hquiet := dataReady_of_quiet (i := i) h.dma.addrStrobe
  have hdecode := decode_none (c := c) (v := y.vec) (i := y.vecInput i) hcpu
  refine ⟨⟨h.dma.step h.ioRequest, ?_, ?_, ?_⟩, ramNext_of_none h.write,
    mem_of_none (busWrite_of_wait hquiet)⟩
  · change (y.vec.decode c (y.vecInput i)).ioRequest = false
    rw [hdecode]
  · intro p
    change (y.vec.decode c (y.vecInput i)).indexReset p = false
    rw [hdecode]
  · exact fun p => writeNext_of_false (h.indexReset p) (h.write p)

/-- A command with the word `w` is given to a system at rest; no other command follows. -/
structure Commanded (c : Config) (y : System V) (inp : Nat → Input) (w : Word) : Prop where
  rest : Rest y
  command : (inp 0).cpu = some (cVcommand, w)
  quiet : ∀ t, (inp (t + 1)).cpu = none

/--
A command with the word `w` is issued to a system at rest, for a list of segments in the
memory that has as many elements as the range of the port; no other command follows.
-/
structure Issued (c : Config) (y : System V) (inp : Nat → Input) (w : Word) (r : Nat)
    (segs : List Segment) : Prop where
  rest : Rest y
  command : (inp 0).cpu = some (cVcommand, w)
  quiet : ∀ t, (inp (t + 1)).cpu = none
  list : ListAt V y.mem segs
  head : segs.head?.map Segment.hdr = some (wordAddr y.vec.vaddress)
  total : (elements segs).length = rangeSize (y.vec.addrStart r) (y.vec.addrStop r)

variable {w : Word} {r : Nat} {store : Bool} {delay : BitVec 5} {segs : List Segment}

/-- Two clocks after a command the unit is at the first word of the list, and the index at
the start of the range. -/
structure Started (y₀ : System V) (r : Nat) (segs : List Segment) (store : Bool)
    (delay : BitVec 5) (y : System V) : Prop where
  walk : Walk y₀.mem segs store y.dma 0 0
  fifo : y.dma.wdataFifoReset = store
  level : y.dma.level = 2#2 ∨ y.dma.level = 3#2
  settled : store = false → Settled y.dma
  vec : Attached y.vec r (y₀.vec.addrStop r)
  addr : y.vec.addr r = y₀.vec.addrStart r
  incrementDelay : y.vec.incrementDelay r = delay
  write : y.vec.write r = !store
  ram : y.vec.ram = y₀.vec.ram
  mem : y.mem = y₀.mem

theorem Issued.commanded (h : Issued c y inp w r segs) : Commanded c y inp w :=
  ⟨h.rest, h.command, h.quiet⟩

theorem Commanded.quiet_bus (h : Commanded c y inp w) {n : Nat} (hn : n < 2) :
    (y.at c inp n).dataReady (inp n) = false := by
  apply dataReady_of_quiet
  interval_cases n
  · exact h.rest.dma.addrStrobe
  · exact (h.rest.dma.step h.rest.ioRequest).addrStrobe

theorem Commanded.trace_start {α : Type} {event : System V → Input → Option α}
    (h : Commanded c y inp w)
    (hevent : ∀ (y : System V) i, y.dataReady i = false → event y i = none) {n : Nat}
    (hn : n ≤ 2) : y.trace event c inp n = [] := by
  induction n with
  | zero => rfl
  | succ n ih => rw [trace_succ, ih (by omega), hevent _ _ (h.quiet_bus hn)]; rfl

theorem Commanded.mem_start (h : Commanded c y inp w) {n : Nat} (hn : n ≤ 2) :
    (y.at c inp n).mem = y.mem := by
  induction n with
  | zero => rfl
  | succ n ih =>
      rw [← ih (by omega)]
      exact mem_of_none (busWrite_of_wait (h.quiet_bus hn))

/-- Before the walk begins the registers are as they were. -/
theorem Commanded.ram_start (h : Commanded c y inp w) (hcmd : IoCommand c w r store delay)
    {n : Nat} (hn : n < 2) : (y.at c inp n).vec.ram = y.vec.ram := by
  interval_cases n
  · rfl
  · exact (vec_command h.rest hcmd h.command).2.2.2.2.2.2.2.2.2.2.2.2

/-- The request that reaches the DMA unit. -/
theorem Commanded.request (h : Commanded c y inp w) (hcmd : IoCommand c w r store delay) :
    DmaRest (y.step c (inp 0)).dma ∧
      ((y.step c (inp 0)).dmaInput (inp 1)).request = true ∧
      ((y.step c (inp 0)).dmaInput (inp 1)).storeMode = store ∧
      ((y.step c (inp 0)).dmaInput (inp 1)).addr = wordAddr y.vec.vaddress := by
  obtain ⟨hreq, hstore, hptr, -⟩ := vec_command h.rest hcmd h.command
  refine ⟨h.rest.dma.step h.rest.ioRequest, hreq, hstore, ?_⟩
  rw [← hptr]
  rfl

theorem Commanded.started (h : Commanded c y inp w) (hlist : ListAt V y.mem segs)
    (hhead : segs.head?.map Segment.hdr = some (wordAddr y.vec.vaddress))
    (hcmd : IoCommand c w r store delay) :
    Started y r segs store delay (y.at c inp 2) := by
  obtain ⟨s, rest, rfl⟩ : ∃ s rest, segs = s :: rest := by
    cases segs with
    | nil => exact absurd hlist id
    | cons s rest => exact ⟨s, rest, rfl⟩
  obtain ⟨hvec, haddr, hdelay, hwrite, hram⟩ := vec_start h.rest hcmd h.command (h.quiet 0)
  obtain ⟨hdma, hreq, hstore, hptr⟩ := h.request hcmd
  obtain ⟨hwalk, hfifo, hlevel, hsettled⟩ :=
    dma_request hdma hreq hlist (hptr.trans (by simpa using hhead.symm))
  exact ⟨hstore ▸ hwalk, hfifo.trans hstore, hlevel, fun hload => hsettled (hstore.trans hload),
    hvec, haddr, hdelay, hwrite, hram, h.mem_start (Nat.le_refl 2)⟩

end Run

end Vector
end F32c
