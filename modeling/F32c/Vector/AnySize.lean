import F32c.Vector.Tour
import F32c.Vector.Transfer

/-!
# Loads and stores of any size

Here a load or a store is followed for a list that need not match the register.  Its
transactions are about what the list says for as long as the list fits the count of elements
of the DMA unit, and the unit comes to its end exactly then.  A load that ends within the
range of the register leaves a copy of its last element behind.
-/

namespace F32c
namespace Vector

variable {V : Nat} {c : Config}

section Phases

/-- The unit is idle after a transfer. -/
structure Stopped (d : Dma V) : Prop where
  state : d.state = .idle
  addrStrobe : d.addrStrobe = false
  done : d.done = true
  next : d.next = false

/--
Where a transfer is after the transactions `log`.  Once one of them was not about what the
list says there, nothing is said about the unit any more.
-/
inductive TourPhase (y₀ : System V) (segs : List Segment) (store : Bool) (y : System V)
    (log : List Transaction) : Prop
  | touring (p : Spot) (hw : Tour y₀.mem segs store y.dma p) (hlog : follow V segs log = some p)
      (hmem : ∀ a ∈ headers segs, y.mem a = y₀.mem a)
  | ending (p : Spot) (he : Ending store y.dma) (hfits : Fits V store segs)
      (hlog : follow V segs log = some p)
  | stopped (p : Spot) (hs : Stopped y.dma) (hfits : Fits V store segs)
      (hlog : follow V segs log = some p)
  | lost (hlog : follow V segs log = none) (hnot : ¬Fits V store segs)

variable {y₀ y : System V} {i : Input} {inp : Nat → Input} {segs : List Segment} {store : Bool}
variable {log : List Transaction} {w : Word} {r : Nat} {delay : BitVec 5}

theorem transaction_of_wait (h : y.dataReady i = false) : y.transaction i = none := by
  simp [System.transaction, h]

theorem ioRequest_step (hcpu : i.cpu = none) : (y.step c i).vec.ioRequest = false := by
  change (y.vec.decode c (y.vecInput i)).ioRequest = false
  rw [decode_none hcpu]

/-- The unit overwrites no header of a list whose headers lie apart from its elements. -/
theorem Tour.headers_kept {p : Spot} (hw : Tour y₀.mem segs store y.dma p)
    (hapart : store = true → ∀ a ∈ headers segs, a ∉ elements segs)
    (hmem : ∀ a ∈ headers segs, y.mem a = y₀.mem a) :
    ∀ a ∈ headers segs, (y.step c i).mem a = y₀.mem a := by
  intro a ha
  rw [mem_step]
  cases hbus : y.busWrite i with
  | none => exact hmem a ha
  | some x =>
      obtain ⟨b, w⟩ := x
      rw [System.busWrite, Option.ite_none_right_eq_some, Option.some.injEq, Prod.mk.injEq] at hbus
      obtain ⟨hwrite, hb, -⟩ := hbus
      rw [hw.dataWrite_eq] at hwrite
      simp only [Bool.and_eq_true, Bool.not_eq_true'] at hwrite
      have hne : a ≠ b := by
        rintro rfl
        exact hapart hwrite.2.1 a ha (hb ▸ hw.element_mem hwrite.2.2)
      dsimp only
      rw [Function.update_of_ne hne]
      exact hmem a ha

/-- A word of a header is on the bus as it was at the start. -/
theorem Tour.dataIn_eq {p : Spot} (hw : Tour y₀.mem segs store y.dma p)
    (hmem : ∀ a ∈ headers segs, y.mem a = y₀.mem a) (hready : y.dataReady i = true)
    (hmode : y.dma.headerMode = true) : y.dataIn i = y₀.mem y.dma.ramAddr := by
  have hwrite : y.dma.dataWrite = false := by rw [hw.dataWrite_eq, hmode, Bool.not_true, Bool.and_false]
  rw [System.dataIn, if_pos (by simp [hready, hwrite])]
  exact hmem _ (hw.header_mem hmode)

theorem Ending.stopped {d : Dma V} {i : DmaInput} (he : Ending store d) (hreq : i.request = false) :
    Stopped (d.step i) := by
  obtain ⟨hstate, hstrobe, -, hdone, hnext, -⟩ := step_idle he.state hreq
  exact ⟨hstate, hstrobe.trans he.addrStrobe, hdone.trans he.done, hnext⟩

theorem Stopped.step {d : Dma V} {i : DmaInput} (hs : Stopped d) (hreq : i.request = false) :
    Stopped (d.step i) := by
  obtain ⟨hstate, hstrobe, -, hdone, hnext, -⟩ := step_idle hs.state hreq
  exact ⟨hstate, hstrobe.trans hs.addrStrobe, hdone.trans hs.done, hnext⟩

theorem Stopped.doneOut {d : Dma V} (hs : Stopped d) : d.doneOut = true := by
  rw [Dma.doneOut, hs.done, hs.next]
  rfl

variable (hV : 2 ≤ V ∧ V ≤ 16)
variable (hapart : store = true → ∀ a ∈ headers segs, a ∉ elements segs)

include hV hapart in
/-- An acknowledged transaction. -/
theorem Tour.phase_step {p : Spot} (hw : Tour y₀.mem segs store y.dma p)
    (hmem : ∀ a ∈ headers segs, y.mem a = y₀.mem a) (hlog : follow V segs log = some p)
    (hready : y.dataReady i = true) :
    TourPhase y₀ segs store (y.step c i) (log ++ [⟨y.dma.use, y.dma.ramAddr⟩]) := by
  have hmem' := hw.headers_kept (c := c) (i := i) hapart hmem
  have hfollow : follow V segs (log ++ [⟨y.dma.use, y.dma.ramAddr⟩]) =
      p.next V ⟨y.dma.use, y.dma.ramAddr⟩ := by
    rw [follow_concat, hlog, Option.bind_some]
  cases hmode : y.dma.headerMode with
  | true =>
      rcases hw.step_header (i := y.dmaInput i) hV hready hmode (hw.dataIn_eq hmem hready hmode)
        with ⟨p', hp, htour⟩ | ⟨hp, hnot⟩
      · exact .touring p' htour (hfollow.trans hp) hmem'
      · exact .lost (hfollow.trans hp) hnot
  | false =>
      rcases hw.step_element (i := y.dmaInput i) hV hready hmode with
        ⟨p', hp, htour | ⟨hend, hfits⟩⟩ | ⟨hp, hnot⟩
      · exact .touring p' htour (hfollow.trans hp) hmem'
      · exact .ending p' hend hfits (hfollow.trans hp)
      · exact .lost (hfollow.trans hp) hnot

include hV hapart in
theorem TourPhase.step (hp : TourPhase y₀ segs store y log) (hreq : y.vec.ioRequest = false) :
    TourPhase y₀ segs store (y.step c i) (log ++ (y.transaction i).toList) := by
  cases hp with
  | touring p hw hlog hmem =>
      cases hready : y.dataReady i with
      | false =>
          rw [transaction_of_wait hready, Option.toList_none, List.append_nil]
          exact .touring p (hw.step_wait hready) hlog (hw.headers_kept hapart hmem)
      | true =>
          rw [System.transaction, if_pos hready, Option.toList_some]
          exact hw.phase_step hV hapart hmem hlog hready
  | ending p he hfits hlog =>
      rw [transaction_of_wait (dataReady_of_quiet he.addrStrobe), Option.toList_none,
        List.append_nil]
      exact .stopped p (he.stopped hreq) hfits hlog
  | stopped p hs hfits hlog =>
      rw [transaction_of_wait (dataReady_of_quiet hs.addrStrobe), Option.toList_none,
        List.append_nil]
      exact .stopped p (hs.step hreq) hfits hlog
  | lost hlog hnot =>
      refine .lost ?_ hnot
      cases y.transaction i with
      | none => simpa using hlog
      | some t => rw [Option.toList_some, follow_concat, hlog, Option.bind_none]

/-- The unit says that it is done when it is at the end of a list that fits. -/
theorem TourPhase.of_done (hp : TourPhase y₀ segs store y log) (hdone : y.dma.doneOut = true) :
    follow V segs log = none ∨ Fits V store segs := by
  rw [Dma.doneOut] at hdone
  cases hp with
  | touring p hw _ _ => simp [hw.active.done] at hdone
  | ending p he _ _ => simp [he.next] at hdone
  | stopped p _ hfits _ => exact .inr hfits
  | lost hlog _ => exact .inl hlog

/-- On a list that fits every transaction is about what the list says. -/
theorem TourPhase.followed (hp : TourPhase y₀ segs store y log) (hfits : Fits V store segs) :
    (follow V segs log).isSome = true := by
  cases hp with
  | touring p _ hlog _ => rw [hlog, Option.isSome_some]
  | ending p _ _ hlog => rw [hlog, Option.isSome_some]
  | stopped p _ _ hlog => rw [hlog, Option.isSome_some]
  | lost _ hnot => exact absurd hfits hnot

end Phases

section Run

/-- The transactions of the first `n` clocks. -/
abbrev System.log (c : Config) (y : System V) (inp : Nat → Input) (n : Nat) : List Transaction :=
  y.trace System.transaction c inp n

variable {y : System V} {inp : Nat → Input} {segs : List Segment} {store : Bool}
variable {w : Word} {r : Nat} {delay : BitVec 5}
variable (hcom : Commanded c y inp w) (hcmd : IoCommand c w r store delay)
variable (hlist : ListIn y.mem segs)
variable (hhead : segs.head?.map Segment.hdr = some (wordAddr y.vec.vaddress))

include hcom hcmd hlist hhead in
/-- The tour begins two clocks after the command. -/
theorem Commanded.touring :
    Tour y.mem segs store (y.at c inp 2).dma ⟨0, segs, 0, 0⟩ ∧ y.log c inp 2 = [] ∧
      (y.at c inp 2).mem = y.mem := by
  obtain ⟨s, rest, rfl⟩ : ∃ s rest, segs = s :: rest := by
    cases segs with
    | nil => exact absurd hlist id
    | cons s rest => exact ⟨s, rest, rfl⟩
  obtain ⟨hdma, hreq, hstore, hptr⟩ := hcom.request hcmd
  refine ⟨?_, hcom.trace_start (fun _ _ => transaction_of_wait) (Nat.le_refl 2),
    hcom.mem_start (Nat.le_refl 2)⟩
  have htour := tour_request hdma hreq hlist (hptr.trans (by simpa using hhead.symm))
  rw [hstore] at htour
  exact htour

theorem Commanded.quiet_request (h : Commanded c y inp w) (n : Nat) :
    (y.at c inp (n + 2)).vec.ioRequest = false := by
  exact ioRequest_step (h.quiet n)

variable (hV : 2 ≤ V ∧ V ≤ 16)
variable (hapart : store = true → ∀ a ∈ headers segs, a ∉ elements segs)

include hcom hcmd hlist hhead hV hapart in
theorem Commanded.tour_phase (n : Nat) :
    TourPhase y segs store (y.at c inp (n + 2)) (y.log c inp (n + 2)) := by
  induction n with
  | zero =>
      obtain ⟨htour, hlog, hmem⟩ := hcom.touring hcmd hlist hhead
      rw [hlog]
      exact .touring _ htour rfl (fun a _ => by rw [hmem])
  | succ n ih =>
      have hstep := ih.step (c := c) (i := inp (n + 2)) hV hapart (hcom.quiet_request n)
      rw [← trace_succ] at hstep
      exact hstep

/-- A transfer under way, after `m` transactions. -/
def TouringAt (c : Config) (y : System V) (inp : Nat → Input) (segs : List Segment) (store : Bool)
    (t m : Nat) : Prop :=
  (y.log c inp t).length = m ∧ ∃ p, Tour y.mem segs store (y.at c inp t).dma p ∧
    follow V segs (y.log c inp t) = some p ∧ ∀ a ∈ headers segs, (y.at c inp t).mem a = y.mem a

include hV hapart in
theorem TouringAt.step {t m : Nat} (hfits : Fits V store segs)
    (h : TouringAt c y inp segs store t m) :
    if (inp t).grant then
      (Ending store (y.at c inp (t + 1)).dma ∨ Stopped (y.at c inp (t + 1)).dma) ∨
        TouringAt c y inp segs store (t + 1) (m + 1)
    else TouringAt c y inp segs store (t + 1) m := by
  obtain ⟨hm, p, hw, hlog, hmem⟩ := h
  have hready : (y.at c inp t).dataReady (inp t) = (inp t).grant := by
    rw [System.dataReady, hw.active.addrStrobe, Bool.true_and]
  have hsucc : y.log c inp (t + 1) =
      y.log c inp t ++ ((y.at c inp t).transaction (inp t)).toList :=
    trace_succ System.transaction t
  split
  · rename_i hgrant
    have hphase := hw.phase_step (c := c) (i := inp t) hV hapart hmem hlog (hready.trans hgrant)
    rw [System.transaction, if_pos (hready.trans hgrant), Option.toList_some] at hsucc
    rw [← hsucc] at hphase
    cases hphase with
    | touring p' hw' hlog' hmem' =>
        refine .inr ⟨?_, p', hw', hlog', hmem'⟩
        rw [hsucc, List.length_append, List.length_singleton, ← hm]
    | ending p' he _ _ => exact .inl (.inl he)
    | stopped p' hs _ _ => exact .inl (.inr hs)
    | lost _ hnot => exact absurd hfits hnot
  · rename_i hgrant
    have hwait : (y.at c inp t).dataReady (inp t) = false := by
      rw [hready, Bool.eq_false_iff]
      exact hgrant
    rw [transaction_of_wait hwait, Option.toList_none, List.append_nil] at hsucc
    refine ⟨?_, p, hw.step_wait hwait, ?_, hw.headers_kept hapart hmem⟩
    · rw [hsucc, hm]
    · rw [hsucc, hlog]

include hcom hcmd hlist hhead hV hapart in
/-- On a list that fits the unit comes to its end. -/
theorem Commanded.tour_ends (hfits : Fits V store segs) (hfair : Fair inp) :
    ∃ n, 2 ≤ n ∧ Stopped (y.at c inp n).dma := by
  have hending : ∃ n, 2 ≤ n ∧
      (Ending store (y.at c inp n).dma ∨ Stopped (y.at c inp n).dma) := by
    obtain ⟨htour, hlog, hmem⟩ := hcom.touring hcmd hlist hhead
    refine @Clocked.exists_of_steps (TouringAt c y inp segs store)
      (fun t => Ending store (y.at c inp t).dma ∨ Stopped (y.at c inp t).dma)
      (fun t => (inp t).grant = true) (⟨0, segs, 0, 0⟩ : Spot).left ?_ ?_ ?_ hfair 2 0
      ⟨by rw [hlog, List.length_nil], _, htour, by rw [hlog]; rfl, fun a _ => by rw [hmem]⟩
    · intro t m h hnot
      have hnext := h.step hV hapart hfits
      rwa [if_neg hnot] at hnext
    · intro t m h hgrant
      have hnext := h.step hV hapart hfits
      rwa [if_pos hgrant] at hnext
    · rintro t m ⟨hm, p, -, hfollow, -⟩
      have := length_of_follow hfollow
      omega
  obtain ⟨n, hn, he | hs⟩ := hending
  · obtain ⟨m, rfl⟩ := Nat.exists_eq_add_of_le' hn
    exact ⟨m + 2 + 1, by omega, he.stopped (hcom.quiet_request m)⟩
  · exact ⟨n, hn, hs⟩

include hcom hcmd hlist hhead hV hapart in
/--
The unit comes back to idle, and takes each header word for the field it is and no element
beyond the first `2 ^ V`, on the lists that fit and on no others.
-/
theorem Commanded.tour_iff (hfair : Fair inp) :
    ((∃ n, 2 ≤ n ∧ (y.at c inp n).dma.doneOut = true) ∧
        ∀ n, (follow V segs (y.log c inp n)).isSome = true) ↔ Fits V store segs := by
  have hphase := hcom.tour_phase hcmd hlist hhead hV hapart
  constructor
  · rintro ⟨⟨n, hn, hdone⟩, hall⟩
    obtain ⟨m, rfl⟩ := Nat.exists_eq_add_of_le' hn
    rcases (hphase m).of_done hdone with hlost | hfits
    · have := hall (m + 2)
      simp [hlost] at this
    · exact hfits
  · intro hfits
    obtain ⟨n, hn, hs⟩ := hcom.tour_ends hcmd hlist hhead hV hapart hfits hfair
    refine ⟨⟨n, hn, hs.doneOut⟩, fun n => ?_⟩
    rcases Nat.lt_or_ge n 2 with hlt | hge
    · rw [System.log, hcom.trace_start (fun _ _ => transaction_of_wait) hlt.le]
      rfl
    · obtain ⟨m, rfl⟩ := Nat.exists_eq_add_of_le' hge
      exact (hphase m).followed hfits

end Run

section Overrun

variable {v : Vec V} {i : VecInput} {r n size : Nat} {start stop : BitVec V}
variable {val : Nat → Word} {ram : Nat → BitVec V → Word}

/--
The vector unit after a load of `n + 1` elements into a longer range: the index is one place
behind them, and the port is still written.
-/
structure Overrun (start : BitVec V) (n : Nat) (val : Nat → Word)
    (ram : Nat → BitVec V → Word) (v : Vec V) (r : Nat) : Prop where
  write : v.write r = true
  addr : v.addr r = place start (n + 1)
  wdata : v.wdata = val n
  other : ∀ q a, (q = r / 2 → ∀ m, m < n + 2 → a ≠ place start m) → v.ram q a = ram q a
  behind : v.ram (r / 2) (place start (n + 1)) = ram (r / 2) (place start (n + 1)) ∨
    v.ram (r / 2) (place start (n + 1)) = val n

/-- The advance behind the last element, when the range goes on. -/
theorem Loaded.overrun (h : Loaded start (n + 1) val ram v r (n + 1)) (ha : Attached v r stop)
    (hsize : n + 1 < rangeSize start stop) (hnext : i.bramNext = true) (hwe : i.bramWe = false) :
    Overrun start n val ram (v.step c i) r := by
  have hle := @rangeSize_le V start stop
  obtain ⟨-, hother⟩ := h.ramNext (i := i) ha (by omega) (Nat.le_refl _) (Nat.succ_pos n)
  obtain ⟨haddr, hdelay, hwdata⟩ := h.index n rfl
  have hreset := ha.indexReset r
  have hmoves : v.moves i r = true := by simp [Vec.moves, hnext]
  have hmsb : (v.incrementDelay r).msb = true := by rw [hdelay]; rfl
  have hstop : v.addr r ≠ v.addrStop r := by
    rw [haddr, ha.addrStop, Ne, place_eq_stop (by omega)]
    omega
  refine ⟨?_, ?_, ?_, fun q a hout => ?_, .inl ?_⟩
  · change v.writeNext i r = _
    rw [Vec.writeNext, if_neg (by simp [hreset]), if_neg (by simp [hstop]), h.write]
  · change v.addrNext i r = _
    rw [Vec.addrNext, if_neg (by simp [hreset]), if_pos (by simp [hmoves, hmsb, hstop]), haddr,
      place_succ]
  · change (if i.bramWe then i.bramWdata else v.wdata) = _
    rw [if_neg (by simp [hwe]), hwdata]
  · exact hother q a (fun hq m hm => hout hq m (by omega))
  · refine hother _ _ (fun _ m hm heq => ?_)
    rw [place_inj (by omega) (by omega)] at heq
    omega

/-- From then on the last element is written to the place behind it. -/
theorem Overrun.step (h : Overrun start n val ram v r) (ha : Attached v r stop)
    (hnext : i.bramNext = false) (hwe : i.bramWe = false) :
    Overrun start n val ram (v.step c i) r ∧
      (v.step c i).ram (r / 2) (place start (n + 1)) = val n := by
  have hreset := ha.indexReset r
  have hmoves : v.moves i r = false := by simp [Vec.moves, ha.ioFlowcontrol, hnext]
  have hsingle := ramNext_of_single (i := i) ha.write
  have hdata : v.dataIn i r = v.wdata := by rw [Vec.dataIn, if_pos ha.result]
  have hwrite : (v.step c i).ram (r / 2) (place start (n + 1)) = val n := by
    change v.ramNext i (r / 2) _ = _
    rw [hsingle, if_pos rfl, Vec.writePort, if_pos h.write, h.addr, Function.update_self, hdata,
      h.wdata]
  refine ⟨⟨?_, ?_, ?_, fun q a hout => ?_, .inr hwrite⟩, hwrite⟩
  · change v.writeNext i r = _
    rw [Vec.writeNext, if_neg (by simp [hreset]), if_neg (by simp [hmoves]), h.write]
  · change v.addrNext i r = _
    rw [Vec.addrNext, if_neg (by simp [hreset]), if_neg (by simp [hmoves]), h.addr]
  · change (if i.bramWe then i.bramWdata else v.wdata) = _
    rw [if_neg (by simp [hwe]), h.wdata]
  · change v.ramNext i q a = _
    rw [hsingle]
    split
    · rename_i hq
      rw [Vec.writePort, if_pos h.write, h.addr,
        Function.update_of_ne (hout hq (n + 1) (Nat.lt_succ_self _))]
      exact h.other q a hout
    · exact h.other q a hout

end Overrun

section ShortLoad

variable {y₀ y : System V} {i : Input} {inp : Nat → Input} {r n : Nat} {segs : List Segment}

/-- A unit that loads stores nothing until the next request. -/
theorem storeMode_step {d : Dma V} {j : DmaInput} (h : d.storeMode = false)
    (hreq : j.request = false) : (d.step j).storeMode = false := by
  have hcontrol : (d.control j).storeMode = false := by
    unfold Dma.control
    dsimp only
    split
    · rw [Dma.idleStep, if_neg (by simp [hreq])]
      exact h
    · split
      · unfold Dma.readAck Dma.jumpNext
        split_ifs <;> exact h
      · exact h
    · split
      · unfold Dma.writeAck Dma.jumpNext
        split_ifs <;> first | exact h | rfl
      · exact h
  unfold Dma.step
  split
  · exact hcontrol
  · split <;> exact hcontrol

/-- Where a load of `n + 1` elements into a longer range is. -/
inductive ShortLoad (y₀ : System V) (r : Nat) (segs : List Segment) (n : Nat) (y : System V) : Prop
  | moving (h k : Nat) (hl : Loading y₀ r segs y h k)
  | ending (he : LoadEnding y₀ r segs y) (hstore : y.dma.storeMode = false)
  | behind (hs : Stopped y.dma) (hstore : y.dma.storeMode = false)
      (hvec : Attached y.vec r (y₀.vec.addrStop r))
      (hover : Overrun (y₀.vec.addrStart r) n (element y₀.mem segs) y₀.vec.ram y.vec r)

/-- The DMA unit at its end, seen from the vector unit. -/
theorem bram_of_quiet (hstrobe : y.dma.addrStrobe = false) (hstore : y.dma.storeMode = false) :
    (y.vecInput i).bramWe = false ∧ (y.vecInput i).bramNext = y.dma.next := by
  have hready : (y.dmaInput i).dataReady = false := dataReady_of_quiet hstrobe
  simp [System.vecInput, Dma.bramWe, Dma.bramNext, hready, hstore]

theorem ShortLoad.step (hp : ShortLoad y₀ r segs n y) (hV : 2 ≤ V ∧ V ≤ 16)
    (hn : (elements segs).length = n + 1)
    (hsize : n + 1 < rangeSize (y₀.vec.addrStart r) (y₀.vec.addrStop r)) (hcpu : i.cpu = none) :
    ShortLoad y₀ r segs n (y.step c i) := by
  cases hp with
  | moving h k hl =>
      have hstep := hl.step (c := c) hV (hn ▸ hsize.le) hcpu
      have hstore := storeMode_step (j := y.dmaInput i) hl.walk.active.storeMode hl.vec.ioRequest
      split at hstep
      · split at hstep
        · exact .moving _ _ hstep
        · rcases hstep.2 with hl' | ⟨-, he⟩
          · exact .moving _ _ hl'
          · exact .ending he hstore
      · exact .moving _ _ hstep
  | ending he hstore =>
      obtain ⟨hwe, hnext⟩ := bram_of_quiet (i := i) he.ending.addrStrobe hstore
      rw [he.ending.next] at hnext
      have hloaded := he.loaded
      rw [hn] at hloaded
      exact .behind (he.ending.stopped he.vec.ioRequest) (storeMode_step hstore he.vec.ioRequest)
        (he.vec.step hcpu) (hloaded.overrun he.vec hsize hnext hwe)
  | behind hs hstore hvec hover =>
      obtain ⟨hwe, hnext⟩ := bram_of_quiet (i := i) hs.addrStrobe hstore
      rw [hs.next] at hnext
      exact .behind (hs.step hvec.ioRequest) (storeMode_step hstore hvec.ioRequest)
        (hvec.step hcpu) (hover.step hvec hnext hwe).1

/-- The places of the range behind the one after the last element are left alone. -/
theorem ShortLoad.kept (hp : ShortLoad y₀ r segs n y) (hn : (elements segs).length = n + 1) {m : Nat}
    (hm : n + 1 ≤ m ∧ m < rangeSize (y₀.vec.addrStart r) (y₀.vec.addrStop r)) :
    y.vec.ram (r / 2) (place (y₀.vec.addrStart r) m) =
        y₀.vec.ram (r / 2) (place (y₀.vec.addrStart r) m) ∨
      m = n + 1 ∧ y.vec.ram (r / 2) (place (y₀.vec.addrStart r) m) = element y₀.mem segs n := by
  have hle := @rangeSize_le V (y₀.vec.addrStart r) (y₀.vec.addrStop r)
  have houtside : ∀ b, b ≤ m → r / 2 = r / 2 → ∀ l, l < b →
      place (y₀.vec.addrStart r) m ≠ place (y₀.vec.addrStart r) l := by
    intro b hb _ l hl heq
    rw [place_inj (by omega) (by omega)] at heq
    omega
  cases hp with
  | moving h k hl => exact .inl (hl.loaded.other _ _ (houtside _ (by omega)))
  | ending he => exact .inl (he.loaded.other _ _ (houtside _ (by omega)))
  | behind hs hstore hvec hover =>
      by_cases hlast : m = n + 1
      · subst hlast
        exact hover.behind.imp_right fun h => ⟨rfl, h⟩
      · exact .inl (hover.other _ _ (houtside _ (by omega)))

theorem listAt_of_listIn {mem : Mem} (h : ListIn mem segs)
    (hfits : (elements segs).length ≤ 2 ^ V) : ListAt V mem segs := by
  induction segs with
  | nil => exact h
  | cons s rest ih =>
      rw [elements_cons, List.length_append, length_addrs] at hfits
      refine ⟨⟨h.1.len, by omega, h.1.data⟩, ?_⟩
      cases rest with
      | nil => exact h.2
      | cons s' rest => exact ⟨h.2.1, h.2.2.1, ih h.2.2.2 (by omega)⟩

variable (hcom : Commanded c y inp (loadCommand r)) (hlist : ListIn y.mem segs)
variable (hhead : segs.head?.map Segment.hdr = some (wordAddr y.vec.vaddress))
variable (hV : 2 ≤ V ∧ V ≤ 16)
variable (hc : c.vectorsBits ≤ 3) (hr : r < 2 ^ (c.vectorsBits + 1))
variable (hn : (elements segs).length = n + 1)
variable (hsize : n + 1 < rangeSize (y.vec.addrStart r) (y.vec.addrStop r))

include hcom hlist hhead hV hc hr hn hsize in
theorem Commanded.short_phase (t : Nat) : ShortLoad y r segs n (y.at c inp (t + 2)) := by
  have hle := @rangeSize_le V (y.vec.addrStart r) (y.vec.addrStop r)
  induction t with
  | zero => exact .moving 0 0 (hcom.loading hc hr (listAt_of_listIn hlist (by omega)) hhead)
  | succ t ih => exact ih.step hV hn hsize (hcom.quiet (t + 1))

include hcom hlist hhead hV hc hr hn hsize in
/-- Once the load is done, the place behind the last element holds that element, too. -/
theorem Commanded.short_done {t : Nat} (ht : 2 ≤ t) (hdone : (y.at c inp t).dma.doneOut = true) :
    (y.at c inp (t + 1)).vec.ram (r / 2) (place (y.vec.addrStart r) (n + 1)) =
      element y.mem segs n := by
  obtain ⟨m, rfl⟩ := Nat.exists_eq_add_of_le' ht
  rw [Dma.doneOut] at hdone
  cases hcom.short_phase hlist hhead hV hc hr hn hsize m with
  | moving h k hl => simp [hl.walk.active.done] at hdone
  | ending he => simp [he.ending.next] at hdone
  | behind hs hstore hvec hover =>
      obtain ⟨hwe, hnext⟩ := bram_of_quiet (i := inp (m + 2)) hs.addrStrobe hstore
      rw [hs.next] at hnext
      exact (hover.step hvec hnext hwe).2

end ShortLoad

section Result

variable {r : Nat}

/--
A load or a store of a list of any size.  The unit comes back to idle, takes each header word
for the field it is and moves none but the first `2 ^ V` elements, exactly if the list fits
its count of elements.  A load into a longer range leaves the places behind its last element
as they are only if the first of them holds that element already.
-/
theorem vector_any_size (hV : 2 ≤ V ∧ V ≤ 16) (hc : c.vectorsBits ≤ 3)
    (hr : r < 2 ^ (c.vectorsBits + 1)) (y : System V) (inp : Nat → Input) (segs : List Segment)
    (hlist : ListIn y.mem segs)
    (hhead : segs.head?.map Segment.hdr = some (wordAddr y.vec.vaddress)) (hfair : Fair inp) :
    (Commanded c y inp (loadCommand r) →
      ((∃ n, 2 ≤ n ∧ (y.at c inp n).dma.doneOut = true) ∧
          (∀ n, (follow V segs (y.log c inp n)).isSome = true) ∧
          ((elements segs).length < rangeSize (y.vec.addrStart r) (y.vec.addrStop r) →
            ∀ n m, (elements segs).length ≤ m →
              m < rangeSize (y.vec.addrStart r) (y.vec.addrStop r) →
              (y.at c inp n).vec.ram (r / 2) (place (y.vec.addrStart r) m) =
                y.vec.ram (r / 2) (place (y.vec.addrStart r) m)) ↔
        Fits V false segs ∧
          ((elements segs).length < rangeSize (y.vec.addrStart r) (y.vec.addrStop r) →
            y.vec.ram (r / 2) (place (y.vec.addrStart r) (elements segs).length) =
              element y.mem segs ((elements segs).length - 1)))) ∧
    (Commanded c y inp (storeCommand r) → (∀ a ∈ headers segs, a ∉ elements segs) →
      ((∃ n, 2 ≤ n ∧ (y.at c inp n).dma.doneOut = true) ∧
          (∀ n, (follow V segs (y.log c inp n)).isSome = true) ↔
        Fits V true segs)) := by
  constructor
  · intro hcom
    have hcmd := ioCommand_load (c := c) hc hr
    have htour := hcom.tour_iff hcmd hlist hhead hV (by simp) hfair
    obtain ⟨k, hk⟩ : ∃ k, (elements segs).length = k + 1 := by
      cases segs with
      | nil => exact absurd hlist id
      | cons s rest =>
          have hpos := hlist.1.pos
          rw [elements_cons, List.length_append, length_addrs]
          exact ⟨s.len + (elements rest).length - 1, by omega⟩
    rw [hk, Nat.add_sub_cancel]
    constructor
    · rintro ⟨⟨n, hn, hdone⟩, hfollow, hleft⟩
      refine ⟨htour.1 ⟨⟨n, hn, hdone⟩, hfollow⟩, fun hsize => ?_⟩
      rw [← hleft hsize (n + 1) (k + 1) (Nat.le_refl _) hsize]
      exact hcom.short_done hlist hhead hV hc hr hk hsize hn hdone
    · rintro ⟨hfits, hsame⟩
      obtain ⟨hends, hfollow⟩ := htour.2 hfits
      refine ⟨hends, hfollow, fun hsize n m hm hlt => ?_⟩
      rcases Nat.lt_or_ge n 2 with hn | hn
      · rw [hcom.ram_start hcmd hn]
      · obtain ⟨t, rfl⟩ := Nat.exists_eq_add_of_le' hn
        rcases (hcom.short_phase hlist hhead hV hc hr hk hsize t).kept hk ⟨hm, hlt⟩ with
          hkept | ⟨rfl, hlast⟩
        · exact hkept
        · rw [hlast, hsame hsize]
  · intro hcom hapart
    exact hcom.tour_iff (ioCommand_store hc hr) hlist hhead hV (fun _ => hapart) hfair

theorem twoSegments_listIn : ListIn twoSegmentsMem twoSegments := by
  exact ⟨⟨rfl, rfl⟩, by decide, rfl, ⟨rfl, rfl⟩, rfl⟩

/-- Three elements in a range of three, loaded and stored. -/
theorem vector_any_size_twoSegments :
    ((∃ n, 2 ≤ n ∧
        (fourElements.at ⟨1, false⟩ (everyOther (loadCommand 1)) n).dma.doneOut = true) ∧
      ∀ n, (follow 2 twoSegments
        (fourElements.log ⟨1, false⟩ (everyOther (loadCommand 1)) n)).isSome = true) ∧
    (∃ n, 2 ≤ n ∧
        (fourElements.at ⟨1, false⟩ (everyOther (storeCommand 1)) n).dma.doneOut = true) ∧
      ∀ n, (follow 2 twoSegments
        (fourElements.log ⟨1, false⟩ (everyOther (storeCommand 1)) n)).isSome = true := by
  have hload := (@vector_any_size 2 ⟨1, false⟩ 1 (by decide) (by decide) (by decide) fourElements
    (everyOther (loadCommand 1)) twoSegments twoSegments_listIn rfl (everyOther_fair _)).1
    (fourElements_issued _ _).commanded
  have hstore := (@vector_any_size 2 ⟨1, false⟩ 1 (by decide) (by decide) (by decide) fourElements
    (everyOther (storeCommand 1)) twoSegments twoSegments_listIn rfl (everyOther_fair _)).2
    (fourElements_issued _ _).commanded twoSegments_apart
  obtain ⟨hends, hfollow, -⟩ := hload.2 ⟨by decide, fun h => absurd h (by decide)⟩
  exact ⟨⟨hends, hfollow⟩, hstore.2 (by decide)⟩

/-- The range of each port goes from 3 over 0 to 2. -/
def longRange : System 2 :=
  { fourElements with vec := { fourElements.vec with addrStop := fun _ => 2 } }

/-- A segment as long as a register, and one more. -/
def tooLong : List Segment := [⟨0#28, 8#28, 4⟩, ⟨4#28, 16#28, 1⟩]

def tooLongMem : Mem := fun a => if a = 0 then 3 else twoSegmentsMem a

theorem longRange_commanded (w : Word) (mem : Mem) :
    Commanded ⟨1, false⟩ { longRange with mem := mem } (everyOther w) w := by
  have h := fourElements_issued ⟨1, false⟩ w
  exact ⟨⟨h.rest.dma, h.rest.ioRequest, h.rest.indexReset, h.rest.write⟩, h.command, h.quiet⟩

theorem tooLong_listIn : ListIn tooLongMem tooLong := by
  exact ⟨⟨rfl, rfl⟩, by decide, rfl, ⟨rfl, rfl⟩, rfl⟩

/--
Three elements loaded into a range of four leave a second copy of the last one.  With five
elements the length of the second segment is taken for the pointer behind the header.
-/
theorem overrun_longRange :
    (Commanded ⟨1, false⟩ longRange (everyOther (loadCommand 1)) (loadCommand 1) ∧
      ListIn longRange.mem twoSegments ∧
      ¬∀ n m, (elements twoSegments).length ≤ m → m < rangeSize (3#2) (2#2) →
        (longRange.at ⟨1, false⟩ (everyOther (loadCommand 1)) n).vec.ram 0 (place 3#2 m) =
          longRange.vec.ram 0 (place 3#2 m)) ∧
    ∀ w, w = loadCommand 1 ∨ w = storeCommand 1 →
      Commanded ⟨1, false⟩ { longRange with mem := tooLongMem } (everyOther w) w ∧
        ListIn tooLongMem tooLong ∧
        follow 2 tooLong
          (({ longRange with mem := tooLongMem } : System 2).log ⟨1, false⟩ (everyOther w) 18) =
            none := by
  refine ⟨⟨longRange_commanded _ _, twoSegments_listIn, fun h => ?_⟩, ?_⟩
  · have hsame := h 22 3 (by decide) (by decide)
    revert hsame
    decide +kernel
  · rintro w (rfl | rfl)
    · refine ⟨longRange_commanded _ _, tooLong_listIn, Option.isNone_iff_eq_none.1 ?_⟩
      decide +kernel
    · refine ⟨longRange_commanded _ _, tooLong_listIn, Option.isNone_iff_eq_none.1 ?_⟩
      decide +kernel

end Result

end Vector
end F32c
