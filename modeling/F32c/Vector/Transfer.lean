import F32c.Vector.Store

/-!
# Load and store as a whole

Here the phases of a load and of a store are put together: from a command to the clock in
which the unit says that it is done, for every list of segments and every behaviour of the
memory.
-/

namespace F32c
namespace Vector

variable {V : Nat} {c : Config} {y : System V} {inp : Nat → Input} {r : Nat}
variable {segs : List Segment}

section Phases

variable (hV : 2 ≤ V ∧ V ≤ 16)
variable (hc : c.vectorsBits ≤ 3) (hr : r < 2 ^ (c.vectorsBits + 1))

include hV hc hr in
theorem Issued.load_kept (hi : Issued c y inp (loadCommand r) r segs) (n : Nat) :
    y.trace System.busWrite c inp n = [] ∧ (y.at c inp n).mem = y.mem ∧
      y.trace System.transfer c inp n <+: elements segs ∧
      ∀ q a, Outside y r segs q a → (y.at c inp n).vec.ram q a = y.vec.ram q a := by
  rcases Nat.lt_or_ge n 2 with hn | hn
  · have htransfer := hi.commanded.trace_start (fun _ _ => transfer_of_wait) (Nat.le_of_lt hn)
    refine ⟨hi.commanded.trace_start (fun _ _ => busWrite_of_wait) (Nat.le_of_lt hn),
      hi.commanded.mem_start (Nat.le_of_lt hn), htransfer ▸ List.nil_prefix, fun q a _ => ?_⟩
    rw [hi.commanded.ram_start (ioCommand_load hc hr) hn]
  · obtain ⟨m, rfl⟩ := Nat.exists_eq_add_of_le' hn
    obtain ⟨hphase, hbus⟩ := hi.load_phase hV hc hr m
    obtain ⟨hmem, hother, hmoved⟩ := hphase.kept
    exact ⟨hbus, hmem, hmoved, hother⟩

variable (hapart : ∀ a ∈ headers segs, a ∉ elements segs)
variable (hgap : ∀ t, (y.at c inp t).busWrite (inp t) ≠ none →
  (y.at c inp (t + 1)).busWrite (inp (t + 1)) = none)

include hV hc hr hapart hgap in
theorem Issued.store_kept (hi : Issued c y inp (storeCommand r) r segs) (n : Nat) :
    y.trace System.busWrite c inp n <+: storeWrites y r segs ∧
      (y.at c inp n).vec.ram = y.vec.ram ∧
      ∀ a, a ∉ elements segs → (y.at c inp n).mem a = y.mem a := by
  rcases Nat.lt_or_ge n 2 with hn | hn
  · have hbus := hi.commanded.trace_start (fun _ _ => busWrite_of_wait) (Nat.le_of_lt hn)
    refine ⟨hbus ▸ List.nil_prefix, hi.commanded.ram_start (ioCommand_store hc hr) hn, fun a _ => ?_⟩
    rw [hi.commanded.mem_start (Nat.le_of_lt hn)]
  · obtain ⟨m, rfl⟩ := Nat.exists_eq_add_of_le' hn
    obtain ⟨hram, hmem, hwritten⟩ := (hi.store_phase hV hc hr hapart hgap m).kept
    exact ⟨hwritten, hram, hmem⟩

end Phases

section Result

/-- The memory answers again and again. -/
def Fair (inp : Nat → Input) : Prop := ∀ t, ∃ t', t ≤ t' ∧ (inp t').grant = true

/-- No two writes are acknowledged in consecutive clocks. -/
def Spaced (c : Config) (y : System V) (inp : Nat → Input) : Prop :=
  ∀ t, (y.at c inp t).busWrite (inp t) ≠ none →
    (y.at c inp (t + 1)).busWrite (inp (t + 1)) = none

/--
A load leaves the elements of the segments in the range of the register, in the order of the
list, and writes nothing else; a store writes the elements of the range to the places of the
segments, once each and in order, and no header.  The unit says that it is done after the
last transfer, and it does so if the memory answers again and again.
-/
theorem vector_transfer (hV : 2 ≤ V ∧ V ≤ 16) (hc : c.vectorsBits ≤ 3)
    (hr : r < 2 ^ (c.vectorsBits + 1)) (y : System V) (inp : Nat → Input) (segs : List Segment) :
    (Issued c y inp (loadCommand r) r segs →
      (∀ n, y.trace System.busWrite c inp n = [] ∧ (y.at c inp n).mem = y.mem ∧
        y.trace System.transfer c inp n <+: elements segs ∧
        ∀ q a, Outside y r segs q a → (y.at c inp n).vec.ram q a = y.vec.ram q a) ∧
      (∀ n, 2 ≤ n → (y.at c inp n).dma.doneOut = true →
        y.trace System.transfer c inp n = elements segs ∧
        ∀ m (hm : m < (elements segs).length),
          (y.at c inp n).vec.ram (r / 2) (place (y.vec.addrStart r) m) =
            y.mem (elements segs)[m]) ∧
      (Fair inp → ∃ n, 2 ≤ n ∧ (y.at c inp n).dma.doneOut = true)) ∧
    (Issued c y inp (storeCommand r) r segs → (∀ a ∈ headers segs, a ∉ elements segs) →
      Spaced c y inp →
      (∀ n, y.trace System.busWrite c inp n <+: storeWrites y r segs ∧
        (y.at c inp n).vec.ram = y.vec.ram ∧
        ∀ a, a ∉ elements segs → (y.at c inp n).mem a = y.mem a) ∧
      (∀ n, 2 ≤ n → (y.at c inp n).dma.doneOut = true →
        y.trace System.busWrite c inp n = storeWrites y r segs) ∧
      (Fair inp → ∃ n, 2 ≤ n ∧ (y.at c inp n).dma.doneOut = true)) := by
  constructor
  · intro hi
    refine ⟨hi.load_kept hV hc hr, fun n hn hdone => ?_, fun hfair => ?_⟩
    · obtain ⟨m, rfl⟩ := Nat.exists_eq_add_of_le' hn
      obtain ⟨hmoved, hd⟩ := (hi.load_phase hV hc hr m).1.of_done hdone
      refine ⟨hmoved, fun k hk => ?_⟩
      rw [hd.stored k hk, element, List.getD_eq_getElem?_getD, List.getElem?_eq_getElem hk,
        Option.getD_some]
    · obtain ⟨n, hn, hd⟩ := hi.load_ends hV hc hr hfair
      exact ⟨n, hn, hd.doneOut⟩
  · intro hi hapart hgap
    refine ⟨hi.store_kept hV hc hr hapart hgap, fun n hn hdone => ?_, fun hfair => ?_⟩
    · obtain ⟨m, rfl⟩ := Nat.exists_eq_add_of_le' hn
      exact ((hi.store_phase hV hc hr hapart hgap m).of_done hdone).1
    · obtain ⟨n, hn, hd⟩ := hi.store_ends hV hc hr hapart hgap hfair
      exact ⟨n, hn, hd.doneOut⟩

/-- A memory with a list of two segments, of two elements and of one. -/
def twoSegments : List Segment := [⟨0#28, 8#28, 2⟩, ⟨4#28, 16#28, 1⟩]

def twoSegmentsMem : Mem := fun a =>
  if a = 0 then 1 else if a = 1 then 32 else if a = 2 then 16
  else if a = 4 then 0 else if a = 5 then 64 else if a = 6 then 0
  else a.setWidth 32 + 100

theorem twoSegments_apart : ∀ a ∈ headers twoSegments, a ∉ elements twoSegments := by
  have hheaders : headers twoSegments = [0#28, 1#28, 2#28, 4#28, 5#28, 6#28] := rfl
  have helements : elements twoSegments = [8#28, 9#28, 16#28] := rfl
  rw [hheaders, helements]
  intro a ha
  simp only [List.mem_cons, List.not_mem_nil, or_false] at ha
  rcases ha with rfl | rfl | rfl | rfl | rfl | rfl <;> simp

/-- Registers of four elements at rest; the range of each port goes from 3 over 0 to 1. -/
def fourElements : System 2 where
  vec :=
    { vaddress := 0
      ioRequest := false
      ioStoreMode := false
      wdata := 0
      addr := fun _ => 0
      addrStart := fun _ => 3
      addrStop := fun _ => 1
      indexReset := fun _ => false
      write := fun _ => false
      writeRequest := fun _ => false
      incrementDelay := fun _ => 0
      incrementDelayStart := fun _ => 0
      ioFlowcontrol := fun _ => false
      arg1 := fun _ => 0
      result := fun _ => 0
      ram := fun k a => BitVec.ofNat 32 (16 * k) + a.setWidth 32
      ramOut := fun _ => 0 }
  dma :=
    { storeMode := false
      ramAddr := 0
      bramAddr := 7
      state := .idle
      done := true
      next := false
      addrStrobe := false
      dataWrite := false
      header := fun _ => 0
      headerMode := false
      lengthRemaining := 0
      wdataFifo := fun _ => 0
      wdataFifoReset := false
      indexIn := 3
      indexOut := 0
      bramRdataReady := false }
  mem := twoSegmentsMem

/-- A command, and a memory that answers in every other clock. -/
def everyOther (w : Word) (t : Nat) : Input where
  cpu := if t = 0 then some (cVcommand, w) else none
  grant := t % 2 == 0
  fuResult := fun _ => 0
  float := 0

theorem fourElements_issued (c : Config) (w : Word) :
    Issued c fourElements (everyOther w) w 1 twoSegments := by
  refine ⟨⟨⟨rfl, rfl, rfl, rfl, rfl, .three rfl rfl rfl⟩, rfl, fun _ => rfl, fun _ => rfl⟩, rfl,
    fun _ => rfl, ?_, rfl, rfl⟩
  exact ⟨⟨rfl, by decide, rfl⟩, by decide, rfl, ⟨rfl, by decide, rfl⟩, rfl⟩

theorem everyOther_spaced (c : Config) (w : Word) : Spaced c fourElements (everyOther w) := by
  intro t ht
  have hnow : t % 2 = 0 := by
    by_contra hodd
    apply ht
    apply busWrite_of_wait
    simp [System.dataReady, everyOther, hodd]
  apply busWrite_of_wait
  have hlater : ¬(t + 1) % 2 = 0 := by omega
  simp [System.dataReady, everyOther, hlater]

theorem everyOther_fair (w : Word) : Fair (everyOther w) := by
  intro t
  refine ⟨2 * t, by omega, ?_⟩
  simp [everyOther]

/-- The register takes the three elements, and gives them back. -/
theorem vector_transfer_twoSegments :
    (∃ n, 2 ≤ n ∧ ∀ m (hm : m < (elements twoSegments).length),
      (fourElements.at ⟨1, false⟩ (everyOther (loadCommand 1)) n).vec.ram 0 (place 3#2 m) =
        twoSegmentsMem (elements twoSegments)[m]) ∧
    ∃ n, 2 ≤ n ∧ fourElements.trace System.busWrite ⟨1, false⟩ (everyOther (storeCommand 1)) n =
      storeWrites fourElements 1 twoSegments := by
  constructor
  · obtain ⟨-, hdone, hends⟩ := (@vector_transfer 2 ⟨1, false⟩ 1 (by decide) (by decide) (by decide)
      fourElements (everyOther (loadCommand 1)) twoSegments).1 (fourElements_issued _ _)
    obtain ⟨n, hn, hd⟩ := hends (everyOther_fair _)
    exact ⟨n, hn, (hdone n hn hd).2⟩
  · obtain ⟨-, hdone, hends⟩ := (@vector_transfer 2 ⟨1, false⟩ 1 (by decide) (by decide) (by decide)
      fourElements (everyOther (storeCommand 1)) twoSegments).2 (fourElements_issued _ _)
      twoSegments_apart (everyOther_spaced _ _)
    obtain ⟨n, hn, hd⟩ := hends (everyOther_fair _)
    exact ⟨n, hn, hdone n hn hd⟩

end Result

end Vector
end F32c
