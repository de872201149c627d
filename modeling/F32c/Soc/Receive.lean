import F32c.Ring
import F32c.Soc.Sio
import Mathlib.Data.BitVec

/-!
# The receive FIFO of the serial port

`R_rx_available` and `R_rx_byte` are one clock behind the pointers of the FIFO.  A read of the data
register is answered with the oldest byte unless the clock before it took one.
-/

namespace F32c
namespace Sio

open Clocked

section Port

variable {n : Nat} (c : Config) (s : State n) (b : Bus)

/-- `bus_out(7 downto 0)`. -/
def busOut (addr : BitVec 2) : Byte :=
  if addr = 0b00#2 then s.rxByte
  else if addr = 0b01#2 then
    s.rxOverruns ++ 0b00#2 ++ BitVec.ofBool (s.txPhase != 0#4) ++ BitVec.ofBool s.rxAvailable
  else 0#4 ++ s.baudIndex

/-- The status register shows that data is available. -/
def showsAvailable : Bool := (busOut s 0b01#2).getLsbD 0

/-- A read of the data register. -/
def readsData : Bool := b.ce && !b.busWrite && b.busAddr == 0b00#2

/-- The byte that a read gives while data is available. -/
def takes : Option Byte :=
  if readsData b && showsAvailable s then some (busOut s b.busAddr) else none

/-- One slot of the FIFO stays empty. -/
def full : Bool := unread s + 1 == 2 ^ n

/-- The byte of a frame that finds room. -/
def arrives : Option Byte := if rxCompletes c s && !full s then some s.rxDes else none

/-- A frame is dropped because the FIFO is full. -/
def drops : Bool := rxCompletes c s && full s

/-- A write to the status register. -/
def clears : Bool := b.ce && b.busWrite && b.busAddr == 0b01#2

/-- The unread bytes, oldest first. -/
def queue : List Byte :=
  Ring.contents (2 ^ n) (fun k => s.rxFifo (BitVec.ofNat n k)) s.rxRdI.toNat (unread s)

/-- The inputs of a clock: the bus and the line. -/
abbrev Pins := Bus × Bool

def stepPins (p : Pins) : State n := step c s p.1 p.2

end Port

section Step

variable {n : Nat} {c : Config} {s : State n} {b : Bus} (line : Bool)

theorem showsAvailable_eq : showsAvailable s = s.rxAvailable := by
  rw [showsAvailable, busOut, if_neg (by decide), if_pos rfl, BitVec.getLsbD_append]
  cases s.rxAvailable <;> rfl

/-- The slot behind the last unread byte. -/
theorem rxWrI_toNat : s.rxWrI.toNat = (s.rxRdI.toNat + unread s) % 2 ^ n := by
  have hsum : s.rxRdI + (s.rxWrI - s.rxRdI) = s.rxWrI := add_sub_cancel s.rxRdI s.rxWrI
  rw [unread, ← BitVec.toNat_add, hsum]

theorem unread_lt : unread s < 2 ^ n := (s.rxWrI - s.rxRdI).isLt

theorem unread_eq_zero : unread s = 0 ↔ s.rxRdI = s.rxWrI := by
  constructor
  · intro hzero
    have hmod := rxWrI_toNat (s := s)
    rw [hzero, Nat.add_zero, Nat.mod_eq_of_lt s.rxRdI.isLt] at hmod
    exact BitVec.eq_of_toNat_eq hmod.symm
  · intro heq
    rw [unread, heq, sub_self]
    rfl

/-- The memory after a byte is written behind the last one. -/
theorem fifo_update (x : Byte) (tail count : Nat) :
    Ring.contents (2 ^ n) (fun k => Function.update s.rxFifo s.rxWrI x (BitVec.ofNat n k)) tail
        count =
      Ring.contents (2 ^ n) (Function.update (fun k => s.rxFifo (BitVec.ofNat n k))
        ((s.rxRdI.toNat + unread s) % 2 ^ n) x) tail count := by
  apply Ring.contents_congr (Nat.two_pow_pos n)
  intro k hk
  rw [← rxWrI_toNat]
  by_cases heq : k = s.rxWrI.toNat
  · subst heq
    simp
  · have hne : BitVec.ofNat n k ≠ s.rxWrI := by
      intro h
      apply heq
      rw [← h, BitVec.toNat_ofNat, Nat.mod_eq_of_lt hk]
    rw [Function.update_of_ne hne, Function.update_of_ne heq]

/-- The test that the receiver makes. -/
theorem full_eq : full s = (s.rxWrI + 1#n == s.rxRdI) := by
  have hlt := unread_lt (s := s)
  have hone : (s.rxWrI - s.rxRdI + 1#n).toNat = (unread s + 1) % 2 ^ n := by
    rw [BitVec.toNat_add, BitVec.toNat_ofNat, Nat.add_mod_mod, unread]
  have hcomm : s.rxWrI + 1#n = s.rxWrI - s.rxRdI + 1#n + s.rxRdI := by ring
  rw [full, Bool.eq_iff_iff, beq_iff_eq, beq_iff_eq]
  constructor
  · intro hfull
    have hzero : s.rxWrI - s.rxRdI + 1#n = 0#n := by
      apply BitVec.eq_of_toNat_eq
      rw [hone, hfull, Nat.mod_self, BitVec.toNat_zero]
    rw [hcomm, hzero, BitVec.zero_add]
  · intro heq
    have hzero : s.rxWrI - s.rxRdI + 1#n = 0#n := by
      rw [hcomm] at heq
      exact add_eq_right.mp heq
    rw [hzero, BitVec.toNat_zero] at hone
    by_contra hne
    rw [Nat.mod_eq_of_lt (by omega)] at hone
    contradiction

/-- The pointers after a clock. -/
theorem step_pointers :
    (step c s b line).rxRdI = s.rxRdI + (if (takes s b).isSome then 1#n else 0#n) ∧
      (step c s b line).rxWrI = s.rxWrI + (if (arrives c s).isSome then 1#n else 0#n) := by
  constructor
  · rw [takes, showsAvailable_eq, readsData]
    cases htakes : b.ce && !b.busWrite && b.busAddr == 0b00#2 && s.rxAvailable <;>
      simp [step, htakes]
  · have hwr : (step c s b line).rxWrI =
        if rxCompletes c s && !full s then s.rxWrI + 1#n else s.rxWrI := by
      rw [full_eq]
      rfl
    rw [hwr, arrives]
    cases rxCompletes c s && !full s <;> simp

/-- A frame finds room while the FIFO is not full. -/
theorem room_of_arrives {x : Byte} (h : arrives c s = some x) :
    unread s + 1 < 2 ^ n ∧ rxShifts c s = true ∧ s.rxPhase = 9#4 ∧ x = s.rxDes := by
  rw [arrives] at h
  split at h
  · next hroom =>
      simp only [rxCompletes, full, Bool.and_eq_true, Bool.not_eq_true', beq_iff_eq,
        beq_eq_false_iff_ne] at hroom
      rcases hroom with ⟨⟨⟨hshift, hphase⟩, -⟩, hne⟩
      have hlt := unread_lt (s := s)
      cases h
      exact ⟨by omega, hshift, hphase, rfl⟩
  · cases h

/-- The number of unread bytes after a clock. -/
theorem step_unread (htakes : (takes s b).isSome = true → 0 < unread s) :
    unread (step c s b line) + (if (takes s b).isSome then 1 else 0) =
      unread s + (if (arrives c s).isSome then 1 else 0) := by
  rcases step_pointers (c := c) (s := s) (b := b) line with ⟨hrd, hwr⟩
  have hone : 1 < 2 ^ n → (1#n).toNat = 1 := fun h => Nat.mod_eq_of_lt h
  have hsucc : unread s + 1 < 2 ^ n → (s.rxWrI - s.rxRdI + 1#n).toNat = unread s + 1 := by
    intro h
    rw [BitVec.toNat_add, hone (by omega)]
    exact Nat.mod_eq_of_lt h
  have hpred : 0 < unread s → (s.rxWrI - s.rxRdI - 1#n).toNat + 1 = unread s := by
    intro h
    have hlt := unread_lt (s := s)
    rw [BitVec.toNat_sub, hone (by omega)]
    unfold unread at h hlt ⊢
    rw [show 2 ^ n - 1 + (s.rxWrI - s.rxRdI).toNat = 2 ^ n + ((s.rxWrI - s.rxRdI).toNat - 1) by
      omega, Nat.add_mod_left, Nat.mod_eq_of_lt (by omega)]
    omega
  have hnext : unread (step c s b line) =
      (s.rxWrI - s.rxRdI + (if (arrives c s).isSome then 1#n else 0#n) -
        (if (takes s b).isSome then 1#n else 0#n)).toNat := by
    rw [unread, hrd, hwr]
    congr 1
    ring
  rw [hnext]
  cases harrives : arrives c s with
  | none =>
      cases htake : (takes s b).isSome with
      | false => simp [unread]
      | true =>
          have h := hpred (htakes htake)
          simpa using h
  | some x =>
      have hroom := hsucc (room_of_arrives harrives).1
      cases htake : (takes s b).isSome with
      | false => simpa using hroom
      | true => simp [unread]

/-- The bytes that are unread after a clock, before a read takes the oldest one. -/
theorem step_contents :
    Ring.contents (2 ^ n) (fun k => (step c s b line).rxFifo (BitVec.ofNat n k)) s.rxRdI.toNat
        (unread s + (if (arrives c s).isSome then 1 else 0)) =
      queue s ++ (arrives c s).toList := by
  have hlt := unread_lt (s := s)
  cases harrives : arrives c s with
  | none =>
      simp only [Option.isSome_none, Bool.false_eq_true, if_false, Nat.add_zero, Option.toList_none,
        List.append_nil]
      have hfifo : (step c s b line).rxFifo =
          if rxShifts c s && s.rxPhase == 9#4 then Function.update s.rxFifo s.rxWrI s.rxDes
          else s.rxFifo := rfl
      rw [hfifo]
      split
      · rw [fifo_update, Ring.contents_update _ _ hlt]
        rfl
      · rfl
  | some x =>
      rcases room_of_arrives harrives with ⟨-, hshift, hphase, rfl⟩
      have hfifo : (step c s b line).rxFifo = Function.update s.rxFifo s.rxWrI s.rxDes := by
        simp [step, hshift, hphase]
      rw [hfifo, Option.isSome_some, if_pos rfl, fifo_update, Ring.contents_push _ _ hlt]
      rfl

/-- What a clock does to the unread bytes. -/
theorem step_queue (htakes : ∀ x, takes s b = some x → ∃ rest, queue s = x :: rest) :
    queue s ++ (arrives c s).toList = (takes s b).toList ++ queue (step c s b line) := by
  have hlength : (queue s).length = unread s := Ring.length_contents _ _ _ _
  have hpos : (takes s b).isSome = true → 0 < unread s := by
    intro hsome
    rcases Option.isSome_iff_exists.mp hsome with ⟨x, hx⟩
    rcases htakes x hx with ⟨rest, hrest⟩
    rw [← hlength, hrest]
    exact Nat.succ_pos _
  have hcount := step_unread (c := c) (s := s) (b := b) line hpos
  have hcontents := step_contents (c := c) (s := s) (b := b) line
  have hrd := (step_pointers (c := c) (s := s) (b := b) line).1
  rw [← hcontents, ← hcount, queue, hrd]
  cases htake : takes s b with
  | none =>
      simp
  | some x =>
      rcases htakes x htake with ⟨rest, hrest⟩
      have hnext : (s.rxRdI + 1#n).toNat = (s.rxRdI.toNat + 1) % 2 ^ n := by
        rw [BitVec.toNat_add, BitVec.toNat_ofNat, Nat.add_mod_mod]
      simp only [htake, Option.isSome_some, if_true] at hcount ⊢
      rw [← hcount, hrest, Ring.contents_succ] at hcontents
      rw [Ring.contents_succ, hnext, (List.cons.inj hcontents).1]
      rfl

/-- A dropped frame takes precedence over a clear. -/
theorem step_overruns_eq (hc : c.rxOverruns = true) :
    (step c s b line).rxOverruns =
      if drops c s && s.rxOverruns != 0xf#4 then s.rxOverruns + 1#4
      else if clears b then 0#4 else s.rxOverruns := by
  simp only [step, rxOverrunsNext, drops, full_eq, clears, hc, Bool.and_true, Bool.true_and]
  rfl

/-- What a clock does to the overrun counter. -/
theorem step_overruns (hc : c.rxOverruns = true) {dropped : Nat}
    (hcount : s.rxOverruns.toNat = min 15 dropped)
    (hclear : clears b = true → drops c s = true → s.rxOverruns = 0#4) :
    (step c s b line).rxOverruns.toNat =
      min 15 ((if clears b then 0 else dropped) + (if drops c s then 1 else 0)) := by
  rw [step_overruns_eq line hc]
  cases hdrop : drops c s with
  | false =>
      cases hclears : clears b with
      | false => simpa using hcount
      | true => simp
  | true =>
      by_cases hmax : s.rxOverruns = 0xf#4
      · -- the counter is saturated
        have hlow : clears b = false := by
          cases hclears : clears b with
          | false => rfl
          | true => simp [hclear hclears hdrop] at hmax
        rw [hmax] at hcount
        simp only [hmax, hlow, bne_self_eq_false, Bool.and_false, Bool.false_eq_true, if_false,
          if_true]
        have hle : 15 = min 15 dropped := hcount
        change 15 = min 15 (dropped + 1)
        omega
      · have hlt : s.rxOverruns.toNat < 15 := by
          have hne : s.rxOverruns.toNat ≠ 15 := fun h => hmax (BitVec.eq_of_toNat_eq h)
          omega
        have hsucc : (s.rxOverruns + 1#4).toNat = s.rxOverruns.toNat + 1 := by
          rw [BitVec.toNat_add]
          exact Nat.mod_eq_of_lt (by change s.rxOverruns.toNat + 1 < 16; omega)
        have hne : (s.rxOverruns != 0xf#4) = true := bne_iff_ne.mpr hmax
        rw [Bool.true_and, if_pos hne, hsucc, if_pos rfl]
        cases hclears : clears b with
        | false =>
            simp only [Bool.false_eq_true, if_false]
            omega
        | true =>
            simp [hclear hclears hdrop]

/-- A clear that meets a dropped frame is lost. -/
theorem clear_lost (hc : c.rxOverruns = true) (hclear : clears b = true) (hdrop : drops c s = true)
    (hne : s.rxOverruns ≠ 0#4) : (step c s b line).rxOverruns ≠ 1#4 := by
  have hnext := step_overruns_eq (s := s) (b := b) line hc
  rw [hdrop, hclear] at hnext
  rw [hnext]
  revert hne
  generalize s.rxOverruns = r
  revert r
  decide

/-- The output register holds the oldest byte, unless the last clock took one. -/
structure Shows (c : Config) (s : State n) (took : Bool) : Prop where
  idle : c.txOnly = true → s.rxAvailable = false
  oldest : took = false → s.rxAvailable = true → ∃ rest, queue s = s.rxByte :: rest

/-- What a read gives is the output register. -/
theorem takes_some {x : Byte} (h : takes s b = some x) : s.rxAvailable = true ∧ x = s.rxByte := by
  rw [takes, showsAvailable_eq] at h
  split at h
  · next hread =>
      simp only [readsData, Bool.and_eq_true, beq_iff_eq] at hread
      rcases hread with ⟨⟨-, haddr⟩, havail⟩
      cases h
      rw [busOut, if_pos haddr]
      exact ⟨havail, rfl⟩
  · cases h

/-- A read that does not follow another one gives the oldest byte. -/
theorem Shows.head_of_takes {took : Bool} (h : Shows c s took)
    (hspaced : took = true → takes s b = none) {x : Byte} (htake : takes s b = some x) :
    ∃ rest, queue s = x :: rest := by
  rcases takes_some htake with ⟨havail, rfl⟩
  cases took with
  | false => exact h.oldest rfl havail
  | true => rw [hspaced rfl] at htake; cases htake

theorem queue_cons (hne : s.rxRdI ≠ s.rxWrI) : ∃ rest, queue s = s.rxFifo s.rxRdI :: rest := by
  have hpos : unread s ≠ 0 := fun hzero => hne (unread_eq_zero.mp hzero)
  rcases Nat.exists_eq_succ_of_ne_zero hpos with ⟨k, hk⟩
  rw [queue, hk, Ring.contents_succ, Nat.mod_eq_of_lt s.rxRdI.isLt, BitVec.ofNat_toNat,
    BitVec.setWidth_eq]
  exact ⟨_, rfl⟩

/-- A read right after another one gives the same byte again. -/
theorem Shows.takes_again {b' : Bus} {x : Byte} (h : Shows c s false) (htake : takes s b = some x)
    (hread : readsData b' = true) : takes (step c s b line) b' = some x := by
  rcases takes_some htake with ⟨havail, rfl⟩
  rcases h.oldest rfl havail with ⟨rest, hrest⟩
  have htx : c.txOnly = false := by
    by_contra htx
    have hidle := h.idle (by simpa using htx)
    rw [hidle] at havail
    cases havail
  have hne : s.rxRdI ≠ s.rxWrI := by
    intro heq
    rw [queue, unread_eq_zero.mpr heq] at hrest
    cases hrest
  rcases queue_cons hne with ⟨rest', hrest'⟩
  have hbyte : s.rxFifo s.rxRdI = s.rxByte := (List.cons.inj (hrest'.symm.trans hrest)).1
  have havail' : (step c s b line).rxAvailable = true := by simp [step, htx, hne]
  have hbyte' : (step c s b line).rxByte = s.rxByte := by simp [step, htx, hne, hbyte]
  have haddr : b'.busAddr = 0b00#2 := by
    simp only [readsData, Bool.and_eq_true, beq_iff_eq] at hread
    exact hread.2
  rw [takes, showsAvailable_eq, hread, havail', busOut, if_pos haddr, hbyte']
  rfl

theorem Shows.next {took : Bool} (h : Shows c s took)
    (hspaced : took = true → takes s b = none) :
    Shows c (step c s b line) (takes s b).isSome := by
  have hqueue := step_queue (c := c) (b := b) line fun x => h.head_of_takes hspaced
  constructor
  · intro htx
    simpa [step, htx] using h.idle htx
  · intro htook havail
    have hnone : takes s b = none := by simpa using htook
    cases htx : c.txOnly with
    | true =>
        have hnot : (step c s b line).rxAvailable = false := by
          simpa [step, htx] using h.idle htx
        rw [hnot] at havail
        cases havail
    | false =>
        have hne : s.rxRdI ≠ s.rxWrI := by simpa [step, htx] using havail
        have hbyte : (step c s b line).rxByte = s.rxFifo s.rxRdI := by simp [step, htx, hne]
        rcases queue_cons hne with ⟨rest, hrest⟩
        rw [hnone, hrest, Option.toList_none, List.nil_append] at hqueue
        exact ⟨rest ++ (arrives c s).toList, by rw [← hqueue, hbyte]; rfl⟩

end Step

section Run

variable {n : Nat}

/-- No byte is unread and no frame was dropped. -/
structure Empty (s : State n) : Prop where
  pointers : s.rxRdI = s.rxWrI
  available : s.rxAvailable = false
  overruns : s.rxOverruns = 0#4

variable (c : Config) (s : State n) (pins : Nat → Pins)

/-- The port after `t` clocks. -/
def portAt (t : Nat) : State n := stateAt (stepPins c) s pins t

/-- The bytes entered into the FIFO before clock `t`. -/
def arrived (t : Nat) : List Byte := trace (stepPins c) (fun s _ => arrives c s) s pins t

/-- The bytes that were read before clock `t`. -/
def taken (t : Nat) : List Byte := trace (stepPins c) (fun s p => takes s p.1) s pins t

/-- The frames dropped since the last clear. -/
def dropped : Nat → Nat
  | 0 => 0
  | t + 1 =>
      (if clears (pins t).1 then 0 else dropped t) +
        (if drops c (portAt c s pins t) then 1 else 0)

/-- A read took a byte in the clock before clock `t`. -/
def tookBefore : Nat → Bool
  | 0 => false
  | t + 1 => (takes (portAt c s pins t) (pins t).1).isSome

/-- No read takes a byte right after another one. -/
def Spaced (T : Nat) : Prop :=
  ∀ t < T, tookBefore c s pins t = true → takes (portAt c s pins t) (pins t).1 = none

/-- A clear that meets a dropped frame finds the counter at zero. -/
def ClearsApart (T : Nat) : Prop :=
  ∀ t < T, clears (pins t).1 = true → drops c (portAt c s pins t) = true →
    (portAt c s pins t).rxOverruns = 0#4

variable {c s pins}

theorem portAt_succ (t : Nat) :
    portAt c s pins (t + 1) = step c (portAt c s pins t) (pins t).1 (pins t).2 := by
  rfl

theorem shows_portAt {T : Nat} (hempty : Empty s) (hspaced : Spaced c s pins T) :
    ∀ t ≤ T, Shows c (portAt c s pins t) (tookBefore c s pins t) := by
  intro t
  induction t with
  | zero =>
      intro _
      constructor
      · intro _
        exact hempty.available
      · intro _ havail
        exact absurd (hempty.available.symm.trans havail) (by decide)
  | succ t ih =>
      intro hle
      exact (ih (by omega)).next _ (hspaced t (by omega))

/-- The bytes read are a prefix of the bytes that arrived, and the queue is the rest. -/
theorem arrived_eq {T : Nat} (hempty : Empty s) (hspaced : Spaced c s pins T) :
    ∀ t ≤ T, arrived c s pins t = taken c s pins t ++ queue (portAt c s pins t) := by
  intro t
  induction t with
  | zero =>
      intro _
      change [] = [] ++ queue s
      rw [queue, unread_eq_zero.mpr hempty.pointers]
      rfl
  | succ t ih =>
      intro hle
      have hshows := shows_portAt hempty hspaced t (by omega)
      have hqueue := step_queue (c := c) (b := (pins t).1) (pins t).2 fun x =>
        hshows.head_of_takes (hspaced t (by omega))
      have harrived : arrived c s pins (t + 1) =
          arrived c s pins t ++ (arrives c (portAt c s pins t)).toList := trace_succ _ _ _ _ _
      have htaken : taken c s pins (t + 1) =
          taken c s pins t ++ (takes (portAt c s pins t) (pins t).1).toList := trace_succ _ _ _ _ _
      rw [harrived, htaken, ih (by omega), List.append_assoc, hqueue, List.append_assoc,
        portAt_succ]

/-- The overrun counter is the number of dropped frames, up to 15. -/
theorem overruns_portAt {T : Nat} (hc : c.rxOverruns = true) (hempty : Empty s)
    (hapart : ClearsApart c s pins T) :
    ∀ t ≤ T, (portAt c s pins t).rxOverruns.toNat = min 15 (dropped c s pins t) := by
  intro t
  induction t with
  | zero =>
      intro _
      change s.rxOverruns.toNat = min 15 0
      rw [hempty.overruns]
      rfl
  | succ t ih =>
      intro hle
      exact step_overruns _ hc (ih (by omega)) (hapart t (by omega))

/-- As long as no read follows another one in the next clock and no clear meets a dropped frame,
every read gives the oldest unread byte and removes it, the unread bytes are those that arrived
and were not read, and the overrun counter is the number of dropped frames, up to 15. -/
theorem receive_fifo (c : Config) (s : State n) (hempty : Empty s) (pins : Nat → Pins) (T : Nat)
    (hspaced : Spaced c s pins T) (hapart : ClearsApart c s pins T) :
    (∀ t ≤ T, arrived c s pins t = taken c s pins t ++ queue (portAt c s pins t) ∧
      (taken c s pins t).length + unread (portAt c s pins t) = (arrived c s pins t).length ∧
      (c.rxOverruns = true →
        (portAt c s pins t).rxOverruns.toNat = min 15 (dropped c s pins t))) ∧
    ∀ t < T, ∀ x, takes (portAt c s pins t) (pins t).1 = some x →
      ∃ rest, queue (portAt c s pins t) = x :: rest ∧
        queue (portAt c s pins (t + 1)) = rest ++ (arrives c (portAt c s pins t)).toList := by
  constructor
  · intro t hle
    have heq := arrived_eq hempty hspaced t hle
    refine ⟨heq, ?_, fun hc => overruns_portAt hc hempty hapart t hle⟩
    rw [heq, List.length_append, queue, Ring.length_contents]
  · intro t hlt x htake
    have hshows := shows_portAt hempty hspaced t (by omega)
    have hhead : ∀ y, takes (portAt c s pins t) (pins t).1 = some y →
        ∃ rest, queue (portAt c s pins t) = y :: rest :=
      fun y => hshows.head_of_takes (hspaced t hlt)
    have hqueue := step_queue (c := c) (pins t).2 hhead
    rcases hhead x htake with ⟨rest, hrest⟩
    refine ⟨rest, hrest, ?_⟩
    rw [hrest, htake] at hqueue
    exact (List.cons.inj hqueue).2.symm

/-- A frame `0xff` on the line, and the clocks in which the data register is read. -/
def oneFrame (reads : Nat → Bool) (t : Nat) : Pins :=
  (⟨reads t, false, 0b00#2, 0#32⟩, t < 2 || 16 ≤ t)

/-- A port that is read once gives the byte. -/
theorem receive_fifo_oneFrame :
    [0xff#8] = taken fastConfig idleState (oneFrame (· == 180)) 200 ∧
      queue (portAt fastConfig idleState (oneFrame (· == 180)) 200) = [] := by
  have hrun := (receive_fifo fastConfig idleState ⟨rfl, rfl, rfl⟩ (oneFrame (· == 180)) 200
    (by unfold Spaced; decide +kernel) (by unfold ClearsApart; decide +kernel)).1 200 (by decide)
  have harrived : arrived fastConfig idleState (oneFrame (· == 180)) 200 = [0xff#8] := by
    decide +kernel
  have hqueue : queue (portAt fastConfig idleState (oneFrame (· == 180)) 200) = [] := by
    decide +kernel
  constructor
  · rw [← harrived, hrun.1, hqueue, List.append_nil]
  · exact hqueue

/-- A port that is read in two clocks running gives the byte twice, and the read pointer passes
the write pointer. -/
theorem read_twice :
    let reads : Nat → Bool := fun t => t == 180 || t == 181
    let port := portAt fastConfig idleState (oneFrame reads)
    Empty idleState ∧ takes (port 180) (oneFrame reads 180).1 = some 0xff#8 ∧
      queue (port 181) = [] ∧ takes (port 181) (oneFrame reads 181).1 = some 0xff#8 ∧
      unread (port 182) = 3 := by
  refine ⟨⟨rfl, rfl, rfl⟩, ?_⟩
  decide +kernel

end Run

end Sio
end F32c
