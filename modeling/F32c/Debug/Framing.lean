import F32c.Debug.Commands

/-!
# The framing of commands

What each command does in a state that any earlier commands have left.  A read of breakpoints takes
all of `R_arg1` for the number of the first one, also the bits of earlier arguments that an argument
of one byte leaves there.
-/

namespace F32c
namespace Debug

open Clocked

section Commands

/-- A command with its arguments. -/
inductive Command
  | regRd (i n : Byte)
  | breakpointRd (i n : Byte)
  | breakpointWr (k v : Word)
  | clkStep (a n : Word)

/-- The bytes of a command. -/
def Command.bytes : Command → List Byte
  | regRd i n => [debCmdRegRd, i, n]
  | breakpointRd i n => [debCmdBreakpointRd, i, n]
  | breakpointWr k v => debCmdBreakpointWr :: (wordBytes k ++ wordBytes v)
  | clkStep a n => debCmdClkStep :: (wordBytes a ++ wordBytes n)

/-- The items are in range, and a step command does not start the processor. -/
def Command.Legal (c : Config) : Command → Prop
  | regRd i n => i.toNat + n.toNat < 64
  | breakpointRd i n => i.toNat + n.toNat < c.breakpoints
  | breakpointWr k _ => k.toNat < c.breakpoints
  | clkStep a _ => a.getLsbD 0 = false

/-- The bytes of `n + 1` items from the one with the number `i` on. -/
def itemBytes (item : Nat → BitVec 2 → Out) (i n : Nat) : List Out :=
  (List.range (4 * (n + 1))).map fun m => item (i + m / 4) (BitVec.ofNat 2 m)

variable {c : Config} (s : State c.breakpoints) (inp : Nat → Input) (T : Nat)

/-- The sequence number and some bytes are sent, each once, and then the unit is idle. -/
structure Answers (outs : List Out) : Prop where
  sent : ∃ T', T ≤ T' ∧ ∀ t, T' ≤ t → (stateAt step s inp t).reqState = .idle ∧
    trace step output s inp t = .seqn :: outs
  strobe : ∀ t, (stateAt step s inp (t + 1)).ctrlOutStrobe =
    (output (stateAt step s inp t) (inp t)).isSome
  byte : ∀ t o, output (stateAt step s inp t) (inp t) = some o →
    (stateAt step s inp (t + 1)).ctrlOut = o.byte (stateAt step s inp t) (inp t)

/-- What a command does that is complete in clock `T`. -/
def Command.Works : Command → Prop
  | regRd i n =>
      Answers s inp T (itemBytes (fun k j => .register (BitVec.ofNat 6 k) j) i.toNat n.toNat)
  | breakpointRd i n => Answers s inp T (itemBytes .breakpoint i.toNat n.toNat)
  | breakpointWr k v =>
      Answers s inp T [] ∧ ∀ j, (stateAt step s inp (T + 1)).breakAddrs j =
        marked (hit (stateAt step s inp T) (inp T) j)
          (if j.val = k.toNat then v else (stateAt step s inp T).breakAddrs j)
  | clkStep _ n =>
      (∀ t, T ≤ t → anyHit (stateAt step s inp t) (inp t) = false) →
        Answers s inp T [] ∧
          ∀ t, T < t → ((stateAt step s inp t).clkEnable = true ↔ t ≤ T + n.toNat)

/-- Nothing is left of earlier arguments where a read of breakpoints takes it for a number. -/
def Command.Fresh : Command → Prop
  | breakpointRd _ _ => s.arg1.extractLsb 23 0 = 0#24
  | _ => True

end Commands

section Framing

variable {c : Config} {s : State c.breakpoints} {inp : Nat → Input} {T : Nat}

theorem answers_of_sent {outs : List Out}
    (h : ∃ T', T ≤ T' ∧ ∀ t, T' ≤ t → (stateAt step s inp t).reqState = .idle ∧
      trace step output s inp t = .seqn :: outs) : Answers s inp T outs :=
  ⟨h, fun _ => step_output.1, fun _ => step_output.2⟩

theorem low_byte (x : BitVec 24) (b : Byte) : (x ++ b : Word).extractLsb 7 0 = b := by
  apply BitVec.eq_of_getLsbD_eq
  intro j hj
  simp only [BitVec.getLsbD_extractLsb, BitVec.getLsbD_append]
  interval_cases j <;> simp

/-- A read command has been received. -/
theorem short_received (hidle : s.reqState = .idle) (hactive : s.debugActive = true)
    {cmd i n : Byte} (hcmd : cmd.getLsbD 7 = true) (hsize : cmd.getLsbD 6 = false)
    (hcount : cmd.getLsbD 5 = true)
    (h : Completes inp [cmd, i, n] T) :
    Sending cmd (s.arg1.extractLsb 23 0 ++ i : Word) n.toNat 0 (stateAt step s inp T).frame ∧
      trace step output s inp T = [.seqn] := by
  rcases feed_short (f := s.frame) hidle hactive hcmd hsize hcount i n with ⟨hfeed, hframed⟩
  have hframed' : Framed s.frame [cmd, i, n] := hframed
  constructor
  · rw [frame_run (hframed'.not_exec h) T (Nat.le_refl T), h.bytes_eq, hfeed]
    refine ⟨hactive, rfl, by omega, fun _ => ⟨rfl, ?_, ?_, rfl⟩, fun hd => by omega⟩
    · simp [State.frame]
    · change ((s.arg2.extractLsb 23 0 ++ n : Word).extractLsb 7 0).toNat = _
      rw [low_byte]
      rfl
  · rw [trace_reception hidle hactive hcmd hframed' h T (Nat.le_refl T), h.bytes_eq]
    rfl

/-- A command with arguments of four bytes has been received. -/
theorem long_received (hidle : s.reqState = .idle) (hactive : s.debugActive = true) {cmd : Byte}
    {a b : Word} (hcmd : cmd.getLsbD 7 = true) (hsize : cmd.getLsbD 6 = true)
    (hcount : cmd.getLsbD 5 = true)
    (h : Completes inp (cmd :: (wordBytes a ++ wordBytes b)) T) :
    (stateAt step s inp T).frame =
        { debugActive := true
          reqState := .exec
          cmd := cmd
          arg1 := a
          arg2 := b
          argcnt := 0b00#2
          seqn := s.seqn + 1 } ∧
      trace step output s inp T = [.seqn] := by
  rcases feed_long (f := s.frame) hidle hactive hcmd hsize hcount a b with ⟨hfeed, hframed⟩
  have hframed' : Framed s.frame (cmd :: (wordBytes a ++ wordBytes b)) := hframed
  constructor
  · rw [frame_run (hframed'.not_exec h) T (Nat.le_refl T), h.bytes_eq, hfeed, ← hactive]
    rfl
  · rw [trace_reception hidle hactive hcmd hframed' h T (Nat.le_refl T), h.bytes_eq]
    rfl

/-- The number of the first item of a read of breakpoints. -/
theorem number_toNat (x : BitVec 24) (b : Byte) :
    (x ++ b : Word).toNat = x.toNat * 256 + b.toNat := by
  rw [BitVec.toNat_append, ← Nat.shiftLeft_add_eq_or_of_lt b.isLt, Nat.shiftLeft_eq]

/-- A register is read by the low bits of the argument. -/
theorem itemOuts_register (x : BitVec 24) (i : Byte) (n : Nat) :
    itemOuts debCmdRegRd (x ++ i : Word) (4 * (n + 1)) =
      itemBytes (fun k j => .register (BitVec.ofNat 6 k) j) i.toNat n := by
  apply List.map_congr_left
  intro m _
  have hlow : (x ++ i + BitVec.ofNat 32 (m / 4) : Word).extractLsb 5 0 =
      BitVec.ofNat 6 (i.toNat + m / 4) := by
    apply BitVec.eq_of_toNat_eq
    simp only [BitVec.extractLsb_toNat, BitVec.toNat_add, number_toNat, BitVec.toNat_ofNat,
      Nat.shiftRight_zero]
    omega
  rw [itemOut, if_pos rfl, hlow]

/-- A breakpoint is read by all bits of the argument. -/
theorem itemOuts_breakpoint (x : BitVec 24) (i n : Byte) :
    itemOuts debCmdBreakpointRd (x ++ i : Word) (4 * (n.toNat + 1)) =
      itemBytes .breakpoint i.toNat n.toNat ↔ x = 0#24 := by
  have hi := i.isLt
  have hn := n.isLt
  have hitem : ∀ a j, itemOut debCmdBreakpointRd a j = .breakpoint a.toNat j := fun _ _ => rfl
  constructor
  · intro h
    rw [itemOuts, itemBytes, List.map_inj_left] at h
    have hfirst := h 0 (List.mem_range.2 (by omega))
    rw [hitem] at hfirst
    injection hfirst with hnumber
    rw [BitVec.toNat_add, number_toNat, BitVec.toNat_ofNat] at hnumber
    apply BitVec.eq_of_toNat_eq
    have hx := x.isLt
    change x.toNat = 0
    omega
  · rintro rfl
    apply List.map_congr_left
    intro m hm
    have hm' : m < 4 * (n.toNat + 1) := List.mem_range.1 hm
    rw [hitem]
    congr 1
    simp only [BitVec.toNat_add, number_toNat, BitVec.toNat_ofNat]
    omega

/-- The default configuration. -/
def defaultConfig : Config := { pcMask := BitVec.allOnes 30, breakpoints := 2 }

def powerUp : State defaultConfig.breakpoints :=
  { debugActive := false
    reqState := .idle
    cmd := 0#8
    arg1 := 0#32
    arg2 := 0#32
    argcnt := 0#2
    seqn := 0#8
    breakAddrs := fun _ => 0#32
    breakpoint := false
    clkEnable := false
    ctrlOut := 0#8
    ctrlOutStrobe := false }

/-- Bytes that arrive, and clocks without one. -/
def arrive (bytes : List (Option Byte)) (t : Nat) : Input :=
  { ctrlInData := (bytes.getD t none).getD 0#8
    ctrlInStrobe := (bytes.getD t none).isSome
    ctrlOutBusy := false
    traceBreakPc := 0#30
    traceData := fun _ => 0#32
    undef := 0#32 }

theorem arrive_quiet (bytes : List (Option Byte)) : Quiet (arrive bytes) bytes.length := by
  intro t ht
  simp [arrive, List.getElem?_eq_none ht]

theorem arrive_drains (bytes : List (Option Byte)) : Drains (arrive bytes) :=
  fun t => ⟨t, Nat.le_refl t, rfl⟩

/-- The debugger is switched on. -/
def activate : List (Option Byte) := [some 0x9d#8, some 0xed#8]

end Framing

end Debug
end F32c
