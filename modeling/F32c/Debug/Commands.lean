import F32c.Debug.Unit
import Mathlib.Tactic.IntervalCases

/-!
# Commands of the debug unit

What the unit does with a command that it has received completely, in a state that any earlier
commands have left.
-/

namespace F32c
namespace Debug

open Clocked

section Step

variable {c : Config} {s : State c.breakpoints} {i : Input}

/-- The registers of the command state machine. -/
structure Frame where
  debugActive : Bool
  reqState : ReqState
  cmd : Byte
  arg1 : Word
  arg2 : Word
  argcnt : BitVec 2
  seqn : Byte

def State.frame (s : State c.breakpoints) : Frame :=
  { debugActive := s.debugActive
    reqState := s.reqState
    cmd := s.cmd
    arg1 := s.arg1
    arg2 := s.arg2
    argcnt := s.argcnt
    seqn := s.seqn }

/-- The breakpoints do not interfere with the commands. -/
theorem step_frame : (step s i).frame = (execute s i (receive s i)).frame := by
  unfold step
  dsimp only
  split
  · rfl
  · rfl

theorem step_ctrlOut :
    (step s i).ctrlOut = (execute s i (receive s i)).ctrlOut ∧
      (step s i).ctrlOutStrobe = (execute s i (receive s i)).ctrlOutStrobe := by
  unfold step
  dsimp only
  split
  · exact ⟨rfl, rfl⟩
  · exact ⟨rfl, rfl⟩

theorem execute_of_ne (h : s.reqState ≠ .exec) (r : State c.breakpoints) : execute s i r = r := by
  rw [execute, if_neg h]

/-- Without a byte the unit waits. -/
theorem receive_quiet (h : i.ctrlInStrobe = false) :
    receive s i = { s with ctrlOutStrobe := false } := by
  simp [receive, h]

/-- A byte that arrives while a command is executed ends it. -/
theorem receive_exec (h : s.reqState = .exec) :
    receive s i =
      { s with
        ctrlOutStrobe := false
        reqState := if i.ctrlInStrobe then .idle else .exec } := by
  cases hin : i.ctrlInStrobe with
  | false => simp [receive, hin, ← h]
  | true => simp [receive, hin, h]

/-- What sending a byte does to the output. -/
theorem sendItem_out (w : Word) (r : State c.breakpoints) :
    ((sendItem s i w r).ctrlOutStrobe =
        ((!i.ctrlOutBusy && !s.ctrlOutStrobe) || r.ctrlOutStrobe)) ∧
      ((!i.ctrlOutBusy && !s.ctrlOutStrobe) = true →
        (sendItem s i w r).ctrlOut = byteOf w s.argcnt) := by
  unfold sendItem
  cases !i.ctrlOutBusy && !s.ctrlOutStrobe with
  | false => exact ⟨rfl, nofun⟩
  | true =>
      simp only [if_true, Bool.true_or]
      split_ifs <;> exact ⟨rfl, fun _ => rfl⟩

theorem sendMemory_out (r : State c.breakpoints) :
    ((sendMemory s i r).ctrlOutStrobe =
        ((!i.ctrlOutBusy && !s.ctrlOutStrobe) || r.ctrlOutStrobe)) ∧
      ((!i.ctrlOutBusy && !s.ctrlOutStrobe) = true →
        (sendMemory s i r).ctrlOut = byteOf (traceDataIn s i) (s.arg1.extractLsb 1 0)) := by
  unfold sendMemory
  cases !i.ctrlOutBusy && !s.ctrlOutStrobe with
  | false => exact ⟨rfl, nofun⟩
  | true =>
      simp only [if_true, Bool.true_or]
      split_ifs <;> exact ⟨rfl, fun _ => rfl⟩

/-- A branch of a command that sends a byte when it may. -/
theorem sends_of {q : State c.breakpoints} {free : Bool} {o : Out}
    (hstrobe : q.ctrlOutStrobe = free) (hout : free = true → q.ctrlOut = o.byte s i) :
    q.ctrlOutStrobe = (if free then some o else none).isSome ∧
      ∀ o', (if free then some o else none) = some o' → q.ctrlOut = o'.byte s i := by
  cases free with
  | false => exact ⟨hstrobe, nofun⟩
  | true =>
      refine ⟨hstrobe, ?_⟩
      rintro o' ho
      cases ho
      exact hout rfl

/-- What the execution of a command sends. -/
theorem executeCmd_output (r : State c.breakpoints) (hr : r.ctrlOutStrobe = false) :
    (executeCmd s i r).ctrlOutStrobe =
        (if !i.ctrlOutBusy && !s.ctrlOutStrobe then outputCmd s else none).isSome ∧
      ∀ o, (if !i.ctrlOutBusy && !s.ctrlOutStrobe then outputCmd s else none) = some o →
        (executeCmd s i r).ctrlOut = o.byte s i := by
  have hnone : (if !i.ctrlOutBusy && !s.ctrlOutStrobe then (none : Option Out) else none) = none :=
    ite_self _
  have hitem := @sendItem_out c s i
  have hmemory := @sendMemory_out c s i r
  rw [hr, Bool.or_false] at hmemory
  unfold executeCmd outputCmd
  by_cases hreg : s.cmd = debCmdRegRd
  · have hitem := hitem (traceDataIn s i) r
    rw [hr, Bool.or_false] at hitem
    simp only [hreg, if_true, show ¬debCmdRegRd = debCmdActive by decide, if_false]
    exact sends_of hitem.1 hitem.2
  by_cases hbreak : s.cmd = debCmdBreakpointRd
  · have hitem := hitem (breakAddr s i s.arg1.toNat) r
    rw [hr, Bool.or_false] at hitem
    simp only [hbreak, if_true, show ¬debCmdBreakpointRd = debCmdActive by decide,
      show ¬debCmdBreakpointRd = debCmdRegRd by decide, if_false]
    exact sends_of hitem.1 hitem.2
  by_cases hmem : s.cmd = debCmdMemRd
  · simp only [hmem, if_true, show ¬debCmdMemRd = debCmdActive by decide,
      show ¬debCmdMemRd = debCmdRegRd by decide, show ¬debCmdMemRd = debCmdBreakpointRd by decide,
      show ¬debCmdMemRd = debCmdBreakpointWr by decide, if_false]
    exact sends_of hmemory.1 hmemory.2
  simp only [hreg, hbreak, hmem, if_false, hnone]
  refine ⟨?_, nofun⟩
  unfold breakpointWr clkStep
  split_ifs <;> exact hr

/-- A clock sends what `output` says. -/
theorem step_output :
    (step s i).ctrlOutStrobe = (output s i).isSome ∧
      ∀ o, output s i = some o → (step s i).ctrlOut = o.byte s i := by
  rw [step_ctrlOut.1, step_ctrlOut.2]
  cases hreq : s.reqState with
  | exec =>
      rw [receive_exec hreq]
      simp only [execute, output, hreq, if_true]
      cases hactive : s.debugActive with
      | false => exact ⟨rfl, nofun⟩
      | true =>
          simp only [Bool.not_true, Bool.false_eq_true, if_false, Bool.true_and]
          exact executeCmd_output _ rfl
  | arg1 =>
      rw [execute_of_ne (by simp [hreq])]
      simp only [output, hreq, receive]
      refine ⟨?_, nofun⟩
      split_ifs <;> rfl
  | arg2 =>
      rw [execute_of_ne (by simp [hreq])]
      simp only [output, hreq, receive]
      refine ⟨?_, nofun⟩
      split_ifs <;> rfl
  | idle =>
      rw [execute_of_ne (by simp [hreq])]
      simp only [output, hreq, receive]
      cases hin : i.ctrlInStrobe with
      | false => exact ⟨rfl, nofun⟩
      | true =>
          cases hactive : s.debugActive || i.ctrlInData == debCmdActive with
          | false =>
              have hno : (!s.debugActive && i.ctrlInData != debCmdActive) = true := by
                simpa [bne] using hactive
              simp [hno]
          | true =>
              have hyes : (!s.debugActive && i.ctrlInData != debCmdActive) = false := by
                simpa [bne, or_iff_not_imp_left] using hactive
              cases hcmd : i.ctrlInData.getLsbD 7 with
              | false => simp [hyes]
              | true =>
                  simp only [hyes, if_true, Bool.false_eq_true, if_false, Bool.and_true]
                  refine ⟨rfl, ?_⟩
                  rintro o ho
                  cases ho
                  rfl

end Step

section Reception

variable {c : Config} {s : State c.breakpoints} {i : Input}

/-- What a byte does to the command state machine. -/
def feed (f : Frame) (b : Byte) : Frame :=
  match f.reqState with
  | .idle =>
      if !f.debugActive && b != debCmdActive then f
      else if b.getLsbD 7 then
        { f with cmd := b, reqState := .arg1, argcnt := argBytes b, seqn := f.seqn + 1 }
      else f
  | .arg1 =>
      let f' := { f with arg1 := f.arg1.extractLsb 23 0 ++ b }
      if f.argcnt = 0b00#2 then
        { f' with
          argcnt := argBytes f.cmd
          reqState := if f.cmd.getLsbD 5 then .arg2 else .exec }
      else { f' with argcnt := f.argcnt - 1 }
  | .arg2 =>
      let f' := { f with arg2 := f.arg2.extractLsb 23 0 ++ b }
      if f.argcnt = 0b00#2 then { f' with reqState := .exec }
      else { f' with argcnt := f.argcnt - 1 }
  | .exec => { f with reqState := .idle }

theorem receive_frame (h : i.ctrlInStrobe = true) :
    (receive s i).frame = feed s.frame i.ctrlInData := by
  unfold receive feed State.frame
  rw [if_pos h]
  cases s.reqState with
  | idle =>
      by_cases hskip : (!s.debugActive && i.ctrlInData != debCmdActive) = true
      · simp only [if_pos hskip]
      · by_cases hcmd : i.ctrlInData.getLsbD 7 = true
        · simp only [if_neg hskip, if_pos hcmd]
        · simp only [if_neg hskip, if_neg hcmd]
  | arg1 =>
      by_cases hlast : s.argcnt = 0b00#2
      · simp only [if_pos hlast]
      · simp only [if_neg hlast]
  | arg2 =>
      by_cases hlast : s.argcnt = 0b00#2
      · simp only [if_pos hlast]
      · simp only [if_neg hlast]
  | exec => rfl

/-- The bytes that arrive in the first `n` clocks. -/
def received (inp : Nat → Input) (n : Nat) : List Byte :=
  (List.range n).flatMap fun t => if (inp t).ctrlInStrobe then [(inp t).ctrlInData] else []

theorem received_succ (inp : Nat → Input) (n : Nat) :
    received inp (n + 1) =
      received inp n ++ if (inp n).ctrlInStrobe then [(inp n).ctrlInData] else [] := by
  rw [received, received, List.range_succ, List.flatMap_append, List.flatMap_singleton]

theorem received_add (inp : Nat → Input) (m n : Nat) :
    ∃ rest, received inp (m + n) = received inp m ++ rest := by
  induction n with
  | zero => exact ⟨[], (List.append_nil _).symm⟩
  | succ n ih =>
      rcases ih with ⟨rest, hrest⟩
      refine ⟨rest ++ if (inp (m + n)).ctrlInStrobe then [(inp (m + n)).ctrlInData] else [], ?_⟩
      rw [← Nat.add_assoc, received_succ, hrest, List.append_assoc]

/-- The last byte of a command arrives in the clock before `T`. -/
structure Completes (inp : Nat → Input) (bytes : List Byte) (T : Nat) : Prop where
  bytes_eq : received inp T = bytes
  last : ∃ t, T = t + 1 ∧ (inp t).ctrlInStrobe = true

variable {inp : Nat → Input} {bytes : List Byte} {T : Nat}

/-- Before it a part of the command has arrived. -/
theorem Completes.take (h : Completes inp bytes T) {t : Nat} (ht : t < T) :
    ∃ k < bytes.length, received inp t = bytes.take k := by
  rcases h with ⟨hbytes, u, rfl, hlast⟩
  rcases received_add inp t (u - t) with ⟨rest, hrest⟩
  rw [Nat.add_sub_cancel' (by omega)] at hrest
  rw [received_succ, hlast, if_pos rfl, hrest] at hbytes
  refine ⟨(received inp t).length, ?_, ?_⟩
  · rw [← hbytes]
    simp
  · rw [← hbytes, List.append_assoc, List.take_left']
    rfl

/-- The first byte to arrive is the one of the command. -/
theorem Completes.head {cmd : Byte} {args : List Byte} (h : Completes inp (cmd :: args) T)
    {t : Nat} (ht : t < T) (hnone : received inp t = []) (hin : (inp t).ctrlInStrobe = true) :
    (inp t).ctrlInData = cmd := by
  rcases received_add inp (t + 1) (T - (t + 1)) with ⟨rest, hrest⟩
  rw [Nat.add_sub_cancel' (by omega), h.bytes_eq, received_succ, hnone, hin] at hrest
  have hhead : (inp t).ctrlInData = cmd ∧ rest = args := by
    simpa using hrest.symm
  exact hhead.1

/-- The state machine in the clocks in which no command is executed. -/
theorem frame_run (hexec : ∀ t < T, ((received inp t).foldl feed s.frame).reqState ≠ .exec) :
    ∀ t ≤ T, (stateAt step s inp t).frame = (received inp t).foldl feed s.frame := by
  intro t
  induction t with
  | zero =>
      intro _
      rfl
  | succ t ih =>
      intro hle
      have hframe := ih (by omega)
      have hno : (stateAt step s inp t).reqState ≠ .exec := by
        have h := hexec t (by omega)
        rw [← hframe] at h
        exact h
      rw [stateAt_succ, step_frame, execute_of_ne hno, received_succ, List.foldl_append, ← hframe]
      cases hin : (inp t).ctrlInStrobe with
      | false =>
          rw [receive_quiet hin]
          rfl
      | true =>
          rw [receive_frame hin]
          rfl

end Reception

section Arguments

/-- The bytes of an argument, in the order in which they are sent. -/
def wordBytes (w : Word) : List Byte :=
  [w.extractLsb 31 24, w.extractLsb 23 16, w.extractLsb 15 8, w.extractLsb 7 0]

/-- The state machine after a command with arguments of one byte. -/
theorem feed_short {f : Frame} (hidle : f.reqState = .idle) (hactive : f.debugActive = true)
    {cmd : Byte} (hcmd : cmd[7] = true) (hsize : cmd[6] = false)
    (hcount : cmd[5] = true) (a b : Byte) :
    [cmd, a, b].foldl feed f =
        { f with
          cmd := cmd
          reqState := .exec
          argcnt := 0b00#2
          seqn := f.seqn + 1
          arg1 := f.arg1.extractLsb 23 0 ++ a
          arg2 := f.arg2.extractLsb 23 0 ++ b } ∧
      ∀ k < 3, (([cmd, a, b].take k).foldl feed f).reqState ≠ .exec ∧
        ((([cmd, a, b].take k).foldl feed f).reqState = .idle → k = 0) := by
  constructor
  · simp [feed, hidle, hactive, hcmd, hsize, hcount, argBytes]
  · intro k hk
    interval_cases k
    · simp [hidle]
    · simp [feed, hidle, hactive, hcmd]
    · simp [feed, hidle, hactive, hcmd, hsize, hcount, argBytes]

/-- The bytes of a word, shifted into a register. -/
theorem wordBytes_shift (w x : Word) :
    ((((((x.extractLsb 23 0 ++ w.extractLsb 31 24 : Word).extractLsb 23 0 ++
      w.extractLsb 23 16 : Word).extractLsb 23 0 ++ w.extractLsb 15 8 : Word).extractLsb 23 0 ++
        w.extractLsb 7 0 : Word))) = w := by
  apply BitVec.eq_of_getLsbD_eq
  intro j hj
  simp only [BitVec.getLsbD_append, BitVec.getLsbD_extractLsb]
  interval_cases j <;> simp

/-- The state machine after a command with arguments of four bytes. -/
theorem feed_long {f : Frame} (hidle : f.reqState = .idle) (hactive : f.debugActive = true)
    {cmd : Byte} (hcmd : cmd[7] = true) (hsize : cmd[6] = true)
    (hcount : cmd[5] = true) (a b : Word) :
    (cmd :: (wordBytes a ++ wordBytes b)).foldl feed f =
        { f with
          cmd := cmd
          reqState := .exec
          argcnt := 0b00#2
          seqn := f.seqn + 1
          arg1 := a
          arg2 := b } ∧
      ∀ k < 9, (((cmd :: (wordBytes a ++ wordBytes b)).take k).foldl feed f).reqState ≠ .exec ∧
        ((((cmd :: (wordBytes a ++ wordBytes b)).take k).foldl feed f).reqState = .idle →
          k = 0) := by
  constructor
  · have ha := wordBytes_shift a f.arg1
    have hb := wordBytes_shift b f.arg2
    simp [wordBytes, feed, hidle, hactive, hcmd, hsize, hcount, argBytes]
    exact ⟨ha, hb⟩
  · intro k hk
    interval_cases k <;>
      simp [wordBytes, feed, hidle, hactive, hcmd, hsize, hcount, argBytes]

end Arguments

section Received

variable {c : Config} {s : State c.breakpoints} {inp : Nat → Input} {cmd : Byte}
  {args : List Byte} {T : Nat}

/-- The bytes of a command take the state machine from the idle state through the arguments. -/
def Framed (f : Frame) (bytes : List Byte) : Prop :=
  ∀ k < bytes.length, ((bytes.take k).foldl feed f).reqState ≠ .exec ∧
    (((bytes.take k).foldl feed f).reqState = .idle → k = 0)

theorem Framed.not_exec {bytes : List Byte} (hframed : Framed s.frame bytes)
    (h : Completes inp bytes T) :
    ∀ t < T, ((received inp t).foldl feed s.frame).reqState ≠ .exec := by
  intro t ht
  rcases h.take ht with ⟨k, hk, htake⟩
  rw [htake]
  exact (hframed k hk).1

/-- While a command arrives, its sequence number is sent with its first byte. -/
theorem trace_reception (hidle : s.reqState = .idle) (hactive : s.debugActive = true)
    (hcmd : cmd[7] = true) (hframed : Framed s.frame (cmd :: args)) (h : Completes inp (cmd :: args) T) :
    ∀ t ≤ T, trace step output s inp t = if received inp t = [] then [] else [.seqn] := by
  intro t
  induction t with
  | zero =>
      intro _
      rfl
  | succ t ih =>
      intro hle
      rcases h.take (t := t) (by omega) with ⟨k, hk, htake⟩
      have hframe := frame_run (hframed.not_exec h) t (by omega)
      have hreq : (stateAt step s inp t).reqState =
          (((cmd :: args).take k).foldl feed s.frame).reqState := by
        rw [← htake, ← hframe]
        rfl
      rw [trace_succ, ih (by omega), received_succ]
      cases k with
      | zero =>
          have hidle' : (stateAt step s inp t).reqState = .idle := hreq.trans hidle
          have hactive' : (stateAt step s inp t).debugActive = true := by
            have hsame := congrArg Frame.debugActive hframe
            rw [htake] at hsame
            exact hsame.trans hactive
          rw [htake, List.take_zero, if_pos rfl, List.nil_append, output, hidle', hactive']
          cases hin : (inp t).ctrlInStrobe with
          | false => rfl
          | true =>
              rw [h.head (by omega) htake hin]
              simp [hcmd]
      | succ k =>
          have hsent : received inp t ≠ [] := by
            rw [htake]
            simp
          have hnone : output (stateAt step s inp t) (inp t) = none := by
            rcases hframed (k + 1) hk with ⟨hexec, hidle⟩
            rw [← hreq] at hexec hidle
            unfold output
            cases hstate : (stateAt step s inp t).reqState with
            | idle => exact absurd (hidle hstate) (by omega)
            | arg1 => rfl
            | arg2 => rfl
            | exec => exact absurd hstate hexec
          rw [if_neg hsent, hnone, if_neg (by simp [hsent])]
          rfl

end Received

section Sending

variable {c : Config} {s : State c.breakpoints} {i : Input} {cmd : Byte} {a : Word} {n m : Nat}

/-- A read of items by a number in the first argument. -/
def IsRead (cmd : Byte) : Prop := cmd = debCmdRegRd ∨ cmd = debCmdBreakpointRd

/-- The byte of an item that a read sends. -/
def itemOut (cmd : Byte) (a : Word) (j : BitVec 2) : Out :=
  if cmd = debCmdRegRd then .register (a.extractLsb 5 0) j else .breakpoint a.toNat j

/-- The bytes of the items from `a` on. -/
def itemOuts (cmd : Byte) (a : Word) (m : Nat) : List Out :=
  (List.range m).map fun k => itemOut cmd (a + BitVec.ofNat 32 (k / 4)) (BitVec.ofNat 2 k)

/-- A read of `n + 1` items that has sent `m` bytes. -/
structure Sending (cmd : Byte) (a : Word) (n m : Nat) (s : Frame) : Prop where
  active : s.debugActive = true
  cmd_eq : s.cmd = cmd
  bound : m ≤ 4 * (n + 1)
  more : m < 4 * (n + 1) → s.reqState = .exec ∧ s.arg1 = a + BitVec.ofNat 32 (m / 4) ∧
    (s.arg2.extractLsb 7 0).toNat = n - m / 4 ∧ s.argcnt = BitVec.ofNat 2 m
  done : m = 4 * (n + 1) → s.reqState = .idle

theorem step_of_exec (hexec : s.reqState = .exec) (hactive : s.debugActive = true)
    (hquiet : i.ctrlInStrobe = false) :
    (step s i).frame = (executeCmd s i { s with ctrlOutStrobe := false }).frame := by
  rw [step_frame, receive_quiet hquiet, execute, if_pos hexec, hactive]
  rfl

theorem step_of_idle (hidle : s.reqState ≠ .exec) (hquiet : i.ctrlInStrobe = false) :
    (step s i).frame = s.frame := by
  rw [step_frame, execute_of_ne hidle, receive_quiet hquiet]
  rfl

theorem executeCmd_read (hread : IsRead s.cmd) (r : State c.breakpoints) :
    ∃ w, executeCmd s i r = sendItem s i w r := by
  unfold executeCmd
  rcases hread with h | h
  · exact ⟨traceDataIn s i, by simp [h, debCmdActive, debCmdRegRd]⟩
  · exact ⟨breakAddr s i s.arg1.toNat,
      by simp [h, debCmdActive, debCmdRegRd, debCmdBreakpointRd]⟩

theorem output_read (hexec : s.reqState = .exec) (hactive : s.debugActive = true)
    (hread : IsRead s.cmd) :
    output s i = if !i.ctrlOutBusy && !s.ctrlOutStrobe then some (itemOut s.cmd s.arg1 s.argcnt)
      else none := by
  have hcmd : outputCmd s = some (itemOut s.cmd s.arg1 s.argcnt) := by
    unfold outputCmd itemOut
    rcases hread with h | h
    · simp [h]
    · simp [h, debCmdRegRd, debCmdBreakpointRd]
  simp only [output, hexec, hactive, hcmd, Bool.true_and]

/-- The last byte of an item. -/
theorem ofNat_last (m : Nat) : BitVec.ofNat 2 m = 0b11#2 ↔ m % 4 = 3 := by
  constructor
  · intro h
    simpa using congrArg BitVec.toNat h
  · intro h
    apply BitVec.eq_of_toNat_eq
    simpa using h

theorem low_pred (w : Word) (h : w.extractLsb 7 0 ≠ 0x00#8) :
    ((w - 1).extractLsb 7 0).toNat + 1 = (w.extractLsb 7 0).toNat := by
  have hne : w.toNat % 256 ≠ 0 := by
    intro hzero
    apply h
    apply BitVec.eq_of_toNat_eq
    simpa using hzero
  have hone : (1 : Word).toNat = 1 := rfl
  simp only [BitVec.extractLsb_toNat, BitVec.toNat_sub, Nat.shiftRight_zero, hone]
  omega

/-- What a byte leaves to be sent. -/
theorem sendItem_frame (w : Word) (hfree : (!i.ctrlOutBusy && !s.ctrlOutStrobe) = true) :
    (sendItem s i w { s with ctrlOutStrobe := false }).frame =
      if s.argcnt = 0b11#2 then
        if s.arg2.extractLsb 7 0 = 0x00#8 then
          { s.frame with argcnt := s.argcnt + 1, reqState := .idle }
        else { s.frame with argcnt := s.argcnt + 1, arg2 := s.arg2 - 1, arg1 := s.arg1 + 1 }
      else { s.frame with argcnt := s.argcnt + 1 } := by
  unfold sendItem
  rw [if_pos hfree]
  by_cases hlast : s.argcnt = 0b11#2
  · by_cases hend : s.arg2.extractLsb 7 0 = 0x00#8
    · simp only [if_pos hlast, if_pos hend]
      rfl
    · simp only [if_pos hlast, if_neg hend]
      rfl
  · simp only [if_neg hlast]
    rfl

/-- A clock of a read that sends the next byte. -/
theorem Sending.sends (hread : IsRead cmd) (h : Sending cmd a n m s.frame)
    (hm : m < 4 * (n + 1)) (hquiet : i.ctrlInStrobe = false)
    (hfree : (!i.ctrlOutBusy && !s.ctrlOutStrobe) = true) :
    Sending cmd a n (m + 1) (step s i).frame := by
  rcases h.more hm with ⟨hexec, harg1, harg2, hcnt⟩
  have hread' : IsRead s.cmd := by
    have hcmd : s.cmd = cmd := h.cmd_eq
    rwa [hcmd]
  rcases @executeCmd_read c s i hread' { s with ctrlOutStrobe := false } with ⟨w, hw⟩
  have harg1 : s.arg1 = a + BitVec.ofNat 32 (m / 4) := harg1
  have hcnt : s.argcnt = BitVec.ofNat 2 m := hcnt
  have hnext : s.argcnt + 1 = BitVec.ofNat 2 (m + 1) := by
    rw [hcnt]
    exact (BitVec.ofNat_add m 1).symm
  have hlast := ofNat_last m
  rw [← hcnt] at hlast
  rw [step_of_exec hexec h.active hquiet, hw, sendItem_frame w hfree]
  by_cases hitem : s.argcnt = 0b11#2
  · have hmod := hlast.1 hitem
    rw [if_pos hitem]
    by_cases hend : s.arg2.extractLsb 7 0 = 0x00#8
    · -- the last byte of the last item
      have hzero : n - m / 4 = 0 := by
        rw [← harg2]
        change (s.arg2.extractLsb 7 0).toNat = 0
        rw [hend]
        rfl
      rw [if_pos hend]
      exact ⟨h.active, h.cmd_eq, by omega, fun hlt => by omega, fun _ => rfl⟩
    · have hmore := low_pred s.arg2 hend
      change (s.arg2.extractLsb 7 0).toNat = n - m / 4 at harg2
      rw [if_neg hend]
      refine ⟨h.active, h.cmd_eq, by omega, fun hlt => ⟨hexec, ?_, ?_, hnext⟩, fun hd => by omega⟩
      · change s.arg1 + 1 = _
        rw [harg1, show (m + 1) / 4 = m / 4 + 1 by omega, BitVec.add_assoc]
        exact congrArg (a + ·) (BitVec.ofNat_add (m / 4) 1).symm
      · change ((s.arg2 - 1).extractLsb 7 0).toNat = _
        omega
  · have hmod : m % 4 ≠ 3 := fun hmod => hitem (hlast.2 hmod)
    have hsame : (m + 1) / 4 = m / 4 := by omega
    rw [if_neg hitem]
    refine ⟨h.active, h.cmd_eq, by omega, fun hlt => ⟨hexec, ?_, ?_, hnext⟩, fun hd => by omega⟩
    · rw [hsame]
      exact harg1
    · rw [hsame]
      exact harg2

/-- A clock of a read sends the next byte, or it sends nothing. -/
theorem Sending.step (hread : IsRead cmd) (h : Sending cmd a n m s.frame)
    (hquiet : i.ctrlInStrobe = false) :
    (output s i = none ∧ Sending cmd a n m (step s i).frame ∧
        (m < 4 * (n + 1) → i.ctrlOutBusy = true ∨ s.ctrlOutStrobe = true)) ∨
      output s i = some (itemOut cmd (a + BitVec.ofNat 32 (m / 4)) (BitVec.ofNat 2 m)) ∧
        Sending cmd a n (m + 1) (step s i).frame := by
  have hbound := h.bound
  rcases Nat.lt_or_eq_of_le hbound with hm | hm
  · rcases h.more hm with ⟨hexec, harg1, harg2, hcnt⟩
    have hcmd : s.cmd = cmd := h.cmd_eq
    have hread' : IsRead s.cmd := by rwa [hcmd]
    have hout := @output_read c s i hexec h.active hread'
    cases hfree : !i.ctrlOutBusy && !s.ctrlOutStrobe with
    | false =>
        left
        rw [hfree] at hout
        refine ⟨hout, ?_, fun _ => ?_⟩
        · rcases @executeCmd_read c s i hread' { s with ctrlOutStrobe := false } with ⟨w, hw⟩
          rw [step_of_exec hexec h.active hquiet, hw, sendItem, hfree]
          exact h
        · simpa [or_iff_not_imp_left] using hfree
    | true =>
        right
        rw [hfree, hcmd] at hout
        refine ⟨?_, h.sends hread hm hquiet hfree⟩
        rw [hout, ← harg1, ← hcnt]
        rfl
  · left
    have hidle : s.reqState = .idle := h.done hm
    have hno : s.reqState ≠ .exec := by
      rw [hidle]
      nofun
    refine ⟨?_, ?_, fun hlt => by omega⟩
    · simp [output, hidle, hquiet]
    · rw [step_of_idle hno hquiet]
      exact h

end Sending

section Reads

variable {c : Config} {s : State c.breakpoints} {inp : Nat → Input} {cmd : Byte} {a : Word}
  {n T : Nat}

/-- No byte arrives from a clock on. -/
def Quiet (inp : Nat → Input) (T : Nat) : Prop := ∀ t, T ≤ t → (inp t).ctrlInStrobe = false

/-- The receiver of the output is not busy forever. -/
def Drains (inp : Nat → Input) : Prop := ∀ t, ∃ t', t ≤ t' ∧ (inp t').ctrlOutBusy = false

/-- In every clock of a read some number of bytes has been sent. -/
theorem read_run (hread : IsRead cmd) (hquiet : Quiet inp T)
    (hstart : Sending cmd a n 0 (stateAt step s inp T).frame)
    (htrace : trace step output s inp T = [.seqn]) {t : Nat} (ht : T ≤ t) :
    ∃ m, Sending cmd a n m (stateAt step s inp t).frame ∧
      trace step output s inp t = .seqn :: itemOuts cmd a m := by
  induction t, ht using Nat.le_induction with
  | base => exact ⟨0, hstart, htrace⟩
  | succ t ht ih =>
      rcases ih with ⟨m, hsending, hsent⟩
      rw [stateAt_succ, trace_succ, hsent]
      rcases hsending.step hread (hquiet t ht) with ⟨hnone, hnext, -⟩ | ⟨hout, hnext⟩
      · refine ⟨m, hnext, ?_⟩
        rw [hnone]
        simp
      · refine ⟨m + 1, hnext, ?_⟩
        rw [hout, itemOuts, itemOuts, List.range_succ, List.map_append]
        rfl

theorem itemOuts_length (cmd : Byte) (a : Word) (m : Nat) : (itemOuts cmd a m).length = m := by
  simp [itemOuts]

/-- While bytes are left the next one is sent. -/
theorem read_grows (hread : IsRead cmd) (hquiet : Quiet inp T) (hdrains : Drains inp)
    (hstart : Sending cmd a n 0 (stateAt step s inp T).frame)
    (htrace : trace step output s inp T = [.seqn]) {k : Nat} (hk : T ≤ k)
    (hless : (trace step output s inp k).length < 4 * (n + 1) + 1) :
    ∃ t, k ≤ t ∧ (trace step output s inp k).length < (trace step output s inp t).length := by
  rcases hdrains (k + 1) with ⟨t, ht, hfree⟩
  rcases trace_add step output s inp k (t - k) with ⟨rest, hrest⟩
  rw [Nat.add_sub_cancel' (by omega)] at hrest
  by_cases hgrown : (trace step output s inp k).length < (trace step output s inp t).length
  · exact ⟨t, by omega, hgrown⟩
  · -- nothing was sent in the clock before, so that the output is free
    refine ⟨t + 1, by omega, ?_⟩
    have hsame : (trace step output s inp t).length = (trace step output s inp k).length := by
      rw [hrest, List.length_append] at hgrown ⊢
      omega
    have hstrobe : (stateAt step s inp t).ctrlOutStrobe = false := by
      obtain ⟨u, rfl⟩ : ∃ u, t = u + 1 := ⟨t - 1, by omega⟩
      rcases trace_add step output s inp k (u - k) with ⟨rest', hrest'⟩
      rw [Nat.add_sub_cancel' (by omega)] at hrest'
      rw [stateAt_succ, step_output.1]
      cases hout : output (stateAt step s inp u) (inp u) with
      | none => rfl
      | some o =>
          rw [trace_succ, hout, hrest', List.length_append, List.length_append] at hsame
          simp at hsame
          omega
    rcases read_run hread hquiet hstart htrace (t := t) (by omega) with ⟨m, hsending, hsent⟩
    rw [hsent, List.length_cons, itemOuts_length] at hsame
    rcases hsending.step hread (hquiet t (by omega)) with ⟨-, -, hwait⟩ | ⟨hout, -⟩
    · rcases hwait (by omega) with hbusy | hstrobe'
      · rw [hfree] at hbusy
        cases hbusy
      · rw [hstrobe] at hstrobe'
        cases hstrobe'
    · rw [trace_succ, hout, List.length_append, hsent, List.length_cons, itemOuts_length]
      simp
      omega

/-- A read sends all bytes of its items, and nothing after them. -/
theorem read_ends (hread : IsRead cmd) (hquiet : Quiet inp T) (hdrains : Drains inp)
    (hstart : Sending cmd a n 0 (stateAt step s inp T).frame)
    (htrace : trace step output s inp T = [.seqn]) :
    ∃ T', T ≤ T' ∧ ∀ t, T' ≤ t → (stateAt step s inp t).reqState = .idle ∧
      trace step output s inp t = .seqn :: itemOuts cmd a (4 * (n + 1)) := by
  rcases exists_le_of_grows (fun t => (trace step output s inp t).length)
    (fun k hk hless => read_grows hread hquiet hdrains hstart htrace hk hless) with ⟨T', hT', hlen⟩
  refine ⟨T', hT', ?_⟩
  intro t ht
  rcases read_run hread hquiet hstart htrace (t := t) (by omega) with ⟨m, hsending, hsent⟩
  have hall : m = 4 * (n + 1) := by
    have hbound := hsending.bound
    rcases trace_add step output s inp T' (t - T') with ⟨rest, hrest⟩
    rw [Nat.add_sub_cancel' (by omega)] at hrest
    have hlength := congrArg List.length hrest
    rw [hsent, List.length_cons, itemOuts_length, List.length_append] at hlength
    omega
  subst hall
  exact ⟨hsending.done rfl, hsent⟩

end Reads

section Others

variable {c : Config} {s : State c.breakpoints} {i : Input} {inp : Nat → Input} {T : Nat}

/-- In the idle state the unit waits for a byte. -/
theorem idle_run (hidle : (stateAt step s inp T).reqState = .idle) (hquiet : Quiet inp T) {t : Nat}
    (ht : T ≤ t) :
    (stateAt step s inp t).reqState = .idle ∧
      trace step output s inp t = trace step output s inp T := by
  induction t, ht using Nat.le_induction with
  | base => exact ⟨hidle, rfl⟩
  | succ t ht ih =>
      rcases ih with ⟨hstays, hsame⟩
      have hne : (stateAt step s inp t).reqState ≠ .exec := by
        rw [hstays]
        nofun
      constructor
      · exact (congrArg Frame.reqState (step_of_idle hne (hquiet t ht))).trans hstays
      · rw [trace_succ, hsame]
        simp [output, hstays, hquiet t ht]

/-- What the detection of a breakpoint leaves in its register. -/
def marked (hit : Bool) (w : Word) : Word := if hit then w ||| 0b10#32 else w

/-- A write of a breakpoint changes that breakpoint; the others change as in any other clock. -/
theorem breakpointWr_step (hexec : s.reqState = .exec) (hactive : s.debugActive = true)
    (hcmd : s.cmd = debCmdBreakpointWr) :
    (step s i).reqState = .idle ∧ output s i = none ∧
      ∀ k, (step s i).breakAddrs k =
        marked (hit s i k) (if k.val = s.arg1.toNat then s.arg2 else s.breakAddrs k) := by
  have hexecute : ∀ r : State c.breakpoints, execute s i r = breakpointWr s r := by
    intro r
    rw [execute, if_pos hexec, hactive, executeCmd, hcmd]
    rfl
  refine ⟨?_, ?_, ?_⟩
  · have hframe := congrArg Frame.reqState (@step_frame c s i)
    rw [hexecute] at hframe
    exact hframe
  · simp [output, hexec, outputCmd, hcmd, debCmdBreakpointWr, debCmdRegRd, debCmdBreakpointRd,
      debCmdMemRd]
  · intro k
    unfold step
    rw [hexecute, hactive]
    rfl

/-- A step command with `m` clocks left to enable. -/
structure Stepping (a : Word) (m : Nat) (f : Frame) : Prop where
  active : f.debugActive = true
  exec : f.reqState = .exec
  cmd_eq : f.cmd = debCmdClkStep
  arg1_eq : f.arg1 = a
  arg2_eq : f.arg2.toNat = m

theorem clkStep_execute (hexec : s.reqState = .exec) (hactive : s.debugActive = true)
    (hcmd : s.cmd = debCmdClkStep) (hquiet : i.ctrlInStrobe = false)
    (hnohit : anyHit s i = false) :
    (step s i).frame = (clkStep s { s with ctrlOutStrobe := false }).frame ∧
      (step s i).clkEnable = (clkStep s { s with ctrlOutStrobe := false }).clkEnable ∧
      output s i = none := by
  have hexecute : execute s i (receive s i) = clkStep s { s with ctrlOutStrobe := false } := by
    rw [receive_quiet hquiet, execute, if_pos hexec, hactive, executeCmd, hcmd]
    rfl
  refine ⟨?_, ?_, ?_⟩
  · rw [step_frame, hexecute]
  · unfold step
    rw [hexecute, hactive]
    simp [detect, hnohit]
  · simp [output, hexec, outputCmd, hcmd, debCmdClkStep, debCmdRegRd, debCmdBreakpointRd,
      debCmdMemRd]

/-- A clock of a step command enables the clock of the processor, and the last one stops it. -/
theorem Stepping.step {a : Word} {m : Nat} (h : Stepping a m s.frame)
    (hquiet : i.ctrlInStrobe = false) (hnohit : anyHit s i = false) :
    output s i = none ∧
      (m = 0 → (step s i).reqState = .idle ∧ (step s i).debugActive = true ∧
        (step s i).clkEnable = a.getLsbD 0) ∧
      (m ≠ 0 → Stepping a (m - 1) (step s i).frame ∧ (step s i).clkEnable = true) := by
  have harg1 : s.arg1 = a := h.arg1_eq
  have harg2 : s.arg2.toNat = m := h.arg2_eq
  rcases clkStep_execute h.exec h.active h.cmd_eq hquiet hnohit with ⟨hframe, henable, hout⟩
  refine ⟨hout, ?_, ?_⟩
  · rintro rfl
    have hzero : s.arg2 = 0#32 := BitVec.eq_of_toNat_eq harg2
    rw [clkStep, if_pos hzero] at hframe henable
    refine ⟨congrArg Frame.reqState hframe, ?_, ?_⟩
    · exact (congrArg Frame.debugActive hframe).trans h.active
    · rw [henable, ← harg1]
  · intro hne
    have hpos : s.arg2 ≠ 0#32 := by
      rintro hzero
      rw [hzero] at harg2
      exact hne harg2.symm
    rw [clkStep, if_neg hpos] at hframe henable
    rw [hframe]
    refine ⟨⟨h.active, h.exec, h.cmd_eq, harg1, ?_⟩, henable⟩
    change (s.arg2 - 1).toNat = m - 1
    have hone : (1 : Word).toNat = 1 := rfl
    have hlt := s.arg2.isLt
    simp only [BitVec.toNat_sub, hone]
    omega

/-- In the idle state the clock of the processor stays as it is. -/
theorem clkEnable_idle (hidle : s.reqState = .idle) (hactive : s.debugActive = true)
    (hquiet : i.ctrlInStrobe = false) (hnohit : anyHit s i = false) :
    (step s i).frame = s.frame ∧ (step s i).clkEnable = s.clkEnable ∧ output s i = none := by
  have hne : s.reqState ≠ .exec := by
    rw [hidle]
    nofun
  refine ⟨step_of_idle hne hquiet, ?_, ?_⟩
  · unfold step
    rw [execute_of_ne hne, receive_quiet hquiet, hactive]
    simp [detect, hnohit]
  · simp [output, hidle, hquiet]

/-- The clocks of a step command. -/
theorem clkStep_run {a : Word} {n : Nat} (hstop : a.getLsbD 0 = false) (hquiet : Quiet inp T)
    (hnohit : ∀ t, T ≤ t → anyHit (stateAt step s inp t) (inp t) = false)
    (hstart : Stepping a n (stateAt step s inp T).frame) {t : Nat} (ht : T ≤ t) :
    trace step output s inp t = trace step output s inp T ∧
      (t ≤ T + n → Stepping a (T + n - t) (stateAt step s inp t).frame ∧
        (T < t → (stateAt step s inp t).clkEnable = true)) ∧
      (T + n < t → (stateAt step s inp t).reqState = .idle ∧
        (stateAt step s inp t).debugActive = true ∧ (stateAt step s inp t).clkEnable = false) := by
  induction t, ht using Nat.le_induction with
  | base =>
      refine ⟨rfl, fun _ => ⟨?_, fun hlt => by omega⟩, fun hlt => by omega⟩
      rwa [Nat.add_sub_cancel_left]
  | succ t ht ih =>
      rcases ih with ⟨htrace, hbefore, hafter⟩
      rw [trace_succ, htrace, stateAt_succ]
      rcases Nat.lt_or_ge (T + n) t with hlate | hearly
      · -- the command is done
        rcases hafter hlate with ⟨hidle, hactive, hoff⟩
        rcases clkEnable_idle hidle hactive (hquiet t ht) (hnohit t ht) with ⟨hframe, hen, hout⟩
        refine ⟨by rw [hout]; simp, fun hle => by omega, fun _ => ⟨?_, ?_, hen.trans hoff⟩⟩
        · exact (congrArg Frame.reqState hframe).trans hidle
        · exact (congrArg Frame.debugActive hframe).trans hactive
      · rcases hbefore hearly with ⟨hstepping, -⟩
        rcases hstepping.step (hquiet t ht) (hnohit t ht) with ⟨hout, hlast, hmore⟩
        refine ⟨by rw [hout]; simp, ?_, ?_⟩
        · intro hle
          rcases hmore (by omega) with ⟨hnext, hen⟩
          rw [show T + n - (t + 1) = T + n - t - 1 by omega]
          exact ⟨hnext, fun _ => hen⟩
        · intro hlt
          rcases hlast (by omega) with ⟨hidle, hactive, hen⟩
          exact ⟨hidle, hactive, hen.trans hstop⟩

end Others

end Debug
end F32c
