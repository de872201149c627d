import F32c.Serial.Driver

/-!
# Writing to the serial port

What `sio_write` says it has written, against what it has stored to the port.  The bytes of an
expanded newline are sent one at a time, and the newline is counted with the first of them.
-/

namespace F32c
namespace Serial

section Settings

/-- The settings, which the driver does not change. -/
def settings (tty : Option Tty) : Option Termios := tty.map Tty.termios

theorem ttyIproc_termios (tty : Tty) (task : Task) (c : CInt) :
    (ttyIproc tty task c).2.1.termios = tty.termios := by
  rw [ttyIproc]
  repeat' split
  all_goals rfl

theorem receive_settings (file : File) (rx : Rx) :
    settings (receive file rx).tty = settings file.tty := by
  rw [receive]
  cases htty : file.tty with
  | none => rfl
  | some tty =>
      dsimp only
      split
      · exact congrArg some (ttyIproc_termios tty file.task _)
      · rfl

theorem sioProbeRx_settings (file : File) (p : Poll) :
    settings (sioProbeRx file p).tty = settings file.tty := by
  change settings (p.rx.foldl receive file).tty = _
  induction p.rx generalizing file with
  | nil => rfl
  | cons rx rest ih => rw [List.foldl_cons, ih, receive_settings]

/-- A newline becomes a carriage return and a newline under `ONLCR`, and nothing else changes. -/
theorem expandOne_eq (tty : Option Tty) (c : Byte) :
    expandOne tty c =
      if c = 0xa ∧ (settings tty).any Termios.onlcr = true then [0xd, c] else [c] := by
  cases tty with
  | none => simp [expandOne, settings]
  | some tty =>
      simp only [expandOne, settings, Option.map_some, Option.any_some, ttyOexpand]
      by_cases hc : c = 10#8
      · subst hc
        simp [ttyDoOproc]
      · simp [hc]

theorem expandOne_congr {tty tty' : Option Tty} (h : settings tty = settings tty') :
    expandOne tty = expandOne tty' := by
  funext c
  rw [expandOne_eq, expandOne_eq, h]

theorem expandOne_ne_nil (tty : Option Tty) (c : Byte) : expandOne tty c ≠ [] := by
  rw [expandOne_eq]
  split
  · simp
  · simp

/-- The bytes that a buffer becomes. -/
def expand (tty : Option Tty) (buf : List Byte) : List Byte := buf.flatMap (expandOne tty)

theorem expand_append (tty : Option Tty) (buf buf' : List Byte) :
    expand tty (buf ++ buf') = expand tty buf ++ expand tty buf' := List.flatMap_append

theorem expand_congr {tty tty' : Option Tty} (h : settings tty = settings tty')
    (buf : List Byte) : expand tty buf = expand tty' buf := by
  rw [expand, expand, expandOne_congr h]

end Settings

section Call

variable {tty : Option Tty} {buf : List Byte} {nonblock : Bool}

/-- What has been sent, with what is pending, is what the characters that are counted become. -/
structure Counted (tty : Option Tty) (buf : List Byte) (s : WriteState) : Prop where
  settings : settings s.file.tty = settings tty
  bound : s.i ≤ buf.length
  sent : s.sent ++ s.pending = expand tty (buf.take s.i)
  none_sent : s.sent = [] ↔ s.i = 0

theorem Counted.pending_of_zero {s : WriteState} (hs : Counted tty buf s) (hi : s.i = 0) :
    s.pending = [] := by
  have hsent := hs.sent
  rw [hs.none_sent.2 hi, hi] at hsent
  exact hsent

theorem Counted.probe {s : WriteState} (hs : Counted tty buf s) (p : Poll) :
    Counted tty buf { s with file := sioProbeRx s.file p } :=
  ⟨(sioProbeRx_settings s.file p).trans hs.settings, hs.bound, hs.sent, hs.none_sent⟩

/-- The next byte is sent. -/
theorem Counted.send {s s' : WriteState} (hs : Counted tty buf s)
    (hmore : s.i < buf.length ∨ s.pending ≠ [])
    (hs' : (match s.pending with
      | c :: rest => Sum.inl (β := WriteResult)
          { s with pending := rest, sent := s.sent ++ [c] }
      | [] =>
        match expandOne s.file.tty (buf.getD s.i 0) with
        | c :: rest => .inl { s with i := s.i + 1, pending := rest, sent := s.sent ++ [c] }
        | [] => .inl { s with i := s.i + 1 }) = .inl s') : Counted tty buf s' := by
  cases hpending : s.pending with
  | cons c rest =>
      rw [hpending] at hs'
      cases hs'
      refine ⟨hs.settings, hs.bound, ?_, ?_⟩
      · have hsent := hs.sent
        rw [hpending] at hsent
        rw [← hsent, List.append_assoc]
        rfl
      · have hi : s.i ≠ 0 := fun h => by
          have hnil := hs.pending_of_zero h
          rw [hpending] at hnil
          cases hnil
        simp [hi]
  | nil =>
      have hlt : s.i < buf.length := by
        rcases hmore with h | h
        · exact h
        · exact absurd hpending h
      rw [hpending] at hs'
      dsimp only at hs'
      cases hone : expandOne s.file.tty (buf.getD s.i 0) with
      | nil => exact absurd hone (expandOne_ne_nil _ _)
      | cons c rest =>
          rw [hone] at hs'
          cases hs'
          refine ⟨hs.settings, hlt, ?_, by simp⟩
          have hsent := hs.sent
          rw [hpending, List.append_nil] at hsent
          have htake : buf.take (s.i + 1) = buf.take s.i ++ [buf.getD s.i 0] := by
            rw [List.take_succ_eq_append_getElem hlt, List.getD_eq_getElem?_getD,
              List.getElem?_eq_getElem hlt]
            rfl
          rw [htake, expand_append, ← hsent, List.append_assoc]
          congr 1
          rw [expand, List.flatMap_singleton, ← expandOne_congr hs.settings, hone]
          rfl

/-- How a call ends. -/
structure Ended (tty : Option Tty) (buf : List Byte) (r : WriteResult) : Prop where
  counted : Counted tty buf r.last
  ret : r.ret = r.last.i ∧ r.errno = none ∨
    r.ret = -1 ∧ (r.errno = some .eagain ∧ r.last.i = 0 ∨ r.errno = some .eintr)

theorem sioWrite_ended {file : File} {polls : List Poll} {r : WriteResult}
    (hset : settings file.tty = settings tty) (h : sioWrite nonblock buf polls file = some r) :
    Ended tty buf r := by
  refine Loop.exchange_rule (fun s _ => Counted tty buf s) (fun r _ => Ended tty buf r)
    ?_ ?_ ?_ polls ⟨file, 0, [], []⟩ [] r ⟨hset, Nat.zero_le _, rfl, by simp⟩ h
  · intro s _ r hs hr
    rw [writeRet] at hr
    split at hr
    · cases hr
    · next hdone =>
        cases hr
        rw [not_or] at hdone
        refine ⟨hs, .inl ⟨?_, rfl⟩⟩
        have hbound := hs.bound
        change (buf.length : Int) = s.i
        omega
  · intro s _ p s' hs hret hstep
    have hmore : s.i < buf.length ∨ s.pending ≠ [] := by
      by_contra hdone
      rw [writeRet, if_neg hdone] at hret
      cases hret
    rw [writeStep] at hstep
    dsimp only at hstep
    split at hstep
    · split at hstep
      · split at hstep
        · cases hstep
        · cases hstep
      · split at hstep
        · cases hstep
        · cases hstep
          exact hs.probe p
    · exact (hs.probe p).send hmore hstep
  · intro s _ p r hs _ hstep
    rw [writeStep] at hstep
    dsimp only at hstep
    split at hstep
    · split at hstep
      · split at hstep
        · cases hstep
          exact ⟨hs.probe p, .inl ⟨rfl, rfl⟩⟩
        · next hi =>
            cases hstep
            exact ⟨hs.probe p, .inr ⟨rfl, .inl ⟨rfl, not_ne_iff.1 hi⟩⟩⟩
      · split at hstep
        · cases hstep
          have hp := hs.probe p
          exact ⟨⟨hp.settings, hp.bound, hp.sent, hp.none_sent⟩, .inr ⟨rfl, .inr rfl⟩⟩
        · cases hstep
    · split at hstep
      · cases hstep
      · split at hstep
        · cases hstep
        · cases hstep

/-- The result says what has been sent. -/
def Accounted (tty : Option Tty) (buf : List Byte) (r : WriteResult) : Prop :=
  (0 ≤ r.ret → r.ret ≤ buf.length ∧ r.last.sent = expand tty (buf.take r.ret.toNat)) ∧
    (r.ret = -1 → r.last.sent = [])

/-- The call is not broken off between the bytes of a newline, nor by a signal after the first
byte. -/
def WriteResult.Clean (r : WriteResult) : Prop :=
  r.last.pending = [] ∧ (r.errno = some .eintr → r.last.i = 0)

theorem Ended.accounted_iff {r : WriteResult} (h : Ended tty buf r) :
    Accounted tty buf r ↔ r.Clean := by
  obtain ⟨hcounted, hret⟩ := h
  rcases hret with ⟨hret, herrno⟩ | ⟨hret, ⟨herrno, hi⟩ | herrno⟩
  · rw [Accounted, WriteResult.Clean, hret, herrno, Int.toNat_natCast, ← hcounted.sent]
    have hbound := hcounted.bound
    constructor
    · rintro ⟨hsent, -⟩
      exact ⟨by simpa using (hsent (by omega)).2, fun h => by cases h⟩
    · rintro ⟨hpending, -⟩
      exact ⟨fun _ => ⟨by omega, by rw [hpending, List.append_nil]⟩, fun h => by omega⟩
  · rw [Accounted, WriteResult.Clean, hret, herrno]
    constructor
    · intro _
      exact ⟨hcounted.pending_of_zero hi, fun h => by cases h⟩
    · intro _
      exact ⟨fun h => by omega, fun _ => hcounted.none_sent.2 hi⟩
  · rw [Accounted, WriteResult.Clean, hret, herrno]
    constructor
    · rintro ⟨-, hsent⟩
      have hi := hcounted.none_sent.1 (hsent rfl)
      exact ⟨hcounted.pending_of_zero hi, fun _ => hi⟩
    · rintro ⟨-, hi⟩
      exact ⟨fun h => by omega, fun _ => hcounted.none_sent.2 (hi rfl)⟩

end Call

section Resume

/-- A call of a caller that resumes, in the state the file then has. -/
structure WriteCall where
  nonblock : Bool
  polls : List Poll
  file : File

/-- A caller that goes on behind what a call has said to be written: the results, and what
remains of the buffer. -/
def resume : List WriteCall → List Byte → Option (List WriteResult × List Byte)
  | [], buf => some ([], buf)
  | call :: calls, buf =>
    (sioWrite call.nonblock buf call.polls call.file).bind fun r =>
      (resume calls (buf.drop r.ret.toNat)).map fun (rs, left) => (r :: rs, left)

/-- What all the calls have sent. -/
def sentBy (rs : List WriteResult) : List Byte := rs.flatMap fun r => r.last.sent

theorem resume_sent (tty : Option Tty) (calls : List WriteCall) : ∀ buf rs left,
    (∀ call ∈ calls, settings call.file.tty = settings tty) →
      resume calls buf = some (rs, left) → (∀ r ∈ rs, r.Clean) →
        sentBy rs ++ expand tty left = expand tty buf := by
  induction calls with
  | nil =>
      rintro buf rs left - h -
      cases h
      rfl
  | cons call calls ih =>
      intro buf rs left hset h hclean
      obtain ⟨r, hr, hrest⟩ := Option.bind_eq_some_iff.1 h
      obtain ⟨⟨rs', left'⟩, hresume, heq⟩ := Option.map_eq_some_iff.1 hrest
      cases heq
      have hended := sioWrite_ended (hset call List.mem_cons_self) hr
      have hsent : r.last.sent = expand tty (buf.take r.ret.toNat) := by
        obtain ⟨hpos, hneg⟩ := hended.accounted_iff.2 (hclean r List.mem_cons_self)
        rcases hended.ret with ⟨hret, -⟩ | ⟨hret, -⟩
        · exact (hpos (by omega)).2
        · rw [hneg hret, hret]
          rfl
      have htail := ih _ _ _ (fun c hc => hset c (List.mem_cons_of_mem _ hc)) hresume
        fun r hr => hclean r (List.mem_cons_of_mem _ hr)
      have hsplit : sentBy (r :: rs') = r.last.sent ++ sentBy rs' := List.flatMap_cons
      rw [hsplit, List.append_assoc, htail, hsent, ← expand_append, List.take_append_drop]

/-- The port with nothing to take, and the transmitter free or busy. -/
def quiet (busy : Bool) : Poll := ⟨[], 0, busy, false⟩

end Resume

end Serial
end F32c
